import GraphViews.Proofs.Command.Agreement
import Mathlib.Data.Finset.Card
import Mathlib.Data.Finset.Dedup

/-!
# Ids that are not in the graph

The ids that a command was given are as many as its vertices have, and more only if some are not in the graph. Two sets
of different things are compared here, of ids and of vertices. They can be, because no two vertices of a graph that was
loaded have the same id.
-/

namespace GraphViews.Command

open GraphViews.Tables GraphViews.Graph GraphViews.Record Fallible

namespace Logged

variable {ε α β : Type}

/-- The warnings among the records that some steps left. -/
def warnings (x : Logged ε α) : List LogRecord := x.records.filter (·.level = .warn)

private theorem warnings_bind_ok {x : Logged ε α} {a : α} (h : x.result = .ok a) (f : α → Logged ε β) :
    (x >>= f).warnings = x.warnings ++ (f a).warnings := by
  change (Logged.bind x f).warnings = _
  simp [Logged.bind, h, warnings]

/-- Steps that warn of nothing. -/
def Quiet (x : Logged ε α) : Prop := x.warnings = []

theorem Quiet.bind {x : Logged ε α} (hx : x.Quiet) {f : α → Logged ε β} (hf : ∀ a, (f a).Quiet) : (x >>= f).Quiet := by
  cases hr : x.result with
  | ok a =>
    rw [Quiet, warnings_bind_ok hr, hx, hf a]
    rfl
  | error e =>
    have hrecords : (x >>= f).records = x.records := by
      change (Logged.bind x f).records = _
      rw [Logged.bind, hr]
    rw [Quiet, warnings, hrecords]
    exact hx

private theorem quiet_pure (a : α) : (pure a : Logged ε α).Quiet := rfl

private theorem quiet_lift {δ : Type} (wrap : δ → ε) (x : Except δ α) : (lift wrap x).Quiet := by
  cases x <;> rfl

private theorem quiet_log {level : Level} (h : level ≠ .warn) (topic : Topic) (message : String) :
    (log level topic message : Logged ε Unit).Quiet := by
  simp [Quiet, log, warnings, h]

end Logged

open Logged

private theorem quiet_openGraph (files : String → Database) (r : Request) : (openGraph files r).Quiet := by
  refine (quiet_log (by decide) _ _).bind fun _ => ?_
  refine (quiet_lift _ _).bind fun V => (quiet_log (by decide) _ _).bind fun _ => ?_
  refine (quiet_lift _ _).bind fun E => (quiet_log (by decide) _ _).bind fun _ => ?_
  refine (quiet_log (by decide) _ _).bind fun _ => (quiet_lift _ _).bind fun p => ?_
  refine (quiet_log (by decide) _ _).bind fun _ => (quiet_lift _ _).bind fun g => ?_
  exact (quiet_log (by decide) _ _).bind fun _ => quiet_pure g

theorem Report.warnings_ofStep (verbosity : Nat) (s : Step String) :
    (Report.ofStep verbosity s).records.filter (·.level = .warn) = s.warnings := by
  have hrecords : (Report.ofStep verbosity s).records = s.records.filter fun r => r.level.verbosity ≤ verbosity := by
    unfold Report.ofStep
    cases s.result <;> rfl
  rw [hrecords, List.filter_filter, warnings]
  apply List.filter_congr
  intro r _
  by_cases h : r.level = .warn <;> simp [h, Level.verbosity]

def HasId (g : DataGraph) (vid : Int64) : Prop := ∃ v r, g.vertexProperty v = .ok r ∧ r.vid = vid

variable {g : DataGraph} {V : List VertexRow} {E : List EdgeRow}

theorem hasId_iff {vid : Int64} : HasId g vid ↔ ∃ n ∈ g.nodes, n.property.vid = vid := by
  constructor
  · rintro ⟨v, r, hr, rfl⟩
    obtain ⟨n, hn, hr⟩ := bind_eq_ok.mp hr
    cases hr
    exact ⟨n, Array.mem_of_getElem? (Multigraph.node_eq_ok.mp hn), rfl⟩
  · rintro ⟨n, hn, rfl⟩
    obtain ⟨i, hi, hn⟩ := Array.mem_iff_getElem.mp hn
    have hnode : g.node ⟨i⟩ = .ok n := Multigraph.node_eq_ok.mpr (Array.getElem?_eq_some_iff.mpr ⟨hi, hn⟩)
    refine ⟨⟨i⟩, n.property, ?_, rfl⟩
    rw [Multigraph.vertexProperty, hnode]
    rfl

instance (g : DataGraph) : DecidablePred (HasId g) := fun _ => decidable_of_iff _ hasId_iff.symm

theorem hasId_iff_mem (hg : Holds g V E) {vid : Int64} : HasId g vid ↔ vid ∈ V.map VertexRow.vid := by
  rw [hasId_iff, ← hg.vertices]
  simp

private theorem card_missing_pos {ids : List Int64} :
    0 < (ids.toFinset.filter fun n => ¬HasId g n).card ↔ ∃ n ∈ ids, ¬HasId g n := by
  rw [Finset.card_pos, Finset.filter_nonempty_iff]
  simp only [List.mem_toFinset]

/-- An ordered set has as many elements as a finite set with the same ones. -/
theorem size_eq_card {α : Type} [Ord α] [Std.TransOrd α] [Std.LawfulEqOrd α] [DecidableEq α] {t : Std.TreeSet α}
    {s : Finset α} (h : ∀ x, x ∈ t ↔ x ∈ s) : t.size = s.card := by
  have hnodup : t.toList.Nodup := by
    refine Std.TreeSet.distinct_toList.imp ?_
    rintro x y hne rfl
    exact hne Std.ReflCmp.compare_self
  have hs : t.toList.toFinset = s := by
    ext x
    rw [List.mem_toFinset, Std.TreeSet.mem_toList, h]
  rw [← hs, List.toFinset_card_of_nodup hnodup, Std.TreeSet.length_toList]

theorem eq_of_same_vid (hg : Holds g V E) (hV : (V.map VertexRow.vid).Nodup) {u v : Vertex} {r s : VertexRow}
    (hu : g.vertexProperty u = .ok r) (hv : g.vertexProperty v = .ok s) (h : r.vid = s.vid) : u = v :=
  Vertex.eq_iff.mpr (index_eq_of_vid_eq hV (hg.vertexProperty_iff.mp hu) (hg.vertexProperty_iff.mp hv) h)

section Selected

variable {ids : List Int64} {subset : Std.TreeSet Vertex} (hs : selected g (.ofList ids) = .ok subset)

include hs

theorem mem_selected {v : Vertex} : v ∈ subset ↔ ∃ r, g.vertexProperty v = .ok r ∧ r.vid ∈ ids := by
  obtain rfl := Except.ok.inj ((selected_eq_ofList g _).symm.trans hs)
  rw [Std.TreeSet.mem_ofList, List.contains_iff_mem, List.mem_filter]
  constructor
  · rintro ⟨-, hv⟩
    obtain ⟨r, hr, hvid⟩ := (Option.any_eq_true _ _).mp hv
    rw [Std.TreeSet.contains_ofList, List.contains_iff_mem] at hvid
    exact ⟨r, toOption_eq_some.mp hr, hvid⟩
  · rintro ⟨r, hr, hvid⟩
    refine ⟨mem_vertices_of_property hr, ?_⟩
    rw [hasOneOf_eq hr, Std.TreeSet.contains_ofList, List.contains_iff_mem]
    exact hvid

/-- Each of the given ids that is in the graph has its vertex in the subset. -/
theorem existsUnique_selected (hg : Holds g V E) (hV : (V.map VertexRow.vid).Nodup) {n : Int64} (hn : n ∈ ids)
    (h : HasId g n) : ∃! v, v ∈ subset ∧ ∃ r, g.vertexProperty v = .ok r ∧ r.vid = n := by
  obtain ⟨v, r, hr, rfl⟩ := h
  refine ⟨v, ⟨(mem_selected hs).mpr ⟨r, hr, hn⟩, r, hr, rfl⟩, ?_⟩
  rintro u ⟨-, s, hu, hvid⟩
  exact eq_of_same_vid hg hV hu hr hvid

theorem size_selected (hg : Holds g V E) (hV : (V.map VertexRow.vid).Nodup) :
    subset.size = (ids.toFinset.filter (HasId g)).card := by
  let vid (v : Vertex) : Int64 := (g.vertexProperty v).toOption.elim 0 VertexRow.vid
  have hvid {v : Vertex} {r : VertexRow} (hr : g.vertexProperty v = .ok r) : vid v = r.vid := by
    simp [vid, hr, Except.toOption]
  have hmem (v : Vertex) : v ∈ subset ↔ v ∈ subset.toList.toFinset := by
    rw [List.mem_toFinset, Std.TreeSet.mem_toList]
  rw [size_eq_card hmem]
  -- Counted by their ids, the vertices are counted once each, because no id is shared.
  refine Finset.card_nbij vid ?_ ?_ ?_
  · intro v hv
    obtain ⟨r, hr, hn⟩ := (mem_selected hs).mp ((hmem v).mpr hv)
    rw [hvid hr, Finset.coe_filter]
    exact ⟨List.mem_toFinset.mpr hn, v, r, hr, rfl⟩
  · intro u hu v hv huv
    obtain ⟨r, hr, -⟩ := (mem_selected hs).mp ((hmem u).mpr hu)
    obtain ⟨s, hs', -⟩ := (mem_selected hs).mp ((hmem v).mpr hv)
    rw [hvid hr, hvid hs'] at huv
    exact eq_of_same_vid hg hV hr hs' huv
  · intro n hn
    obtain ⟨hn, v, r, hr, rfl⟩ := Finset.mem_filter.mp hn
    refine ⟨v, (hmem v).mp ((mem_selected hs).mpr ⟨r, hr, List.mem_toFinset.mp hn⟩), hvid hr⟩

end Selected

/-- What a command warns of if some of the ids that it was given are missing. -/
def missingIds (count : Nat) : LogRecord :=
  ⟨.warn, .program, s!"{count} of the given vertex ids are not in the graph"⟩

/-- The warnings where there are vertices for only some of the ids. -/
def shortfall (asked found : Nat) : List LogRecord := if found < asked then [missingIds (asked - found)] else []

private theorem warnings_induced (complement : Bool) {given : List String} {ids : List Int64}
    (hids : given.mapM readId = .ok ids) {subset : Std.TreeSet Vertex}
    (hs : selected g (.ofList ids) = .ok subset) :
    (induced g complement given).warnings = shortfall (Std.TreeSet.ofList ids).size subset.size := by
  have hread : (lift id (given.mapM readId)).result = .ok ids := by rw [hids]; rfl
  have hsubset : (ofFault (selected g (.ofList ids))).result = .ok subset := by rw [hs]; rfl
  rw [induced, warnings_bind_ok hread, warnings_bind_ok hsubset, quiet_lift, ofFault, quiet_lift, List.nil_append,
    List.nil_append]
  unfold shortfall
  by_cases hlt : subset.size < (Std.TreeSet.ofList ids).size
  · rw [if_pos hlt, if_pos hlt]
    rfl
  · rw [if_neg hlt, if_neg hlt]
    rfl

/-- Only the choice of the subset warns, neither the loader nor the printing does. -/
theorem warnings_perform {files : String → Database} {path : String} {directed complement : Bool}
    (hload : loadDatabase (files path) directed = .ok g) {given : List String} {ids : List Int64}
    (hids : given.mapM readId = .ok ids) {subset : Std.TreeSet Vertex}
    (hs : selected g (.ofList ids) = .ok subset) :
    (perform files ⟨path, directed, .induced complement given⟩).warnings =
      shortfall (Std.TreeSet.ofList ids).size subset.size := by
  have hopen : (openGraph files ⟨path, directed, .induced complement given⟩).result = .ok g := by
    rw [result_openGraph, hload]
    rfl
  obtain ⟨l, hw, -⟩ := shows_induced g complement hids
  rw [perform_eq_view, warnings_bind_ok hopen, quiet_openGraph, warnings_bind_ok hw, ofFault, quiet_lift,
    List.append_nil, List.nil_append]
  exact warnings_induced complement hids hs

/-- A subset that is asked for by ids, some of which may be repeated or not be there, has one vertex for each of them
that is in the graph and no other vertex. So it is never greater than the set of the ids, and smaller by the number of
those that are missing. A run warns of that number exactly if there are any, and of nothing else. -/
theorem subset_warns_of_missing {files : String → Database} {path : String} {directed : Bool}
    (hload : loadDatabase (files path) directed = .ok g) {given : List String} {ids : List Int64}
    (hids : given.map Decimal.read? = ids.map some) (complement : Bool) :
    let vids : Std.TreeSet Int64 := .ofList ids
    let present := ids.toFinset.filter (HasId g)
    let missing := ids.toFinset.filter fun n => ¬HasId g n
    (∃ subset, selected g vids = .ok subset ∧
      (∀ v ∈ subset, ∃ r, g.vertexProperty v = .ok r ∧ r.vid ∈ present) ∧
      (∀ n ∈ present, ∃! v, v ∈ subset ∧ ∃ r, g.vertexProperty v = .ok r ∧ r.vid = n) ∧
      subset.size = present.card ∧ subset.size ≤ vids.size ∧ vids.size - subset.size = missing.card) ∧
    ∀ args verbosity, readArguments 0 args = .run verbosity ⟨path, directed, .induced complement given⟩ →
      (run files args).code = 0 ∧
      ((∃ n ∈ ids, ¬HasId g n) → (run files args).records.filter (·.level = .warn) = [missingIds missing.card]) ∧
      ((∀ n ∈ ids, HasId g n) → (run files args).records.filter (·.level = .warn) = []) := by
  intro vids present missing
  obtain ⟨V, E, hl⟩ := load_of_loadDatabase hload
  obtain ⟨hg, hV, -⟩ := load_ok hl
  obtain ⟨subset, hs, -⟩ := exists_selected g vids
  have hsize : subset.size = present.card := size_selected hs hg hV
  have hvids : vids.size = ids.toFinset.card := by
    apply size_eq_card
    intro n
    rw [Std.TreeSet.mem_ofList, List.contains_iff_mem, List.mem_toFinset]
  have hsum : present.card + missing.card = ids.toFinset.card :=
    Finset.card_filter_add_card_filter_not (HasId g)
  have hread := mapM_readId hids
  refine ⟨⟨subset, hs, ?_, ?_, hsize, by omega, by omega⟩, ?_⟩
  · intro v hv
    obtain ⟨r, hr, hn⟩ := (mem_selected hs).mp hv
    exact ⟨r, hr, Finset.mem_filter.mpr ⟨List.mem_toFinset.mpr hn, v, r, hr, rfl⟩⟩
  · intro n hn
    obtain ⟨hn, h⟩ := Finset.mem_filter.mp hn
    exact existsUnique_selected hs hg hV (List.mem_toFinset.mp hn) h
  · intro args verbosity hargs
    have hwarns : (run files args).records.filter (·.level = .warn) = shortfall vids.size subset.size := by
      rw [run, hargs, Report.warnings_ofStep, warnings_perform hload hread hs]
    have hnum : vids.size - subset.size = missing.card := by omega
    refine ⟨?_, ?_, ?_⟩
    · rw [run, hargs]
      exact (Report.ofStep_ok (result_perform_shows hload hl (shows_induced g complement hread))).1
    · intro hsome
      have hpos : 0 < missing.card := card_missing_pos.mpr hsome
      rw [hwarns, shortfall, if_pos (by omega), hnum]
    · intro hall
      have hnone : ¬∃ n ∈ ids, ¬HasId g n := by
        rintro ⟨n, hn, hne⟩
        exact hne (hall n hn)
      have hzero : ¬0 < missing.card := mt card_missing_pos.mp hnone
      rw [hwarns, shortfall, if_neg (by omega)]

/-- Of the six ids that are given the least is in the graph, two are the same in other digits, and of the two that are
missing one is given twice. -/
theorem subset_warns_of_missing_repeated :
    let V : List VertexRow := [⟨-9223372036854775808, 0⟩, ⟨2, 5⟩, ⟨3, 7⟩]
    let E : List EdgeRow := [⟨3, 2, 0, -4⟩, ⟨3, 3, 0, 1⟩]
    let files (_ : String) : Database := ⟨[("vertices", vertexTable V), ("edges", edgeTable E)]⟩
    let given := ["-9223372036854775808", "2", "+02", "7", "9", "7"]
    let ids : List Int64 := [-9223372036854775808, 2, 2, 7, 9, 7]
    let report := run files ("subset" :: "db" :: "--" :: given)
    given.map Decimal.read? = ids.map some ∧
    (∃ g subset, loadDatabase (files "db") true = .ok g ∧ selected g (.ofList ids) = .ok subset ∧ subset.size = 2) ∧
    report.code = 0 ∧
    report.records.filter (·.level = .warn) =
      [⟨.warn, .program, "2 of the given vertex ids are not in the graph"⟩] := by
  intro V E files given ids report
  have hids : given.map Decimal.read? = ids.map some := by decide +kernel
  have hread : loadDatabase (files "db") true = load true V E := loadDatabase_tables true V E
  obtain ⟨g, hg⟩ : ∃ g, load true V E = .ok g := exists_ok (by decide +kernel)
  obtain ⟨⟨subset, hs, -, -, hsize, -, -⟩, hrun⟩ := subset_warns_of_missing (hread.trans hg) hids false
  obtain ⟨hcode, hwarns, -⟩ := hrun ("subset" :: "db" :: "--" :: given) 0 (by decide +kernel)
  have hmem (n : Int64) : HasId g n ↔ n ∈ V.map VertexRow.vid := hasId_iff_mem (load_ok hg).1
  simp only [hmem] at hsize hwarns
  refine ⟨hids, ⟨g, subset, hread.trans hg, hs, hsize.trans (by decide +kernel)⟩, hcode, ?_⟩
  have hmissing : (ids.toFinset.filter fun n => n ∉ V.map VertexRow.vid).card = 2 := by decide +kernel
  rw [hmissing] at hwarns
  exact hwarns ⟨7, by decide +kernel, by decide +kernel⟩

end GraphViews.Command
