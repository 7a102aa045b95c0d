import GraphViews.Proofs.Command.Printing
import GraphViews.Proofs.Command.Show
import GraphViews.Proofs.Filter.Rejection
import GraphViews.Proofs.Record.Refusal

/-!
# All or nothing

A command can fail while its graph is loaded and while its expressions or ids are read. Nothing after that fails, so
that it prints all of its output or none.
-/

namespace GraphViews.Command

open GraphViews.Tables GraphViews.Filter GraphViews.Graph GraphViews.Record Fallible

variable {g : DataGraph}

/-- The expressions that are given are well typed filters, the ids are numbers. -/
def Task.Readable : Task → Prop
  | .filtered vertices edges =>
    (∀ t, vertices = some t → ∃ e, parse t = .ok e ∧ check e .vertex = .ok ()) ∧
      ∀ t, edges = some t → ∃ e, parse t = .ok e ∧ check e .edge = .ok ()
  | .induced _ vids => ∀ t ∈ vids, ∃ n, Decimal.read? t = some n
  | .residual => True

/-- What fails because some step was made where it has no answer. -/
def Failure.Broken : Failure → Prop
  | .fault _ | .load (.fault _) | .filter (.fault _) => True
  | _ => False

theorem readId_eq_ok {t : String} {n : Int64} : readId t = .ok n ↔ Decimal.read? t = some n := by
  unfold readId
  cases Decimal.read? t <;> simp

private theorem readId_error {t : String} {e : Failure} (h : readId t = .error e) : e = .invalidId t := by
  unfold readId at h
  split at h
  · cases h
  · exact (Except.error.inj h).symm

/-- Whether the vertex has one of some ids. -/
def hasOneOf (g : DataGraph) (vids : Std.TreeSet Int64) (v : Vertex) : Bool :=
  (g.vertexProperty v).toOption.any fun r => vids.contains r.vid

theorem hasOneOf_eq {vids : Std.TreeSet Int64} {v : Vertex} {r : VertexRow} (hr : g.vertexProperty v = .ok r) :
    hasOneOf g vids v = vids.contains r.vid := by
  simp [hasOneOf, hr, Except.toOption]

theorem mem_vertices_of_property {v : Vertex} {r : VertexRow} (hr : g.vertexProperty v = .ok r) : v ∈ g.vertices := by
  obtain ⟨n, hn, -⟩ := bind_eq_ok.mp hr
  rw [Multigraph.mem_vertices]
  exact (Array.getElem?_eq_some_iff.mp (Multigraph.node_eq_ok.mp hn)).1

theorem selected_eq_ofList (g : DataGraph) (vids : Std.TreeSet Int64) :
    selected g vids = .ok (.ofList (g.vertices.filter (hasOneOf g vids))) := by
  have hf : g.vertices.filterM (fun v => return vids.contains (← g.vertexProperty v).vid) =
      .ok (g.vertices.filter (hasOneOf g vids)) := by
    refine filterM_eq_ok_filter ?_
    intro v hv
    obtain ⟨n, hn⟩ := Multigraph.exists_node (Multigraph.mem_vertices.mp hv)
    have hr : g.vertexProperty v = .ok n.property := by rw [Multigraph.vertexProperty, hn]; rfl
    rw [hr, hasOneOf_eq hr]
    rfl
  rw [selected, hf]
  rfl

theorem exists_selected (g : DataGraph) (vids : Std.TreeSet Int64) :
    ∃ subset, selected g vids = .ok subset ∧
      ∀ v r, g.vertexProperty v = .ok r → subset.contains v = vids.contains r.vid := by
  refine ⟨_, selected_eq_ofList g vids, ?_⟩
  intro v r hr
  have hv := mem_vertices_of_property hr
  rw [Std.TreeSet.contains_ofList, Bool.eq_iff_iff, List.contains_iff_mem, List.mem_filter, hasOneOf_eq hr]
  simp [hv]

theorem shows_induced (g : DataGraph) (complement : Bool) {vids : List String} {ids : List Int64}
    (h : vids.mapM readId = .ok ids) :
    Shows g (.induced complement vids) (fun r => ids.contains r.vid != complement) fun _ => true := by
  obtain ⟨subset, hs, hc⟩ := exists_selected g (.ofList ids)
  refine ⟨.induced (if complement then .outside subset else .inside subset), ?_, ?_, fun _ _ _ => rfl⟩
  · rw [Task.view, result_induced, h, ok_bind, hs]
    rfl
  · intro v r hr
    have hcv := hc v r hr
    rw [Std.TreeSet.contains_ofList] at hcv
    cases complement with
    | true => simp [Layer.induced, Test.outside, Test.ofPred, Collection.contains, hcv]
    | false => simp [Layer.induced, Test.inside, Test.ofPred, Collection.contains, hcv]

theorem shows_residual (g : DataGraph) :
    Shows g .residual (fun _ => true) fun r => decide (0 < r.capacity) := by
  refine ⟨_, rfl, fun _ _ _ => rfl, ?_⟩
  intro e r hr
  obtain ⟨d, hd, hr⟩ := bind_eq_ok.mp hr
  obtain ⟨s, -, hr⟩ := bind_eq_ok.mp hr
  obtain ⟨t, -, hr⟩ := bind_eq_ok.mp hr
  cases hr
  rw [View.edgeProperty_eq] at hd
  simp [Layer.edgesOnly, Test.residual, View.edgeField_eq, hd, Except.map]

/-- A task that can be read has a view of every graph, of which the tests go by the rows in the same way. -/
theorem exists_shows {task : Task} (h : task.Readable) : ∃ p q, ∀ g, Shows g task p q := by
  cases task with
  | filtered vertices edges =>
    exact ⟨_, _, shows_filtered (fun t ht => exists_compile_iff.mpr (h.1 t ht))
      fun t ht => exists_compile_iff.mpr (h.2 t ht)⟩
  | induced complement vids =>
    have hids : vids.mapM readId = .ok (vids.map fun t => (Decimal.read? t).getD 0) := by
      refine mapM_eq_ok_map ?_
      intro t ht
      obtain ⟨n, hn⟩ := h t ht
      rw [readId_eq_ok, hn]
      rfl
    exact ⟨_, _, fun g => shows_induced g complement hids⟩
  | residual => exact ⟨_, _, shows_residual⟩

private theorem compile_not_broken {text : String} {c : Context} {e : Failure}
    (h : (compile text c).mapError Failure.filter = .error e) : ¬e.Broken := by
  obtain ⟨fe, hfe, rfl⟩ := mapError_eq_error.mp h
  intro hb
  cases fe with
  | fault f => exact compile_ne_fault text c f hfe
  | _ => exact hb

/-- A task without a view has a reason for it. -/
theorem view_error {task : Task} {e : Failure} (h : (task.view g).result = .error e) : ¬e.Broken := by
  cases task with
  | filtered vertices edges =>
    rw [Task.view, result_showing] at h
    rcases bind_eq_error.mp h with h | ⟨kv, hkv, h⟩
    · exact compile_not_broken h
    have hcv : kv.context = .vertex := (test_of_compile (mapError_eq_ok.mp hkv)).1
    rw [VertexFilter.on, dif_pos hcv, mapError_ok, ok_bind] at h
    rcases bind_eq_error.mp h with h | ⟨ke, hke, h⟩
    · exact compile_not_broken h
    have hce : ke.context = .edge := (test_of_compile (mapError_eq_ok.mp hke)).1
    rw [EdgeFilter.on, dif_pos hce] at h
    cases h
  | induced complement vids =>
    rw [Task.view, result_induced] at h
    rcases bind_eq_error.mp h with h | ⟨ids, -, h⟩
    · obtain ⟨t, -, ht⟩ := exists_error_of_mapM h
      rw [readId_error ht]
      exact id
    · obtain ⟨subset, hs, -⟩ := exists_selected g (.ofList ids)
      rw [hs] at h
      cases h
  | residual => cases h

theorem readable_of_view {task : Task} {w : DataView} (h : (task.view g).result = .ok w) : task.Readable := by
  cases task with
  | filtered vertices edges =>
    rw [Task.view, result_showing] at h
    obtain ⟨kv, hkv, h⟩ := bind_eq_ok.mp h
    obtain ⟨v, -, h⟩ := bind_eq_ok.mp h
    obtain ⟨ke, hke, -⟩ := bind_eq_ok.mp h
    constructor
    · rintro t rfl
      exact exists_compile_iff.mp ⟨kv, mapError_eq_ok.mp hkv⟩
    · rintro t rfl
      exact exists_compile_iff.mp ⟨ke, mapError_eq_ok.mp hke⟩
  | induced complement vids =>
    rw [Task.view, result_induced] at h
    obtain ⟨ids, hids, -⟩ := bind_eq_ok.mp h
    intro t ht
    obtain ⟨n, -, hn⟩ := mem_of_mapM hids ht
    exact ⟨n, readId_eq_ok.mp hn⟩
  | residual => trivial

private theorem load_not_broken {db : Database} {directed : Bool} {e : LoadError}
    (h : loadDatabase db directed = .error e) : ¬(Failure.load e).Broken := by
  have hread {α : Type} {x : Except DatabaseError α} (hx : unreadable x = .error e) : ¬(Failure.load e).Broken := by
    cases x with
    | ok a => cases hx
    | error de =>
      cases hx
      exact id
  rcases bind_eq_error.mp h with h | ⟨V, -, h⟩
  · exact hread h
  rcases bind_eq_error.mp h with h | ⟨E, -, h⟩
  · exact hread h
  rcases load_error_iff.mp h with ⟨vid, -, rfl⟩ | ⟨-, row, -, rfl⟩ <;> exact id

theorem load_of_loadDatabase {db : Database} {directed : Bool} (h : loadDatabase db directed = .ok g) :
    ∃ V E, load directed V E = .ok g := by
  obtain ⟨V, -, h⟩ := bind_eq_ok.mp h
  obtain ⟨E, -, h⟩ := bind_eq_ok.mp h
  exact ⟨V, E, h⟩

/-- All that can come of a command. -/
theorem perform_cases (files : String → Database) (r : Request) :
    (∃ g w s t, loadDatabase (files r.path) r.directed = .ok g ∧ (r.task.view g).result = .ok w ∧
      Snapshot.ofView w = .ok s ∧ Summary.ofView w = .ok t ∧
      (perform files r).result = .ok (s.text ++ t.text ++ "\n")) ∨
    ((∀ g, loadDatabase (files r.path) r.directed = .ok g → ¬r.task.Readable) ∧
      ∃ e, (perform files r).result = .error e ∧ ¬e.Broken) := by
  have hp := result_perform_eq files r
  rw [result_openGraph] at hp
  cases hload : loadDatabase (files r.path) r.directed with
  | error e =>
    rw [hload] at hp
    exact .inr ⟨nofun, .load e, hp, load_not_broken hload⟩
  | ok g =>
    cases hview : (r.task.view g).result with
    | error e =>
      rw [hload, mapError_ok, ok_bind, hview] at hp
      refine .inr ⟨?_, e, hp, view_error hview⟩
      rintro _ ⟨⟩ hr
      obtain ⟨p, q, hs⟩ := exists_shows hr
      obtain ⟨l, hl, -⟩ := hs g
      rw [hview] at hl
      cases hl
    | ok w =>
      obtain ⟨V, E, hl⟩ := load_of_loadDatabase hload
      obtain ⟨hg, hV, -⟩ := load_ok hl
      obtain ⟨p, q, hs⟩ := exists_shows (readable_of_view hview)
      obtain ⟨l, hlw, hreads⟩ := hs g
      obtain rfl := Except.ok.inj (hview.symm.trans hlw)
      exact .inl ⟨g, _, _, _, rfl, hview, hg.snapshot_eq hV hreads, hg.summary_eq hV hreads,
        result_perform_shows hload hl ⟨l, hlw, hreads⟩⟩

/-- A command prints both tables of a view of the loaded graph, which can be read back, and its summary and leaves with
zero, or it prints nothing and leaves with one, for a reason that is no broken contract. It comes to the end as soon as
the graph is loaded and the expressions or ids are read; and to print step by step is to print as much. -/
theorem run_all_or_nothing (files : String → Database) {args : List String} {verbosity : Nat} {r : Request}
    (h : readArguments 0 args = .run verbosity r) :
    let report := run files args
    let loaded := loadDatabase (files r.path) r.directed
    ((report.code = 0 ∧ ∃ g w s t, loaded = .ok g ∧ (r.task.view g).result = .ok w ∧
        Snapshot.ofView w = .ok s ∧ Summary.ofView w = .ok t ∧ report.stdout = s.text ++ t.text ++ "\n" ∧
        Snapshot.ofText? report.stdout = some s) ∨
      (report.code = 1 ∧ report.stdout = "" ∧
        ∃ e, (perform files r).result = .error e ∧ ¬e.Broken ∧ report.complaint = some e.message)) ∧
    (report.code = 0 ↔ (∃ g, loaded = .ok g) ∧ r.task.Readable) ∧
    ((Printing.perform files r).on "").2 = report.stdout ∧
    (((Printing.perform files r).on "").1 = .ok () ↔ report.code = 0) := by
  intro report loaded
  have hreport : report = .ofStep verbosity (perform files r) := by
    simp only [report, run, h]
  rw [hreport, Printing.perform_on]
  rcases perform_cases files r with ⟨g, w, s, t, hg, hw, hs, ht, hp⟩ | ⟨hn, e, hp, hb⟩
  · obtain ⟨hcode, hout⟩ := @Report.ofStep_ok verbosity _ _ hp
    have hatOnce : Printing.atOnce (perform files r).result = (.ok (), s.text ++ t.text ++ "\n") := by
      rw [hp]
      rfl
    rw [hcode, hout, hatOnce]
    refine ⟨.inl ⟨rfl, g, w, s, t, hg, hw, hs, ht, rfl, s.ofText?_summary t⟩, ?_, rfl, ?_⟩
    · exact iff_of_true rfl ⟨⟨g, hg⟩, readable_of_view hw⟩
    · exact iff_of_true rfl rfl
  · obtain ⟨hcode, hout, hcomplaint⟩ := @Report.ofStep_error verbosity _ _ hp
    have hatOnce : Printing.atOnce (perform files r).result = (.error e, "") := by
      rw [hp]
      rfl
    rw [hcode, hout, hatOnce]
    refine ⟨.inr ⟨rfl, rfl, e, hp, hb, hcomplaint⟩, ?_, rfl, ?_⟩
    · refine iff_of_false Nat.one_ne_zero ?_
      rintro ⟨⟨g, hg⟩, hr⟩
      exact hn g hg hr
    · exact iff_of_false (by simp) Nat.one_ne_zero

/-- An edge without capacity is left out. An id that is no number prints nothing, nor does a database without tables. -/
theorem run_all_or_nothing_cases :
    let V : List VertexRow := [⟨1, 0⟩, ⟨2, 5⟩]
    let E : List EdgeRow := [⟨1, 2, 0, 7⟩, ⟨2, 2, 0, 0⟩]
    let vs : Table := ⟨["vid", "vlabel"], V.mapIdx fun i r => ⟨i, r.values.map .integer⟩⟩
    let es : Table :=
      ⟨["src", "dst", "elabel", "capacity"], E.mapIdx fun i r => ⟨i, r.values.map .integer⟩⟩
    let files (path : String) : Database := if path = "db" then ⟨[("vertices", vs), ("edges", es)]⟩ else ⟨[]⟩
    let s : Snapshot := ⟨[⟨1, 0⟩, ⟨2, 5⟩], [⟨1, 2, 0, 7⟩]⟩
    ((run files ["residual", "db"]).code = 0 ∧
      (run files ["residual", "db"]).stdout = s.text ++ (Summary.mk 2 2 2 1).text ++ "\n") ∧
    ((run files ["subset", "db", "2x"]).code = 1 ∧ (run files ["subset", "db", "2x"]).stdout = "") ∧
    (run files ["show", "other"]).code = 1 ∧ (run files ["show", "other"]).stdout = "" := by
  intro V E vs es files s
  refine ⟨?_, ?_, ?_⟩
  · have hload : loadDatabase (files "db") true = load true V E := loadDatabase_tables true V E
    obtain ⟨g, hg⟩ : ∃ g, load true V E = .ok g := exists_ok (by decide +kernel)
    have hshown : ((load true V E).toOption.bind fun g => (Task.view g .residual).result.toOption.bind fun w =>
        (Snapshot.ofView w).toOption.bind fun s => (Summary.ofView w).toOption.map fun t => (s, t)) =
          some (s, ⟨2, 2, 2, 1⟩) := by
      decide +kernel
    obtain ⟨hends, hcode, -⟩ := run_all_or_nothing files
      (show readArguments 0 ["residual", "db"] = .run 0 ⟨"db", true, .residual⟩ by decide +kernel)
    have hzero := hcode.mpr ⟨⟨g, hload.trans hg⟩, trivial⟩
    rcases hends with ⟨-, g', w, s', t, hg', hw, hs, ht, hout, -⟩ | ⟨hone, -⟩
    · rw [hload.symm.trans hg'] at hshown
      simp only [Except.toOption, Option.bind_some, hw, hs, ht, Option.map_some, Option.some.injEq,
        Prod.mk.injEq] at hshown
      obtain ⟨rfl, rfl⟩ := hshown
      exact ⟨hzero, hout⟩
    · rw [hone] at hzero
      cases hzero
  · obtain ⟨hends, hcode, -⟩ := run_all_or_nothing files
      (show readArguments 0 ["subset", "db", "2x"] = .run 0 ⟨"db", true, .induced false ["2x"]⟩ by decide +kernel)
    rcases hends with ⟨hzero, -⟩ | ⟨hone, hout, -⟩
    · obtain ⟨-, hr⟩ := hcode.mp hzero
      obtain ⟨n, hn⟩ := hr "2x" List.mem_cons_self
      have hnone : Decimal.read? "2x" = none := by decide +kernel
      rw [hnone] at hn
      cases hn
    · exact ⟨hone, hout⟩
  · obtain ⟨hends, hcode, -⟩ := run_all_or_nothing files
      (show readArguments 0 ["show", "other"] = .run 0 ⟨"other", true, .filtered none none⟩ by decide +kernel)
    rcases hends with ⟨hzero, -⟩ | ⟨hone, hout, -⟩
    · obtain ⟨⟨g, hg⟩, -⟩ := hcode.mp hzero
      cases hg
    · exact ⟨hone, hout⟩

end GraphViews.Command
