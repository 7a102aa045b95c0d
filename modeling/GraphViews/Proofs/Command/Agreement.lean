import GraphViews.Proofs.Command.Asking
import GraphViews.Proofs.Command.Completion
import GraphViews.Proofs.Filter.Alternatives

/-!
# Tasks that come to the same

The residual graph and the subset of given ids are views of their own, but each of them is also what some filters
show. Two views whose tests go by the rows in the same way print the same.
-/

namespace GraphViews.Command

open GraphViews.Tables GraphViews.Filter GraphViews.Graph GraphViews.Record Fallible

/-- The request can be made, and every command line that makes it prints the text and leaves with zero. -/
structure Prints (files : String → Database) (r : Request) (text : String) : Prop where
  asked : ∃ args, readArguments 0 args = .run 0 r
  printed : ∀ args verbosity, readArguments 0 args = .run verbosity r →
    (run files args).code = 0 ∧ (run files args).stdout = text

def Alike (files : String → Database) (path : String) (directed : Bool) (s t : Task) : Prop :=
  ∃ text, Prints files ⟨path, directed, s⟩ text ∧ Prints files ⟨path, directed, t⟩ text

variable {files : String → Database} {path : String} {directed : Bool} {g : DataGraph}

theorem Alike.stdout_eq {s t : Task} (h : Alike files path directed s t) {args args' : List String}
    (ha : readArguments 0 args = .run 0 ⟨path, directed, s⟩)
    (ha' : readArguments 0 args' = .run 0 ⟨path, directed, t⟩) :
    (run files args).stdout = (run files args').stdout := by
  obtain ⟨text, hs, ht⟩ := h
  exact (hs.printed args 0 ha).2.trans (ht.printed args' 0 ha').2.symm

private theorem prints_of_perform {r : Request} {text : String} (hr : ∀ complement, r.task ≠ .induced complement [])
    (h : (perform files r).result = .ok text) : Prints files r text := by
  refine ⟨⟨r.line, readArguments_line r hr⟩, ?_⟩
  intro args verbosity hargs
  rw [run, hargs]
  exact Report.ofStep_ok h

theorem alike_of_shows {s t : Task} {p : VertexRow → Bool} {q : EdgeRow → Bool}
    (h : loadDatabase (files path) directed = .ok g) (hs : Shows g s p q) (ht : Shows g t p q)
    (hsa : ∀ complement, s ≠ .induced complement []) (hta : ∀ complement, t ≠ .induced complement []) :
    Alike files path directed s t := by
  obtain ⟨V, E, hl⟩ := load_of_loadDatabase h
  exact ⟨output (select p q V E) V E, prints_of_perform hsa (result_perform_shows h hl hs),
    prints_of_perform hta (result_perform_shows h hl ht)⟩

theorem mapM_readId {given : List String} {ids : List Int64} (h : given.map Decimal.read? = ids.map some) :
    given.mapM readId = .ok ids := by
  induction given generalizing ids with
  | nil =>
    obtain rfl := List.map_eq_nil_iff.mp h.symm
    rfl
  | cons t given ih =>
    obtain ⟨n, ns, rfl, hn, hns⟩ := List.map_eq_cons_iff.mp h.symm
    exact mapM_cons_eq_ok.mpr ⟨n, ns, readId_eq_ok.mpr hn.symm, ih hns.symm, rfl⟩

private theorem shows_vertices {text : String} {p : VertexRow → Bool} (hk : ∃ k, compile text .vertex = .ok k)
    (hp : ∀ r : VertexRow, accepts (some text) .vertex r.values = p r) :
    Shows g (.filtered (some text) none) p fun _ => true := by
  obtain rfl : (fun r : VertexRow => accepts (some text) .vertex r.values) = p := funext hp
  exact shows_filtered (by rintro t ⟨⟩; exact hk) (by simp) g

private theorem shows_edges {text : String} {q : EdgeRow → Bool} (hk : ∃ k, compile text .edge = .ok k)
    (hq : ∀ r : EdgeRow, accepts (some text) .edge r.values = q r) :
    Shows g (.filtered none (some text)) (fun _ => true) q := by
  obtain rfl : (fun r : EdgeRow => accepts (some text) .edge r.values) = q := funext hq
  exact shows_filtered (by simp) (by rintro t ⟨⟩; exact hk) g

private theorem accepts_capacity (r : EdgeRow) :
    accepts (some "capacity > 0") .edge r.values = decide (0 < r.capacity) := by
  have hp : parse "capacity > 0" = .ok (.cmp .gt (.field "capacity") (.int 0)) :=
    toOption_eq_some.mp (by decide +kernel)
  exact accepts_of_truth hp rfl

/-- Two of the tasks are filters in another form. On any database that can be loaded, with directions or without, the
residual graph is printed as the edges of positive capacity are. The subset of some ids, which may be repeated or
missing from the graph, is printed as the vertices are that have one of them, and its complement as those that have
none. It does not matter by which texts the ids are given, and what they are printed as is one way to give them. -/
theorem tasks_agree (h : loadDatabase (files path) directed = .ok g) :
    Alike files path directed .residual (.filtered none (some "capacity > 0")) ∧
    ∀ ids : List Int64, ids ≠ [] →
      (ids.map toString).map Decimal.read? = ids.map some ∧
      ∀ given, given.map Decimal.read? = ids.map some →
        Alike files path directed (.induced false given) (.filtered (some (anyOf ids)) none) ∧
        Alike files path directed (.induced true given) (.filtered (some (noneOf ids)) none) := by
  refine ⟨?_, ?_⟩
  · have hk : ∃ k, compile "capacity > 0" .edge = .ok k := exists_ok (by decide +kernel)
    exact alike_of_shows h (shows_residual g) (shows_edges hk accepts_capacity) nofun nofun
  intro ids hids
  refine ⟨by simp [read?_toString], ?_⟩
  intro given hgiven
  have hasked : ∀ complement complement', Task.induced complement given ≠ .induced complement' [] := by
    rintro _ _ ⟨⟩
    exact hids (List.map_eq_nil_iff.mp hgiven.symm)
  have hread := mapM_readId hgiven
  refine ⟨?_, ?_⟩
  · have hshows : Shows g (.filtered (some (anyOf ids)) none) (fun r => ids.contains r.vid != false) fun _ => true :=
      shows_vertices (exists_compile_anyOf hids) fun r => (accepts_anyOf hids).trans (Bool.bne_false _).symm
    exact alike_of_shows h (shows_induced g false hread) hshows (hasked false) nofun
  · have hshows : Shows g (.filtered (some (noneOf ids)) none) (fun r => ids.contains r.vid != true) fun _ => true :=
      shows_vertices (exists_compile_noneOf hids) fun r => (accepts_noneOf hids).trans (Bool.bne_true _).symm
    exact alike_of_shows h (shows_induced g true hread) hshows (hasked true) nofun

/-- The least id of all, one that is not in the graph, and one that is given twice. -/
theorem tasks_agree_extreme :
    let V : List VertexRow := [⟨-9223372036854775808, 0⟩, ⟨2, 5⟩, ⟨3, 7⟩]
    let E : List EdgeRow := [⟨3, 2, 0, -4⟩, ⟨2, -9223372036854775808, 0, 9⟩, ⟨3, 3, 0, 1⟩]
    let files (_ : String) : Database := ⟨[("vertices", vertexTable V), ("edges", edgeTable E)]⟩
    let out (args : List String) : String := (run files args).stdout
    let given := ["-9223372036854775808", "2", "7", "+02"]
    let text := "vid == -9223372036854775808 || vid == 2 || vid == 7 || vid == 2"
    out ["residual", "db"] = out ["show", "--edges", "capacity > 0", "db"] ∧
    out ("subset" :: "db" :: "--" :: given) = out ["show", "--vertices", text, "db"] ∧
    out ("subset" :: "--complement" :: "db" :: "--" :: given) =
      out ["show", "db", "--vertices", "!(" ++ text ++ ")"] := by
  intro V E files out given text
  have hload : loadDatabase (files "db") true = load true V E := loadDatabase_tables true V E
  obtain ⟨g, hg⟩ : ∃ g, load true V E = .ok g := exists_ok (by decide +kernel)
  obtain ⟨hresidual, hids⟩ := tasks_agree (hload.trans hg)
  have hne : ([-9223372036854775808, 2, 7, 2] : List Int64) ≠ [] := by simp
  obtain ⟨hinside, houtside⟩ := (hids _ hne).2 given (by decide +kernel)
  have hany : anyOf [-9223372036854775808, 2, 7, 2] = text := by decide +kernel
  have hnone : noneOf [-9223372036854775808, 2, 7, 2] = "!(" ++ text ++ ")" := by decide +kernel
  rw [hany] at hinside
  rw [hnone] at houtside
  refine ⟨?_, ?_, ?_⟩
  · exact hresidual.stdout_eq (by decide +kernel) (by decide +kernel)
  · exact hinside.stdout_eq (by decide +kernel) (by decide +kernel)
  · exact houtside.stdout_eq (by decide +kernel) (by decide +kernel)

end GraphViews.Command
