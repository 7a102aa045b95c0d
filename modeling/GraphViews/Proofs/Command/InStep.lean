import GraphViews.Proofs.Command.Completion

/-!
# Runs in step

Two runs are compared step by step. Whether edges have directions is seen by nothing that a command reads off its graph,
so that a command with directions and the same one without them leave the same records and come to the same end.
-/

namespace GraphViews.Command

open GraphViews.Tables GraphViews.Filter GraphViews.Graph GraphViews.Record Fallible

namespace Logged

variable {ε α β γ δ κ : Type}

/-- Two runs leave the same records, and fail for the same reason or come to what is related. -/
inductive InStep (R : α → β → Prop) : Logged ε α → Logged ε β → Prop
  | fails (e : ε) (records : List LogRecord) : InStep R ⟨.error e, records⟩ ⟨.error e, records⟩
  | comes {a : α} {b : β} (h : R a b) (records : List LogRecord) : InStep R ⟨.ok a, records⟩ ⟨.ok b, records⟩

namespace InStep

variable {R : α → β → Prop} {S : γ → δ → Prop} {x : Logged ε α} {y : Logged ε β}

theorem refl (x : Logged ε α) : InStep Eq x x := by
  obtain ⟨r | a, records⟩ := x
  · exact .fails r records
  · exact .comes rfl records

theorem pure {a : α} {b : β} (h : R a b) : InStep R (Pure.pure a : Logged ε α) (Pure.pure b) := .comes h []

theorem lift (wrap : κ → ε) {x : Except κ α} {y : Except κ β} (hf : ∀ e, x = .error e ↔ y = .error e)
    (hc : ∀ a b, x = .ok a → y = .ok b → R a b) : InStep R (Logged.lift wrap x) (Logged.lift wrap y) := by
  rcases x with e | a
  · obtain rfl := (hf e).mp rfl
    exact .fails (wrap e) []
  · rcases y with e | b
    · cases (hf e).mpr rfl
    · exact .comes (hc a b rfl rfl) []

theorem bind {f : α → Logged ε γ} {g : β → Logged ε δ} (h : InStep R x y) (hfg : ∀ a b, R a b → InStep S (f a) (g b)) :
    InStep S (x >>= f) (y >>= g) := by
  cases h with
  | fails e records => exact .fails e records
  | @comes a b hab records =>
    change InStep S ⟨(f a).result, records ++ (f a).records⟩ ⟨(g b).result, records ++ (g b).records⟩
    have hnext := hfg a b hab
    generalize f a = u, g b = v at hnext ⊢
    cases hnext with
    | fails e more => exact .fails e (records ++ more)
    | comes hcd more => exact .comes hcd (records ++ more)

theorem after {S : β → γ → Prop} (x : Logged ε α) {f : α → Logged ε β} {g : α → Logged ε γ}
    (h : ∀ a, InStep S (f a) (g a)) : InStep S (x >>= f) (x >>= g) := by
  refine (refl x).bind ?_
  rintro a _ rfl
  exact h a

theorem of_results {R' : α → β → Prop} (h : InStep R x y)
    (hi : ∀ a b, x.result = .ok a → y.result = .ok b → R' a b) : InStep R' x y := by
  cases h with
  | fails e records => exact .fails e records
  | comes _ records => exact .comes (hi _ _ rfl rfl) records

theorem eq {y : Logged ε α} (h : InStep Eq x y) : x = y := by
  cases h with
  | fails e records => rfl
  | comes h records => rw [h]

end InStep

end Logged

open Logged

/-- Both graphs hold the same rows, of which no two have one id. -/
def SameRows (g h : DataGraph) : Prop :=
  ∃ V E, Holds g V E ∧ Holds h V E ∧ (V.map VertexRow.vid).Nodup

variable {g h : DataGraph}

private theorem placeVertices_inStep (V : List VertexRow) (d d' : Bool) :
    InStep (fun p q => Holds p.graph V [] ∧ Leads p.places V ∧ Holds q.graph V [] ∧ Leads q.places V)
      (lift Failure.load (placeVertices d V)) (lift Failure.load (placeVertices d' V)) := by
  refine .lift _ (fun e => ?_) ?_
  · rw [placeVertices_error, placeVertices_error]
  · intro p q hp hq
    obtain ⟨hp, hpl, -⟩ := placeVertices_ok hp
    obtain ⟨hq, hql, -⟩ := placeVertices_ok hq
    exact ⟨hp, hpl, hq, hql⟩

private theorem placeEdges_inStep {V : List VertexRow} {p q : Placed} (hp : Holds p.graph V []) (hpl : Leads p.places V)
    (hq : Holds q.graph V []) (hql : Leads q.places V) (E : List EdgeRow) :
    InStep (fun g h => Holds g V E ∧ Holds h V E) (lift Failure.load (placeEdges p E))
      (lift Failure.load (placeEdges q E)) := by
  refine .lift _ (fun e => ?_) ?_
  · rw [placeEdges_error hp hpl, placeEdges_error hq hql]
  · intro g h hg hh
    exact ⟨(placeEdges_ok hp hpl hg).1, (placeEdges_ok hq hql hh).1⟩

/-- A database is loaded with directions as it is without them. -/
theorem loadGraph_inStep (db : Database) (d d' : Bool) : InStep SameRows (loadGraph db d) (loadGraph db d') := by
  refine .after _ fun V => .after _ fun _ => .after _ fun E => .after _ fun _ => .after _ fun _ => ?_
  refine (placeVertices_inStep V d d').bind ?_
  rintro p q ⟨hp, hpl, hq, hql⟩
  refine .after _ fun _ => (placeEdges_inStep hp hpl hq hql E).bind ?_
  rintro g h ⟨hg, hh⟩
  rw [hg.numVertices_eq, hg.numEdges_eq, hh.numVertices_eq, hh.numEdges_eq]
  exact .after _ fun _ => .pure ⟨V, E, hg, hh, hpl.nodup⟩

theorem selected_eq (hs : SameRows g h) (vids : Std.TreeSet Int64) : selected g vids = selected h vids := by
  obtain ⟨V, E, hg, hh, -⟩ := hs
  have hv : g.vertexProperty = h.vertexProperty := by
    funext v
    rw [hg.vertexProperty_eq, hh.vertexProperty_eq]
  rw [selected, selected, hg.vertices_eq, hh.vertices_eq, hv]

private theorem vertexFilter_inStep (k : Constraint) :
    InStep (fun _ _ => True) (ofFault (VertexFilter.on g k)) (ofFault (VertexFilter.on h k)) := by
  refine .lift _ (fun e => ?_) fun _ _ _ _ => trivial
  by_cases hk : k.context = .vertex <;> simp [VertexFilter.on, hk]

private theorem edgeFilter_inStep (k : Constraint) :
    InStep (fun _ _ => True) (ofFault (EdgeFilter.on g k)) (ofFault (EdgeFilter.on h k)) := by
  refine .lift _ (fun e => ?_) fun _ _ _ _ => trivial
  by_cases hk : k.context = .edge <;> simp [EdgeFilter.on, hk]

/-- What is printed of the views of a task goes by the rows. -/
theorem printed_eq_of_view (hs : SameRows g h) {task : Task} {w z : DataView} (hw : (task.view g).result = .ok w)
    (hz : (task.view h).result = .ok z) : printed w = printed z := by
  obtain ⟨V, E, hg, hh, hV⟩ := hs
  obtain ⟨p, q, hshows⟩ := exists_shows (readable_of_view hw)
  obtain ⟨l, hl, hreads⟩ := hshows g
  obtain ⟨l', hl', hreads'⟩ := hshows h
  obtain rfl := Except.ok.inj (hw.symm.trans hl)
  obtain rfl := Except.ok.inj (hz.symm.trans hl')
  rw [printed_eq hg hV hreads, printed_eq hh hV hreads']

theorem view_inStep (hs : SameRows g h) (task : Task) :
    InStep (fun w z => printed w = printed z) (task.view g) (task.view h) := by
  suffices hany : InStep (fun _ _ => True) (task.view g) (task.view h) from
    hany.of_results fun w z => printed_eq_of_view hs
  cases task with
  | filtered vertices edges =>
    refine .after _ fun kv => (vertexFilter_inStep kv).bind fun _ _ _ => ?_
    exact .after _ fun ke => (edgeFilter_inStep ke).bind fun _ _ _ => .pure trivial
  | induced complement vids =>
    simp only [Task.view, Command.induced, selected_eq hs]
    refine .after _ fun ids => .after _ fun subset => ?_
    split
    · exact .after _ fun _ => .pure trivial
    · exact .pure trivial
  | residual => exact .pure trivial

/-- With directions and without them a command leaves the same records, and prints the same or fails for the same
reason. -/
theorem perform_directed (files : String → Database) (path : String) (task : Task) (d d' : Bool) :
    perform files ⟨path, d, task⟩ = perform files ⟨path, d', task⟩ := by
  refine InStep.eq ?_
  rw [perform_eq_view, perform_eq_view]
  have hopen : InStep SameRows (openGraph files ⟨path, d, task⟩) (openGraph files ⟨path, d', task⟩) :=
    .after _ fun _ => loadGraph_inStep (files path) d d'
  refine hopen.bind fun g h hs => (view_inStep hs task).bind ?_
  intro w z hprinted
  rw [hprinted]
  exact .refl _

end GraphViews.Command
