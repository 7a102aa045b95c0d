import GraphViews.Proofs.Graph.Incidence

/-!
# Stacks of views

However many layers and handles lie over a graph, they show what a single layer shows that tests with all their
predicates together.
-/

namespace GraphViews.Graph

variable {V E : Type}

/-- What can lie over a view: a handle, or a layer whose tests always have an answer. -/
inductive Level where
  | handle
  | layer (edge : Edge → Bool) (vertex : Vertex → Bool)

namespace Level

def keepsEdge : Level → Edge → Bool
  | handle, _ => true
  | layer p _, e => p e

def keepsVertex : Level → Vertex → Bool
  | handle, _ => true
  | layer _ q, v => q v

def keepAll : Level := .layer (fun _ => true) fun _ => true

end Level

def Layer.ofPreds (p : Edge → Bool) (q : Vertex → Bool) : Layer := ⟨.ofPred p, .ofPred q⟩

def Edge.far (e : Edge) : Direction → Vertex
  | .outgoing => e.target
  | .incoming => e.source

/-- Whether every edge predicate keeps `e`. -/
def keepsEdge (ls : List Level) (e : Edge) : Bool := ls.all fun l => l.keepsEdge e

/-- Whether every vertex predicate keeps `v`. -/
def keepsVertex (ls : List Level) (v : Vertex) : Bool := ls.all fun l => l.keepsVertex v

@[simp] theorem keepsEdge_nil (e : Edge) : keepsEdge [] e = true := rfl

@[simp] theorem keepsEdge_cons (l : Level) (ls : List Level) (e : Edge) :
    keepsEdge (l :: ls) e = (l.keepsEdge e && keepsEdge ls e) := rfl

@[simp] theorem keepsVertex_nil (v : Vertex) : keepsVertex [] v = true := rfl

@[simp] theorem keepsVertex_cons (l : Level) (ls : List Level) (v : Vertex) :
    keepsVertex (l :: ls) v = (l.keepsVertex v && keepsVertex ls v) := rfl

namespace View

/-- The view under the levels, the outermost first. -/
def stack (w : View V E) : List Level → View V E
  | [] => w
  | .handle :: ls => (w.stack ls).handle
  | .layer p q :: ls => (w.stack ls).filtered (.ofPreds p q)

/-- What both views traverse, and how they judge each candidate, is the same. -/
structure Agrees (w z : View V E) : Prop where
  isDirected : w.isDirected = z.isDirected
  allowsParallelEdges : w.allowsParallelEdges = z.allowsParallelEdges
  source : ∀ e, w.source e = z.source e
  target : ∀ e, w.target e = z.target e
  numVertices : w.numVertices = z.numVertices
  numEdges : w.numEdges = z.numEdges
  vertexProperty : ∀ v, w.vertexProperty v = z.vertexProperty v
  edgeProperty : ∀ e, w.edgeProperty e = z.edgeProperty e
  vertices : w.vertices.pending = z.vertices.pending
  edges : w.edges.pending = z.edges.pending
  outEdges : ∀ v, (w.outEdges v).map Traversal.pending = (z.outEdges v).map Traversal.pending
  inEdges : ∀ v, (w.inEdges v).map Traversal.pending = (z.inEdges v).map Traversal.pending
  neighbors : ∀ v, (w.neighbors v).map Traversal.pending = (z.neighbors v).map Traversal.pending
  edgesBetween : ∀ u v, (w.edgesBetween u v).map Traversal.pending =
    (z.edgesBetween u v).map Traversal.pending
  outDegree : ∀ v, w.outDegree v = z.outDegree v
  inDegree : ∀ v, w.inDegree v = z.inDegree v
  edge? : ∀ u v, w.edge? u v = z.edge? u v

end View

namespace Layer

theorem on_ofPreds (p : Edge → Bool) (q : Vertex → Bool) (d : Direction) :
    (ofPreds p q).on d = .ofPred fun e => p e && q (e.far d) := by
  cases d <;> simp [on, onOut, onIn, ofPreds, Edge.far]

theorem onEdge_ofPreds (p : Edge → Bool) (q : Vertex → Bool) :
    (ofPreds p q).onEdge = .ofPred fun e => p e && (q e.source && q e.target) := by
  simp [onEdge, ofPreds]

end Layer

namespace View

variable (g : Multigraph V E) (ls : List Level)

theorem base_stack : ((whole g).stack ls).base = g := by
  induction ls with
  | nil => rfl
  | cons l ls ih => cases l <;> exact ih

theorem vertices_stack : ((whole g).stack ls).vertices.pending =
    g.vertices.map fun v => ⟨v, .ok (keepsVertex ls v)⟩ := by
  induction ls with
  | nil => exact Traversal.pending_ofList g.vertices
  | cons l ls ih =>
    cases l with
    | handle => exact ih
    | layer p q =>
      refine (Traversal.pending_filter ih).trans ?_
      simp [Level.keepsVertex, Bool.and_comm]

theorem edges_stack : ((whole g).stack ls).edges.pending =
    g.edges.map fun e =>
      ⟨e, .ok (keepsEdge ls e && (keepsVertex ls e.source && keepsVertex ls e.target))⟩ := by
  induction ls with
  | nil => exact Traversal.pending_ofList g.edges
  | cons l ls ih =>
    cases l with
    | handle => exact ih
    | layer p q =>
      change (Traversal.filter (Layer.ofPreds p q).onEdge _).pending = _
      rw [Layer.onEdge_ofPreds, Traversal.pending_filter ih]
      refine List.map_congr_left fun e _ => ?_
      simp only [keepsEdge_cons, keepsVertex_cons, Level.keepsEdge, Level.keepsVertex]
      congr 2
      ac_rfl

/-- What a stack shows at a vertex, in terms of what the graph lists there. -/
theorem incidence_stack {g : Multigraph V E} (ls : List Level) {v : Vertex} {d : Direction}
    {es : List Edge} (h : g.incidence v d = .ok es) :
    ∃ t, ((whole g).stack ls).incidence v d = .ok t ∧
      t.pending = es.map fun e => ⟨e, .ok (keepsEdge ls e && keepsVertex ls (e.far d))⟩ := by
  induction ls with
  | nil =>
    refine ⟨.ofList es, ?_, Traversal.pending_ofList es⟩
    simp [stack, incidence, h]
  | cons l ls ih =>
    obtain ⟨t, ht, hp⟩ := ih
    cases l with
    | handle => exact ⟨t, ht, hp⟩
    | layer p q =>
      refine ⟨t.filter ((Layer.ofPreds p q).on d), ?_, ?_⟩
      · simp [stack, incidence, ht]
      · rw [Layer.on_ofPreds, Traversal.pending_filter hp]
        refine List.map_congr_left fun e _ => ?_
        simp only [keepsEdge_cons, keepsVertex_cons, Level.keepsEdge, Level.keepsVertex]
        congr 2
        ac_rfl

theorem incidence_stack_error {g : Multigraph V E} (ls : List Level) {v : Vertex} {d : Direction}
    {f : Fault} (h : g.incidence v d = .error f) :
    ((whole g).stack ls).incidence v d = .error f := by
  induction ls with
  | nil => simp [stack, incidence, h]
  | cons l ls ih => cases l <;> simp [stack, incidence, ih]

/-- A graph reads the length of a list and a layer counts, with the same result. -/
theorem degree_stack {g : Multigraph V E} (hg : g.Consistent) (ls : List Level) {v : Vertex}
    {d : Direction} {es : List Edge} (h : g.incidence v d = .ok es) :
    ((whole g).stack ls).degree v d =
      .ok (es.filter fun e => keepsEdge ls e && keepsVertex ls (e.far d)).length := by
  induction ls with
  | nil =>
    have hall : es.filter (fun e => keepsEdge [] e && keepsVertex [] (e.far d)) = es :=
      List.filter_eq_self.mpr fun _ _ => rfl
    rw [hall]
    simp [stack, degree, hg.degree_eq_length, h, Except.map]
  | cons l ls ih =>
    cases l with
    | handle => exact ih
    | layer p q =>
      obtain ⟨t, ht, hp⟩ := incidence_stack (.layer p q :: ls) h
      change ((whole g).stack (.layer p q :: ls)).incidence v d >>= Traversal.count = _
      rw [ht, Fallible.ok_bind, Traversal.count, Traversal.toList_of_pending hp]
      simp

private theorem degree_stack_error {g : Multigraph V E} (hg : g.Consistent) (ls : List Level) {v : Vertex}
    {d : Direction} {f : Fault} (h : g.incidence v d = .error f) :
    ((whole g).stack ls).degree v d = .error f := by
  induction ls with
  | nil => simp [stack, degree, hg.degree_eq_length, h, Except.map]
  | cons l ls ih =>
    cases l with
    | handle => exact ih
    | layer p q =>
      have hi := incidence_stack_error (.layer p q :: ls) h
      change ((whole g).stack (.layer p q :: ls)).incidence v d >>= Traversal.count = _
      rw [hi, Fallible.error_bind]

/-- The edge that the graph finds first, if all edge predicates keep it. -/
theorem edge?_stack {g : Multigraph V E} (ls : List Level) {u v : Vertex} {es : List Edge}
    (h : g.incidence u .outgoing = .ok es) :
    ((whole g).stack ls).edge? u v =
      .ok ((es.find? fun e => e.target = v).filter (keepsEdge ls)) := by
  induction ls with
  | nil =>
    cases hf : es.find? fun e => e.target = v <;> simp [stack, edge?, h, hf, Option.filter]
  | cons l ls ih =>
    cases l with
    | handle => exact ih
    | layer p q =>
      simp only [stack, edge?, ih, Fallible.ok_bind]
      cases hf : es.find? fun e => e.target = v with
      | none => rfl
      | some e =>
        cases hk : keepsEdge ls e <;> cases hp : p e <;>
          simp [Level.keepsEdge, Layer.ofPreds, Test.ofPred, Option.filter, hk, hp]

private theorem edge?_stack_error {g : Multigraph V E} (ls : List Level) {u v : Vertex} {f : Fault}
    (h : g.incidence u .outgoing = .error f) : ((whole g).stack ls).edge? u v = .error f := by
  induction ls with
  | nil => simp [stack, edge?, h]
  | cons l ls ih => cases l <;> simp [stack, edge?, ih]

/-- Only what a stack keeps counts, not by which levels. -/
theorem agrees_stack {g : Multigraph V E} (hg : g.Consistent) {ls ms : List Level}
    (he : keepsEdge ls = keepsEdge ms) (hv : keepsVertex ls = keepsVertex ms) :
    ((whole g).stack ls).Agrees ((whole g).stack ms) := by
  have hb : ((whole g).stack ls).base = ((whole g).stack ms).base := by
    rw [base_stack, base_stack]
  have hi (v : Vertex) (d : Direction) :
      (((whole g).stack ls).incidence v d).map Traversal.pending =
        (((whole g).stack ms).incidence v d).map Traversal.pending := by
    cases h : g.incidence v d with
    | ok es =>
      obtain ⟨t, ht, hp⟩ := incidence_stack ls h
      obtain ⟨t', ht', hp'⟩ := incidence_stack ms h
      simp [ht, ht', hp, hp', Except.map, he, hv]
    | error f => rw [incidence_stack_error ls h, incidence_stack_error ms h]
  have hd (v : Vertex) (d : Direction) :
      ((whole g).stack ls).degree v d = ((whole g).stack ms).degree v d := by
    cases h : g.incidence v d with
    | ok es => rw [degree_stack hg ls h, degree_stack hg ms h, he, hv]
    | error f => rw [degree_stack_error hg ls h, degree_stack_error hg ms h]
  constructor
  case isDirected => rw [isDirected_eq, isDirected_eq, hb]
  case allowsParallelEdges => rw [allowsParallelEdges_eq, allowsParallelEdges_eq]
  case source => simp
  case target => simp
  case numVertices => rw [numVertices_eq, numVertices_eq, hb]
  case numEdges => rw [numEdges_eq, numEdges_eq, hb]
  case vertexProperty => simp [hb]
  case edgeProperty => simp [hb]
  case vertices => rw [vertices_stack, vertices_stack, hv]
  case edges => rw [edges_stack, edges_stack, he, hv]
  case outEdges => exact fun v => hi v .outgoing
  case inEdges => exact fun v => hi v .incoming
  case neighbors =>
    intro v
    rw [neighbors_eq, neighbors_eq]
    exact Traversal.pending_map_congr (hi v .outgoing) Edge.target
  case edgesBetween =>
    intro u v
    rw [edgesBetween_eq, edgesBetween_eq]
    exact Traversal.pending_filter_congr (hi u .outgoing) _
  case outDegree => exact fun v => hd v .outgoing
  case inDegree => exact fun v => hd v .incoming
  case edge? =>
    intro u v
    cases h : g.incidence u .outgoing with
    | ok es => rw [edge?_stack ls h, edge?_stack ms h, he]
    | error f => rw [edge?_stack_error ls h, edge?_stack_error ms h]

/-- A stack of any levels over a graph that changes have built is one layer; so their order, repeated levels and such
as reject nothing make no difference. -/
theorem stack_collapses (directed : Bool) (cs : List (Change V E)) (ls : List Level) :
    let w : View V E := whole ((Multigraph.empty directed).after cs)
    (w.stack ls).Agrees (w.filtered (.ofPreds (keepsEdge ls) (keepsVertex ls))) ∧
    (∀ ms : List Level, ms.Perm ls → (w.stack ms).Agrees (w.stack ls)) ∧
    (∀ l ∈ ls, (w.stack (l :: ls)).Agrees (w.stack ls)) ∧
    ∀ (l : Level) (above below : List Level), l = .handle ∨ l = .keepAll →
      (w.stack (above ++ l :: below)).Agrees (w.stack (above ++ below)) := by
  intro w
  have hg := (Multigraph.Consistent.empty (V := V) (E := E) directed).after cs
  refine ⟨?_, ?_, ?_, ?_⟩
  · change (w.stack ls).Agrees (w.stack [.layer (keepsEdge ls) (keepsVertex ls)])
    refine agrees_stack hg ?_ ?_
    · funext e
      simp [Level.keepsEdge]
    · funext v
      simp [Level.keepsVertex]
  · intro ms h
    exact agrees_stack hg (funext fun _ => h.all_eq) (funext fun _ => h.all_eq)
  · intro l hl
    refine agrees_stack hg ?_ ?_
    · funext e
      rw [keepsEdge_cons, Bool.and_eq_right_iff_imp]
      exact fun h => List.all_eq_true.mp h l hl
    · funext v
      rw [keepsVertex_cons, Bool.and_eq_right_iff_imp]
      exact fun h => List.all_eq_true.mp h l hl
  · intro l above below hl
    refine agrees_stack hg ?_ ?_
    · funext e
      rcases hl with rfl | rfl <;> simp [keepsEdge, Level.keepsEdge, Level.keepAll]
    · funext v
      rcases hl with rfl | rfl <;> simp [keepsVertex, Level.keepsVertex, Level.keepAll]

/-- A handle and a layer that rejects something, in both orders. -/
theorem stack_collapses_reversed :
    let w : View Unit Unit := whole ((Multigraph.empty true).after [.addVertex (), .addEdge ⟨0⟩ ⟨0⟩ ()])
    let ls : List Level := [.layer (fun e => e.index < 1) (fun v => 0 < v.index), .handle, .keepAll]
    (w.stack ls.reverse).Agrees (w.stack ls) ∧
      (w.stack (.handle :: ls)).Agrees (w.stack ls) ∧ (w.stack ([] ++ .keepAll :: ls)).Agrees (w.stack ls) := by
  intro w ls
  obtain ⟨-, hp, hr, hn⟩ := stack_collapses (V := Unit) (E := Unit) true
    [.addVertex (), .addEdge ⟨0⟩ ⟨0⟩ ()] ls
  exact ⟨hp ls.reverse (List.reverse_perm ls), hr .handle (by simp [ls]), hn .keepAll [] ls (.inr rfl)⟩

end View

end GraphViews.Graph
