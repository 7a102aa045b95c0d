import GraphViews.Proofs.Graph.InPlace
import GraphViews.Proofs.Graph.Incidence

/-!
# Calls on a graph in its place

A graph is called upon directly or through a view that lies over it. What a call comes to is what the functions on
graphs give, and a call that is refused leaves the graph as it was.
-/

namespace GraphViews.Graph

variable {V E α : Type}

/-- An edge is named by its stored orientation, and where there are no directions by the other one too. -/
def Edge.Names (e : Edge) (directed : Bool) (e₀ : Edge) : Prop :=
  e = e₀ ∨ (directed = false ∧ e = e₀.reversed)

instance (e : Edge) (directed : Bool) (e₀ : Edge) : Decidable (e.Names directed e₀) :=
  inferInstanceAs (Decidable (_ ∨ _))

theorem Edge.Names.index_eq {e e₀ : Edge} {directed : Bool} (h : e.Names directed e₀) :
    e.index = e₀.index := by
  rcases h with rfl | ⟨-, rfl⟩ <;> rfl

/-- A call that changes a graph. A write goes through a view, of which only the layers count: they lie over the graph as
it is when it is called upon. -/
inductive Call (V E : Type) where
  | addVertex (x : V)
  | addEdge (u v : Vertex) (x : E)
  | writeVertex (w : View V E) (v : Vertex) (f : V → V)
  | writeEdge (w : View V E) (e : Edge) (f : E → E)

/-- What a call gives back: the descriptor of what it made, or the property that it wrote over. -/
inductive Reply (V E : Type) where
  | vertex (v : Vertex)
  | edge (e : Edge)
  | vertexWas (x : V)
  | edgeWas (x : E)

/-- A view hands a write on to what it lies over, whatever its tests reject. -/
def View.pass (x : InPlace V E α) : View V E → InPlace V E α
  | whole _ => x
  | handle w => w.pass x
  | filtered w _ => w.pass x

private theorem View.pass_eq (x : InPlace V E α) (w : View V E) : w.pass x = x := by
  induction w with
  | whole g => rfl
  | handle w ih => exact ih
  | filtered w l ih => exact ih

namespace Call

def putVertex (w : View V E) (v : Vertex) (x : V) : Call V E := .writeVertex w v fun _ => x

def putEdge (w : View V E) (e : Edge) (x : E) : Call V E := .writeEdge w e fun _ => x

/-- The steps of a call. -/
def inPlace : Call V E → InPlace V E (Reply V E)
  | addVertex x => .vertex <$> InPlace.addVertex x
  | addEdge u v x => .edge <$> InPlace.addEdge u v x
  | writeVertex w v f => .vertexWas <$> w.pass (InPlace.modifyVertex v f)
  | writeEdge w e f => .edgeWas <$> w.pass (InPlace.modifyEdge e f)

def change : Call V E → Change V E
  | addVertex x => .addVertex x
  | addEdge u v x => .addEdge u v x
  | writeVertex _ v f => .writeVertex v f
  | writeEdge _ e f => .writeEdge e f

end Call

namespace Multigraph

def perform (g : Multigraph V E) (c : Call V E) : Except Fault (Reply V E) × Multigraph V E :=
  c.inPlace.on g

/-- The graph after calls, some of which may have been refused. -/
def run (g : Multigraph V E) (cs : List (Call V E)) : Multigraph V E :=
  cs.foldl (fun g c => (g.perform c).2) g

/-- What the functions on graphs and views give for a call. -/
def call (g : Multigraph V E) : Call V E → Except Fault (Reply V E × Multigraph V E)
  | .addVertex x => .ok (.vertex (g.addVertex x).1, (g.addVertex x).2)
  | .addEdge u v x => do
    let (e, h) ← g.addEdge u v x
    return (.edge e, h)
  | .writeVertex w v f => do
    let (x, z) ← (w.rebase g).modifyVertex v f
    return (.vertexWas x, z.base)
  | .writeEdge w e f => do
    let (x, z) ← (w.rebase g).modifyEdge e f
    return (.edgeWas x, z.base)

/-- The vertices and edges that a call speaks of are in the graph. -/
def Allows (g : Multigraph V E) : Call V E → Prop
  | .addVertex _ => True
  | .addEdge u v _ => u.index < g.numVertices ∧ v.index < g.numVertices
  | .writeVertex _ v _ => v.index < g.numVertices
  | .writeEdge _ e _ => ∃ e₀ ∈ g.edges, e.Names g.directed e₀

theorem call_writeVertex (g : Multigraph V E) (w : View V E) (v : Vertex) (f : V → V) :
    g.call (.writeVertex w v f) = (g.modifyVertex v f).map fun r => (.vertexWas r.1, r.2) := by
  rw [call, View.modifyVertex_eq, View.base_rebase]
  rcases g.modifyVertex v f with fault | ⟨x, h⟩
  · rfl
  · simp [Except.map]

theorem call_writeEdge (g : Multigraph V E) (w : View V E) (e : Edge) (f : E → E) :
    g.call (.writeEdge w e f) = (g.modifyEdge e f).map fun r => (.edgeWas r.1, r.2) := by
  rw [call, View.modifyEdge_eq, View.base_rebase]
  rcases g.modifyEdge e f with fault | ⟨x, h⟩
  · rfl
  · simp [Except.map]

/-- All that can fail in a call comes before all that changes something. -/
theorem perform_eq (g : Multigraph V E) (c : Call V E) :
    g.perform c = Lasting.settled g (g.call c) := by
  cases c with
  | addVertex x =>
    rw [perform, Call.inPlace, Lasting.on_map, InPlace.addVertex_on]
    rfl
  | addEdge u v x =>
    rw [perform, Call.inPlace, Lasting.on_map, InPlace.addEdge_on, call]
    cases g.addEdge u v x <;> rfl
  | writeVertex w v f =>
    rw [perform, Call.inPlace, Lasting.on_map, View.pass_eq, InPlace.modifyVertex_on, call_writeVertex]
    cases g.modifyVertex v f <;> rfl
  | writeEdge w e f =>
    rw [perform, Call.inPlace, Lasting.on_map, View.pass_eq, InPlace.modifyEdge_on, call_writeEdge]
    cases g.modifyEdge e f <;> rfl

private theorem call_putVertex (g : Multigraph V E) (w : View V E) (v : Vertex) (x : V) :
    g.call (.putVertex w v x) = ((w.rebase g).putVertex v x).map fun r => (.vertexWas r.1, r.2.base) := by
  rw [Call.putVertex, call, View.putVertex]
  cases (w.rebase g).modifyVertex v fun _ => x <;> rfl

private theorem call_putEdge (g : Multigraph V E) (w : View V E) (e : Edge) (x : E) :
    g.call (.putEdge w e x) = ((w.rebase g).putEdge e x).map fun r => (.edgeWas r.1, r.2.base) := by
  rw [Call.putEdge, call, View.putEdge]
  cases (w.rebase g).modifyEdge e fun _ => x <;> rfl

/-- Through whatever view it is made, a put is the one of the graph. -/
theorem perform_putVertex (g : Multigraph V E) (w : View V E) (v : Vertex) (x : V) :
    g.perform (.putVertex w v x) =
      Lasting.settled g ((g.putVertex v x).map fun r => (.vertexWas r.1, r.2)) := by
  rw [perform_eq, call_putVertex, View.putVertex_eq, View.base_rebase]
  cases g.putVertex v x <;> simp [Except.map]

theorem perform_putEdge (g : Multigraph V E) (w : View V E) (e : Edge) (x : E) :
    g.perform (.putEdge w e x) = Lasting.settled g ((g.putEdge e x).map fun r => (.edgeWas r.1, r.2)) := by
  rw [perform_eq, call_putEdge, View.putEdge_eq, View.base_rebase]
  cases g.putEdge e x <;> simp [Except.map]

theorem joins_iff {l : Link E} {directed : Bool} {e : Edge} :
    l.joins directed e = true ↔ e.Names directed (l.edge e.index) := by
  obtain ⟨i, s, t⟩ := e
  simp only [Link.joins, Edge.Names, Link.edge, Edge.reversed, Bool.or_eq_true, Bool.and_eq_true,
    decide_eq_true_eq, Bool.not_eq_true', Edge.mk.injEq, true_and]
  grind

theorem link_eq_ok {g : Multigraph V E} {e : Edge} {l : Link E} :
    g.link e = .ok l ↔ g.links[e.index]? = some l ∧ e.Names g.directed (l.edge e.index) := by
  unfold link
  cases hl : g.links[e.index]? with
  | none => simp
  | some l' =>
    by_cases hj : l'.joins g.directed e = true
    · simp only [if_pos hj, Except.ok.injEq, Option.some.injEq]
      constructor
      · rintro rfl
        exact ⟨rfl, joins_iff.mp hj⟩
      · exact fun h => h.1
    · simp only [if_neg hj, Option.some.injEq]
      constructor
      · intro h
        cases h
      · rintro ⟨rfl, h⟩
        exact absurd (joins_iff.mpr h) hj

/-- The edges that belong to a graph are those that it finds a link for. -/
theorem exists_link_iff {g : Multigraph V E} {e : Edge} :
    (∃ l, g.link e = .ok l) ↔ ∃ e₀ ∈ g.edges, e.Names g.directed e₀ := by
  constructor
  · rintro ⟨l, hl⟩
    obtain ⟨hl, he⟩ := link_eq_ok.mp hl
    exact ⟨l.edge e.index, mem_edges.mpr ⟨l, hl, rfl, rfl⟩, he⟩
  · rintro ⟨e₀, he₀, he⟩
    obtain ⟨l, hl, hs, ht⟩ := mem_edges.mp he₀
    have hi : e.index = e₀.index := he.index_eq
    have hle : l.edge e.index = e₀ := by rw [Link.edge, hi, hs, ht]
    exact ⟨l, link_eq_ok.mpr ⟨hi ▸ hl, hle ▸ he⟩⟩

theorem perform_addVertex (g : Multigraph V E) (x : V) :
    g.perform (.addVertex x) =
      (.ok (.vertex ⟨g.numVertices⟩), { g with nodes := g.nodes.push ⟨x, #[], #[]⟩ }) := by
  rw [perform_eq]
  rfl

theorem perform_addEdge {g : Multigraph V E} {u v : Vertex} (hu : u.index < g.numVertices)
    (hv : v.index < g.numVertices) (x : E) :
    g.perform (.addEdge u v x) = (.ok (.edge ⟨g.numEdges, u, v⟩),
      { g with nodes := g.enlist u v g.numEdges, links := g.links.push ⟨u, v, x⟩ }) := by
  rw [perform_eq, call, addEdge, if_pos ⟨hu, hv⟩]
  rfl

theorem perform_writeVertex {g : Multigraph V E} {v : Vertex} {n : Node V}
    (hn : g.nodes[v.index]? = some n) (w : View V E) (f : V → V) :
    g.perform (.writeVertex w v f) = (.ok (.vertexWas n.property),
      { g with nodes := g.nodes.modify v.index fun n => { n with property := f n.property } }) := by
  rw [perform_eq, call_writeVertex, modifyVertex, node_eq_ok.mpr hn]
  rfl

theorem perform_writeEdge {g : Multigraph V E} {e : Edge} {l : Link E} (hl : g.link e = .ok l)
    (w : View V E) (f : E → E) :
    g.perform (.writeEdge w e f) = (.ok (.edgeWas l.property),
      { g with links := g.links.modify e.index fun l => { l with property := f l.property } }) := by
  rw [perform_eq, call_writeEdge, modifyEdge, hl]
  rfl

theorem perform_refused {g : Multigraph V E} {c : Call V E} (hc : ¬g.Allows c) :
    ∃ f, g.perform c = (.error f, g) := by
  rw [perform_eq]
  cases c with
  | addVertex x => exact absurd trivial hc
  | addEdge u v x =>
    refine ⟨.foreignEndpoint u.index v.index, ?_⟩
    have huv : ¬(u.index < g.nodes.size ∧ v.index < g.nodes.size) := hc
    rw [call, addEdge, if_neg huv]
    rfl
  | writeVertex w v f =>
    refine ⟨.foreignVertex v.index, ?_⟩
    rw [call_writeVertex, modifyVertex, node_foreign hc]
    rfl
  | writeEdge w e f =>
    cases hl : g.link e with
    | ok l => exact absurd (exists_link_iff.mp ⟨l, hl⟩) hc
    | error fault =>
      refine ⟨fault, ?_⟩
      rw [call_writeEdge, modifyEdge, hl]
      rfl

theorem exists_reply {g : Multigraph V E} {c : Call V E} (hc : g.Allows c) :
    ∃ r h, g.perform c = (.ok r, h) := by
  cases c with
  | addVertex x => exact ⟨_, _, perform_addVertex g x⟩
  | addEdge u v x => exact ⟨_, _, perform_addEdge hc.1 hc.2 x⟩
  | writeVertex w v f =>
    obtain ⟨n, hn⟩ := exists_node hc
    exact ⟨_, _, perform_writeVertex (node_eq_ok.mp hn) w f⟩
  | writeEdge w e f =>
    obtain ⟨l, hl⟩ := exists_link_iff.mpr hc
    exact ⟨_, _, perform_writeEdge hl w f⟩

private theorem perform_snd (g : Multigraph V E) (c : Call V E) : (g.perform c).2 = g.step c.change := by
  rw [perform_eq, step]
  cases c with
  | addVertex x => rfl
  | addEdge u v x =>
    rw [call, Call.change, Multigraph.change]
    cases g.addEdge u v x <;> rfl
  | writeVertex w v f =>
    rw [call_writeVertex, Call.change, Multigraph.change]
    cases g.modifyVertex v f <;> rfl
  | writeEdge w e f =>
    rw [call_writeEdge, Call.change, Multigraph.change]
    cases g.modifyEdge e f <;> rfl

theorem run_eq_after (g : Multigraph V E) (cs : List (Call V E)) :
    g.run cs = g.after (cs.map Call.change) := by
  rw [run, after, List.foldl_map]
  congr
  funext g c
  exact perform_snd g c

end Multigraph

end GraphViews.Graph
