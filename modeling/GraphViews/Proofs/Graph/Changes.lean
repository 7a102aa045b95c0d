import GraphViews.Graph.Multigraph
import GraphViews.Proofs.Fallible

/-!
# Runs of changes

A graph is built by adding vertices and edges and by writing properties. What is refused leaves the graph as it
was, so a run of changes goes on from there.
-/

namespace GraphViews.Graph

variable {V E : Type}

/-- A call that changes a graph. A property is written by a function of the old one. -/
inductive Change (V E : Type) where
  | addVertex (x : V)
  | addEdge (u v : Vertex) (x : E)
  | writeVertex (v : Vertex) (f : V → V)
  | writeEdge (e : Edge) (f : E → E)

namespace Multigraph

def change (g : Multigraph V E) : Change V E → Except Fault (Multigraph V E)
  | .addVertex x => .ok (g.addVertex x).2
  | .addEdge u v x => do return (← g.addEdge u v x).2
  | .writeVertex v f => do return (← g.modifyVertex v f).2
  | .writeEdge e f => do return (← g.modifyEdge e f).2

def step (g : Multigraph V E) (c : Change V E) : Multigraph V E :=
  match g.change c with
  | .ok h => h
  | .error _ => g

/-- The graph after a run of changes. -/
def after (g : Multigraph V E) (cs : List (Change V E)) : Multigraph V E := cs.foldl step g

def handed (g : Multigraph V E) : Change V E → List Edge
  | .addEdge u v x =>
    match g.addEdge u v x with
    | .ok (e, _) => [e]
    | .error _ => []
  | _ => []

/-- The edges that a run of changes hands out. -/
def issued (g : Multigraph V E) : List (Change V E) → List Edge
  | [] => []
  | c :: cs => g.handed c ++ (g.step c).issued cs

/-- What holds at first and is kept by every change holds after every run. -/
theorem after_induction {P : Multigraph V E → Prop} {g : Multigraph V E} (h : P g)
    (hstep : ∀ g c h, P g → g.change c = .ok h → P h) (cs : List (Change V E)) :
    P (g.after cs) := by
  induction cs generalizing g with
  | nil => exact h
  | cons c cs ih =>
    refine ih ?_
    unfold step
    split
    · rename_i g' hg
      exact hstep g c g' h hg
    · exact h

theorem addEdge_ok {g h : Multigraph V E} {u v : Vertex} {x : E} {e : Edge}
    (hg : g.addEdge u v x = .ok (e, h)) :
    u.index < g.numVertices ∧ v.index < g.numVertices ∧ e = ⟨g.numEdges, u, v⟩ ∧
      h = { g with nodes := g.enlist u v g.numEdges, links := g.links.push ⟨u, v, x⟩ } := by
  unfold addEdge at hg
  split at hg
  · rename_i huv
    cases hg
    exact ⟨huv.1, huv.2, rfl, rfl⟩
  · cases hg

private theorem modifyVertex_ok {g h : Multigraph V E} {v : Vertex} {f : V → V} {x : V}
    (hg : g.modifyVertex v f = .ok (x, h)) :
    (∃ n, g.nodes[v.index]? = some n ∧ x = n.property) ∧
      h = { g with nodes := g.nodes.modify v.index fun n => { n with property := f n.property } } := by
  obtain ⟨n, hn, hg⟩ := Fallible.bind_eq_ok.mp hg
  cases hg
  refine ⟨⟨n, ?_, rfl⟩, rfl⟩
  unfold node at hn
  split at hn
  · rename_i hn'
    rw [hn', Except.ok.inj hn]
  · cases hn

private theorem modifyEdge_ok {g h : Multigraph V E} {e : Edge} {f : E → E} {x : E}
    (hg : g.modifyEdge e f = .ok (x, h)) :
    (∃ l, g.link e = .ok l ∧ x = l.property) ∧
      h = { g with links := g.links.modify e.index fun l => { l with property := f l.property } } := by
  obtain ⟨l, hl, hg⟩ := Fallible.bind_eq_ok.mp hg
  cases hg
  exact ⟨⟨l, hl, rfl⟩, rfl⟩

/-- All that a change can do. -/
theorem change_cases {g h : Multigraph V E} {c : Change V E} (hg : g.change c = .ok h) :
    (∃ x, c = .addVertex x ∧ h = { g with nodes := g.nodes.push ⟨x, #[], #[]⟩ }) ∨
    (∃ u v x, c = .addEdge u v x ∧ u.index < g.numVertices ∧ v.index < g.numVertices ∧
      h = { g with nodes := g.enlist u v g.numEdges, links := g.links.push ⟨u, v, x⟩ }) ∨
    (∃ v f, c = .writeVertex v f ∧
      h = { g with nodes := g.nodes.modify v.index fun n => { n with property := f n.property } }) ∨
    (∃ e f, c = .writeEdge e f ∧
      h = { g with links := g.links.modify e.index fun l => { l with property := f l.property } }) := by
  cases c with
  | addVertex x =>
    cases hg
    exact .inl ⟨x, rfl, rfl⟩
  | addEdge u v x =>
    obtain ⟨⟨e, h'⟩, ha, hg⟩ := Fallible.bind_eq_ok.mp hg
    cases hg
    obtain ⟨hu, hv, -, hh⟩ := addEdge_ok ha
    exact .inr (.inl ⟨u, v, x, rfl, hu, hv, hh⟩)
  | writeVertex v f =>
    obtain ⟨⟨x, h'⟩, ha, hg⟩ := Fallible.bind_eq_ok.mp hg
    cases hg
    exact .inr (.inr (.inl ⟨v, f, rfl, (modifyVertex_ok ha).2⟩))
  | writeEdge e f =>
    obtain ⟨⟨x, h'⟩, ha, hg⟩ := Fallible.bind_eq_ok.mp hg
    cases hg
    exact .inr (.inr (.inr ⟨e, f, rfl, (modifyEdge_ok ha).2⟩))

theorem mem_vertices {g : Multigraph V E} {v : Vertex} : v ∈ g.vertices ↔ v.index < g.numVertices := by
  rw [vertices, List.mem_map]
  constructor
  · rintro ⟨i, hi, rfl⟩
    exact List.mem_range.mp hi
  · intro hv
    exact ⟨v.index, List.mem_range.mpr hv, rfl⟩

theorem mem_edges {g : Multigraph V E} {e : Edge} :
    e ∈ g.edges ↔ ∃ l, g.links[e.index]? = some l ∧ l.source = e.source ∧ l.target = e.target := by
  simp only [edges, List.mem_mapIdx, Link.edge]
  constructor
  · rintro ⟨i, hi, rfl⟩
    exact ⟨g.links.toList[i], by simp, rfl, rfl⟩
  · rintro ⟨l, hl, hs, ht⟩
    obtain ⟨hi, rfl⟩ := Array.getElem?_eq_some_iff.mp hl
    refine ⟨e.index, by simpa using hi, ?_⟩
    rw [Array.getElem_toList, hs, ht]

theorem length_edges (g : Multigraph V E) : g.edges.length = g.numEdges := by
  simp [edges, numEdges]

theorem index_of_getElem? {g : Multigraph V E} {i : Nat} {e : Edge} (h : g.edges[i]? = some e) :
    e.index = i := by
  obtain ⟨_, rfl⟩ := List.getElem?_eq_some_iff.mp h
  simp [edges, Link.edge]

theorem edges_map_index (g : Multigraph V E) : g.edges.map Edge.index = List.range g.numEdges := by
  apply List.ext_getElem
  · simp [edges, numEdges]
  · intro i hi hi'
    simp [edges, Link.edge]

theorem edges_push (g : Multigraph V E) (nodes : Array (Node V)) (u v : Vertex) (x : E) :
    (Multigraph.mk g.directed nodes (g.links.push ⟨u, v, x⟩)).edges =
      g.edges ++ [⟨g.numEdges, u, v⟩] := by
  simp [edges, numEdges, Link.edge, List.mapIdx_append]

theorem edges_modify (g : Multigraph V E) (nodes : Array (Node V)) (i : Nat) (f : E → E) :
    (Multigraph.mk g.directed nodes
      (g.links.modify i fun l => { l with property := f l.property })).edges = g.edges := by
  apply List.ext_getElem
  · simp [edges]
  · intro k hk hk'
    simp only [edges, List.getElem_mapIdx, Array.toList_modify, List.getElem_modify]
    split <;> rfl

private theorem edges_change {g h : Multigraph V E} {c : Change V E} (hg : g.change c = .ok h) :
    h.edges = g.edges ++ g.handed c := by
  cases c with
  | addVertex x =>
    cases hg
    exact (List.append_nil _).symm
  | addEdge u v x =>
    obtain ⟨⟨e, h'⟩, ha, hg⟩ := Fallible.bind_eq_ok.mp hg
    cases hg
    obtain ⟨-, -, he, hh⟩ := addEdge_ok ha
    simp only [handed, ha]
    rw [hh, he]
    exact edges_push g _ u v x
  | writeVertex v f =>
    obtain ⟨⟨x, h'⟩, ha, hg⟩ := Fallible.bind_eq_ok.mp hg
    cases hg
    rw [(modifyVertex_ok ha).2]
    exact (List.append_nil _).symm
  | writeEdge e f =>
    obtain ⟨⟨x, h'⟩, ha, hg⟩ := Fallible.bind_eq_ok.mp hg
    cases hg
    rw [(modifyEdge_ok ha).2]
    exact (edges_modify g _ _ f).trans (List.append_nil _).symm

/-- A change adds the edge that it hands out behind the others, and keeps those. -/
theorem edges_step (g : Multigraph V E) (c : Change V E) :
    (g.step c).edges = g.edges ++ g.handed c := by
  unfold step
  split
  · rename_i h hg
    exact edges_change hg
  · rename_i f hg
    cases c with
    | addEdge u v x =>
      cases ha : g.addEdge u v x with
      | ok r => simp [change, ha] at hg
      | error f' => simp [handed, ha]
    | _ => simp [handed]

theorem edges_after (g : Multigraph V E) (cs : List (Change V E)) :
    (g.after cs).edges = g.edges ++ g.issued cs := by
  induction cs generalizing g with
  | nil => simp [after, issued]
  | cons c cs ih =>
    have h := ih (g.step c)
    rw [edges_step, List.append_assoc] at h
    exact h

theorem directed_after (g : Multigraph V E) (cs : List (Change V E)) :
    (g.after cs).directed = g.directed := by
  refine after_induction (P := fun h => h.directed = g.directed) rfl ?_ cs
  intro h c h' hd hc
  obtain ⟨x, -, rfl⟩ | ⟨u, v, x, -, -, -, rfl⟩ | ⟨v, f, -, rfl⟩ | ⟨e, f, -, rfl⟩ := change_cases hc
  all_goals exact hd

end Multigraph

end GraphViews.Graph
