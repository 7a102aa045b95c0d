import GraphViews.Proofs.Graph.HandedOut
import GraphViews.Proofs.Graph.Shape
import GraphViews.Proofs.Graph.Store

/-!
# Graphs as stores

Whatever calls a graph has taken, directly or through views, the descriptors that it hands out keep to what they were
handed out for, and a value is changed only by what is written to it.
-/

namespace GraphViews.Graph

variable {V E : Type}

namespace Multigraph

/-- Whatever calls follow, `v` stands for the same vertex, with the value that is written last. -/
def KeepsVertex (g : Multigraph V E) (v : Vertex) (x : V) : Prop :=
  ∀ cs : List (Call V E), (g.run cs).HoldsVertex v (lastAtVertex v x cs)

def KeepsEdge (g : Multigraph V E) (e : Edge) (x : E) : Prop :=
  ∀ cs : List (Call V E), (g.run cs).directed = g.directed ∧
    (g.run cs).HoldsEdge e (lastAtEdge g.directed e x cs)

private theorem HoldsVertex.keeps {g : Multigraph V E} {v : Vertex} {x : V} (h : g.HoldsVertex v x) :
    g.KeepsVertex v x := h.run

private theorem HoldsEdge.keeps {g : Multigraph V E} {e : Edge} {x : E} (h : g.HoldsEdge e x) : g.KeepsEdge e x :=
  fun cs => ⟨directed_run g cs, h.run cs⟩

/-- The contract of a property store. -/
structure Faithful (g : Multigraph V E) : Prop where
  /-- What a call does in place is what the functions give for it. -/
  call : ∀ c, g.perform c = Lasting.settled g (g.call c)
  /-- A vertex is handed out for the value that it is made with. -/
  addVertex : ∀ x, ∃ h, g.perform (.addVertex x) = (.ok (.vertex ⟨g.numVertices⟩), h) ∧
    h.KeepsVertex ⟨g.numVertices⟩ x
  /-- An edge is handed out for its endpoints and the value that it is made with. -/
  addEdge : ∀ (u v : Vertex) x, u.index < g.numVertices → v.index < g.numVertices →
    ∃ h, g.perform (.addEdge u v x) = (.ok (.edge ⟨g.numEdges, u, v⟩), h) ∧ h.directed = g.directed ∧
      h.KeepsEdge ⟨g.numEdges, u, v⟩ x
  /-- What a view over the graph gives out is kept too, an edge from either side. -/
  givesVertex : ∀ (w : View V E) v, w.base = g → w.GivesVertex v → ∃ x, g.KeepsVertex v x
  givesEdge : ∀ (w : View V E) e, w.base = g → w.GivesEdge e →
    ∃ e₀ x, e.Names g.directed e₀ ∧ g.KeepsEdge e₀ x
  /-- A write through any view gives back the value that was there and changes nothing else. -/
  writeVertex : ∀ (w : View V E) v f x, g.HoldsVertex v x →
    ∃ h, g.perform (.writeVertex w v f) = (.ok (.vertexWas x), h) ∧ h.HoldsVertex v (f x) ∧
      (∀ z : View V E, (z.rebase g).SameShape (z.rebase h)) ∧
      (∀ u, u ≠ v → h.vertexProperty u = g.vertexProperty u) ∧ ∀ e, h.edgeProperty e = g.edgeProperty e
  writeEdge : ∀ (w : View V E) e e₀ f x, g.HoldsEdge e₀ x → e.Names g.directed e₀ →
    ∃ h, g.perform (.writeEdge w e f) = (.ok (.edgeWas x), h) ∧ h.HoldsEdge e₀ (f x) ∧
      (∀ z : View V E, (z.rebase g).SameShape (z.rebase h)) ∧
      (∀ v, h.vertexProperty v = g.vertexProperty v) ∧
      ∀ e', ¬e'.Names g.directed e₀ → h.edgeProperty e' = g.edgeProperty e'
  /-- A call fails exactly where it names what is not in the graph, and then changes nothing. -/
  refused : ∀ c, ¬g.Allows c → ∃ f, g.perform c = (.error f, g)
  allowed : ∀ c f h, g.perform c = (.error f, h) → ¬g.Allows c

theorem Consistent.run {g : Multigraph V E} (hg : g.Consistent) (cs : List (Call V E)) :
    (g.run cs).Consistent := by
  rw [run_eq_after]
  exact hg.after _

theorem Consistent.faithful {g : Multigraph V E} (hg : g.Consistent) : g.Faithful := by
  constructor
  case call => exact perform_eq g
  case addVertex =>
    intro x
    refine ⟨_, perform_addVertex g x, HoldsVertex.keeps (holdsVertex_iff.mpr ?_)⟩
    rw [numVertices, Array.getElem?_push_size]
    rfl
  case addEdge =>
    intro u v x hu hv
    refine ⟨_, perform_addEdge hu hv x, rfl, HoldsEdge.keeps (holdsEdge_iff.mpr ?_)⟩
    rw [numEdges, Array.getElem?_push_size]
  case givesVertex =>
    rintro w v rfl hv
    obtain ⟨x, hx⟩ := exists_holdsVertex (hg.lt_of_gives hv)
    exact ⟨x, hx.keeps⟩
  case givesEdge =>
    rintro w e rfl he
    obtain ⟨e₀, he₀, hnames⟩ := hg.exists_names he
    obtain ⟨x, hx⟩ := exists_holdsEdge he₀
    exact ⟨e₀, x, hnames, hx.keeps⟩
  case writeVertex =>
    intro w v f x hx
    obtain ⟨n, hn, rfl⟩ := Option.map_eq_some_iff.mp (holdsVertex_iff.mp hx)
    have hp := perform_writeVertex hn w f
    have hv := hx.perform (.writeVertex w v f)
    rw [hp, Call.vertexAfter, if_pos rfl] at hv
    refine ⟨_, hp, hv, (sameShape_writeVertex g v f).rebase, ?_, fun _ => rfl⟩
    intro u hu
    have hi : v.index ≠ u.index := fun h => hu (Vertex.eq_iff.mpr h.symm)
    rw [vertexProperty, vertexProperty, node, node, Array.getElem?_modify, if_neg hi]
  case writeEdge =>
    intro w e e₀ f x hx he
    have hp := perform_writeEdge (link_of_names (holdsEdge_iff.mp hx) he) w f
    have hv := hx.perform (.writeEdge w e f)
    rw [hp, Call.edgeAfter, if_pos he] at hv
    refine ⟨_, hp, hv, (sameShape_writeEdge g e f).rebase, fun _ => rfl, ?_⟩
    intro e' hne
    rw [edgeProperty, edgeProperty, hx.link_write he hne f]
  case refused => exact fun c hc => perform_refused hc
  case allowed =>
    intro c f h hf hc
    obtain ⟨r, h', hr⟩ := exists_reply hc
    rw [hr] at hf
    cases hf

/-- Whatever calls a graph has taken since it was empty, it is a faithful store. -/
theorem faithful_run (directed : Bool) (cs : List (Call V E)) :
    ((empty directed : Multigraph V E).run cs).Faithful :=
  ((Consistent.empty directed).run cs).faithful

/-- An edge is written from either side through a layer that hides everything, between an edge to nowhere and a put at
wrong endpoints that are refused. -/
theorem faithful_run_reversed :
    let g := (empty false : Multigraph Unit Nat).run [.addVertex (), .addVertex ()]
    let shut : View Unit Nat := (View.whole g).filtered ⟨.ofPred fun _ => false, .ofPred fun _ => false⟩
    ∃ h, g.perform (.addEdge ⟨0⟩ ⟨1⟩ 5) = (.ok (.edge ⟨0, ⟨0⟩, ⟨1⟩⟩), h) ∧
      (h.run [.writeEdge shut ⟨0, ⟨1⟩, ⟨0⟩⟩ (· + 1), .addEdge ⟨0⟩ ⟨2⟩ 7, .putEdge shut ⟨0, ⟨0⟩, ⟨0⟩⟩ 9,
        .writeEdge shut.handle ⟨0, ⟨0⟩, ⟨1⟩⟩ (· * 2)]).HoldsEdge ⟨0, ⟨0⟩, ⟨1⟩⟩ 12 := by
  intro g shut
  obtain ⟨h, hp, hd, hk⟩ := (faithful_run (V := Unit) (E := Nat) false [.addVertex (), .addVertex ()]).addEdge
    ⟨0⟩ ⟨1⟩ 5 (by decide) (by decide)
  refine ⟨h, hp, ?_⟩
  obtain ⟨-, hx⟩ := hk [.writeEdge shut ⟨0, ⟨1⟩, ⟨0⟩⟩ (· + 1), .addEdge ⟨0⟩ ⟨2⟩ 7,
    .putEdge shut ⟨0, ⟨0⟩, ⟨0⟩⟩ 9, .writeEdge shut.handle ⟨0, ⟨0⟩, ⟨1⟩⟩ (· * 2)]
  rw [hd] at hx
  exact hx

end Multigraph

end GraphViews.Graph
