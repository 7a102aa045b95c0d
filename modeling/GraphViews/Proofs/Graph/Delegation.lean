import GraphViews.Graph.View
import GraphViews.Proofs.Fallible

/-!
# What a view hands on

Every handle and every layer passes a query that it does not filter to the view that it lies over. So the graph at the
bottom answers it, and a change is made there.
-/

namespace GraphViews.Graph.View

variable {V E α : Type} (w : View V E)

/-- A query that every level hands on is answered by the graph. -/
private theorem eq_of_base (q : View V E → α) (a : Multigraph V E → α) (hwhole : ∀ g, q (whole g) = a g)
    (hhandle : ∀ w, q (handle w) = q w) (hfiltered : ∀ w l, q (filtered w l) = q w) : q w = a w.base := by
  induction w with
  | whole g => exact hwhole g
  | handle w ih => exact (hhandle w).trans ih
  | filtered w l ih => exact (hfiltered w l).trans ih

@[simp] theorem isDirected_eq : w.isDirected = w.base.directed :=
  w.eq_of_base isDirected Multigraph.directed (fun _ => rfl) (fun _ => rfl) fun _ _ => rfl

@[simp] theorem allowsParallelEdges_eq : w.allowsParallelEdges = true :=
  w.eq_of_base allowsParallelEdges (fun _ => true) (fun _ => rfl) (fun _ => rfl) fun _ _ => rfl

@[simp] theorem source_eq : w.source = Edge.source :=
  w.eq_of_base source (fun _ => Edge.source) (fun _ => rfl) (fun _ => rfl) fun _ _ => rfl

@[simp] theorem target_eq : w.target = Edge.target :=
  w.eq_of_base target (fun _ => Edge.target) (fun _ => rfl) (fun _ => rfl) fun _ _ => rfl

@[simp] theorem numVertices_eq : w.numVertices = w.base.numVertices :=
  w.eq_of_base numVertices Multigraph.numVertices (fun _ => rfl) (fun _ => rfl) fun _ _ => rfl

@[simp] theorem numEdges_eq : w.numEdges = w.base.numEdges :=
  w.eq_of_base numEdges Multigraph.numEdges (fun _ => rfl) (fun _ => rfl) fun _ _ => rfl

@[simp] theorem vertexProperty_eq : w.vertexProperty = w.base.vertexProperty :=
  w.eq_of_base vertexProperty Multigraph.vertexProperty (fun _ => rfl) (fun _ => rfl) fun _ _ => rfl

@[simp] theorem edgeProperty_eq : w.edgeProperty = w.base.edgeProperty :=
  w.eq_of_base edgeProperty Multigraph.edgeProperty (fun _ => rfl) (fun _ => rfl) fun _ _ => rfl

/-- What comes of a change comes up through the levels, which then lie over the new graph. -/
private theorem eq_rebase (q : View V E → Except Fault (α × View V E))
    (a : Multigraph V E → Except Fault (α × Multigraph V E))
    (hwhole : ∀ g, q (whole g) = (a g).map (Prod.map id whole))
    (hhandle : ∀ w, q (handle w) = (q w).map (Prod.map id handle))
    (hfiltered : ∀ w l, q (filtered w l) = (q w).map (Prod.map id (filtered · l))) :
    q w = (a w.base).map fun r => (r.1, w.rebase r.2) := by
  induction w with
  | whole g => exact hwhole g
  | handle w ih =>
    rw [hhandle, ih, base]
    cases a w.base <;> rfl
  | filtered w l ih =>
    rw [hfiltered, ih, base]
    cases a w.base <;> rfl

theorem modifyVertex_eq (v : Vertex) (f : V → V) :
    w.modifyVertex v f = (w.base.modifyVertex v f).map fun r => (r.1, w.rebase r.2) :=
  w.eq_rebase (fun w => w.modifyVertex v f) (fun g => g.modifyVertex v f) (fun _ => rfl) (fun _ => rfl)
    fun _ _ => rfl

theorem modifyEdge_eq (e : Edge) (f : E → E) :
    w.modifyEdge e f = (w.base.modifyEdge e f).map fun r => (r.1, w.rebase r.2) :=
  w.eq_rebase (fun w => w.modifyEdge e f) (fun g => g.modifyEdge e f) (fun _ => rfl) (fun _ => rfl)
    fun _ _ => rfl

theorem putVertex_eq (v : Vertex) (x : V) :
    w.putVertex v x = (w.base.putVertex v x).map fun r => (r.1, w.rebase r.2) :=
  w.modifyVertex_eq v fun _ => x

theorem putEdge_eq (e : Edge) (x : E) :
    w.putEdge e x = (w.base.putEdge e x).map fun r => (r.1, w.rebase r.2) :=
  w.modifyEdge_eq e fun _ => x

@[simp] theorem base_rebase (g : Multigraph V E) : (w.rebase g).base = g := by
  induction w with
  | whole _ => rfl
  | handle w ih => exact ih
  | filtered w l ih => exact ih

theorem vertexField_eq {β : Type} (f : V → β) (v : Vertex) :
    w.vertexField f v = (w.base.vertexProperty v).map f := by
  rw [vertexField, vertexProperty_eq]
  cases w.base.vertexProperty v <;> rfl

theorem edgeField_eq {β : Type} (f : E → β) (e : Edge) : w.edgeField f e = (w.base.edgeProperty e).map f := by
  rw [edgeField, edgeProperty_eq]
  cases w.base.edgeProperty e <;> rfl

theorem neighbors_eq (v : Vertex) : w.neighbors v = do return (← w.outEdges v).map Edge.target := by
  rw [neighbors, target_eq]

theorem edgesBetween_eq (u v : Vertex) :
    w.edgesBetween u v = do return (← w.outEdges u).filter (.ofPred fun e => e.target = v) := by
  rw [edgesBetween, target_eq]

end GraphViews.Graph.View
