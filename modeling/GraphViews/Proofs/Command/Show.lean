import GraphViews.Proofs.Filter.Acceptance
import GraphViews.Proofs.Record.ReadBack
import GraphViews.Proofs.Record.Reading
import GraphViews.Proofs.Record.Selection

/-!
# Showing what filters accept

A command that shows a graph prints a selection of the rows of its database: the vertex rows that the vertex
expression accepts, and the edge rows that the edge expression accepts between such vertices.
-/

namespace GraphViews.Command

open GraphViews.Tables GraphViews.Filter GraphViews.Graph GraphViews.Record Fallible

variable {g : DataGraph} {V : List VertexRow} {E : List EdgeRow} {p : VertexRow → Bool}
  {q : EdgeRow → Bool}

def output (s : Snapshot) (V : List VertexRow) (E : List EdgeRow) : String :=
  s.text ++ (tally s V E).text ++ "\n"

theorem printed_eq (h : Holds g V E) (hV : (V.map VertexRow.vid).Nodup) {l : Layer}
    (hl : Reads l g p q) :
    printed (.filtered (.handle (.whole g)) l) = .ok (output (select p q V E) V E) := by
  simp [printed, h.snapshot_eq hV hl, h.summary_eq hV hl, output]

/-- The view of the task is a layer over the graph, of which the tests go by the rows as the predicates do. -/
def Shows (g : DataGraph) (task : Task) (p : VertexRow → Bool) (q : EdgeRow → Bool) : Prop :=
  ∃ l, (task.view g).result = .ok (.filtered (.handle (.whole g)) l) ∧ Reads l g p q

theorem shows_filtered {vertices edges : Option String}
    (hv : ∀ t, vertices = some t → ∃ k, compile t .vertex = .ok k)
    (he : ∀ t, edges = some t → ∃ k, compile t .edge = .ok k) (g : DataGraph) :
    Shows g (.filtered vertices edges) (fun r => accepts vertices .vertex r.values)
      fun r => accepts edges .edge r.values := by
  obtain ⟨kv, hkv, hcv, htv⟩ := exists_compile hv
  obtain ⟨ke, hke, hce, hte⟩ := exists_compile he
  refine ⟨⟨(EdgeFilter.mk g ke hce).test, (VertexFilter.mk g kv hcv).test⟩, ?_, ?_, ?_⟩
  · simp [Task.view, result_showing, hkv, hke, VertexFilter.on, hcv, EdgeFilter.on, hce]
  · intro v r hr
    change (g.vertexProperty v >>= fun r => kv.test r.values) = _
    rw [hr, ok_bind]
    exact htv r.values (Nat.le_refl 2)
  · intro e r hr
    change (edgeRow (.whole g) e >>= fun r => ke.test r.values) = _
    rw [hr, ok_bind]
    exact hte r.values (Nat.le_refl 4)

/-- A command prints the selection of the rows that its graph was loaded from. -/
theorem result_perform_shows {files : String → Database} {r : Request}
    (hload : loadDatabase (files r.path) r.directed = .ok g) (hl : load r.directed V E = .ok g)
    (h : Shows g r.task p q) : (perform files r).result = .ok (output (select p q V E) V E) := by
  obtain ⟨hg, hV, -⟩ := load_ok hl
  obtain ⟨l, hw, hr⟩ := h
  simp [result_perform_eq, result_openGraph, hload, hw, printed_eq hg hV hr, ofFault]

end GraphViews.Command
