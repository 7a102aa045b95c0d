import GraphViews.Graph.PropertyMap
import GraphViews.Proofs.Graph.Faithful

/-!
# Values by position

Values that are stored by position have a slot for everything that a view over a graph gives out, if there are as many
slots as the view counts. The counts are those of the graph below, however much of it is hidden.
-/

namespace GraphViews.Graph

variable {V E α κ β : Type}

/-- What is given for `k` after puts: the value that was put last for the same element, or else the fill value. -/
def lastPut (same : κ → κ → Prop) [DecidableRel same] (fill : β) (ps : List (κ × β)) (k : κ) : β :=
  ps.foldl (fun x p => if same p.1 k then p.2 else x) fill

namespace IndexMap

variable [Indexed κ]

/-- The values after a run of puts, unless one of them is out of bounds. -/
def putAll (m : IndexMap κ β) (ps : List (κ × β)) : Except Fault (IndexMap κ β) :=
  ps.foldlM (fun m p => m.put p.1 p.2) m

theorem get_replicate {size : Nat} {k : κ} (hk : Indexed.index k < size) (fill : β) :
    (replicate size fill).get k = .ok fill := by
  simp [get, replicate, hk]

theorem put_eq_ok {m h : IndexMap κ β} {k : κ} {x : β} :
    m.put k x = .ok h ↔ Indexed.index k < m.values.size ∧ h = ⟨m.values.setIfInBounds (Indexed.index k) x⟩ := by
  unfold put
  by_cases hk : Indexed.index k < m.values.size <;> simp [hk, eq_comm]

theorem size_put {m h : IndexMap κ β} {k : κ} {x : β} (hp : m.put k x = .ok h) :
    h.values.size = m.values.size := by
  obtain ⟨-, rfl⟩ := put_eq_ok.mp hp
  exact Array.size_setIfInBounds

theorem get_put {m h : IndexMap κ β} {k : κ} {x : β} (hp : m.put k x = .ok h) (l : κ) :
    h.get l = if Indexed.index k = Indexed.index l then .ok x else m.get l := by
  obtain ⟨hk, rfl⟩ := put_eq_ok.mp hp
  rw [get, get, Array.getElem?_setIfInBounds]
  by_cases hl : Indexed.index k = Indexed.index l
  · simp [hl, hl ▸ hk]
  · simp [hl]

end IndexMap

/-- So many slots serve what is given, as far as it is the same: nothing is out of bounds, one element has one slot, and
whatever is put, a get has the last value. -/
structure Serves [Indexed κ] (size : Nat) (given : κ → Prop) (same : κ → κ → Prop) [DecidableRel same] : Prop where
  slot : ∀ k l, given k → given l → (Indexed.index k = Indexed.index l ↔ same k l)
  run : ∀ (β : Type) (fill : β) (ps : List (κ × β)), (∀ p ∈ ps, given p.1) →
    ∃ m : IndexMap κ β, (IndexMap.replicate size fill).putAll ps = .ok m ∧
      ∀ k, given k → m.get k = .ok (lastPut same fill ps k)

namespace Serves

variable [Indexed κ] {size : Nat} {given : κ → Prop} {same : κ → κ → Prop} [DecidableRel same]

/-- Puts go through from where there are slots enough, and leave what they put last. -/
theorem putAll_ok (hin : ∀ k, given k → Indexed.index k < size)
    (hslot : ∀ k l, given k → given l → (Indexed.index k = Indexed.index l ↔ same k l)) {m : IndexMap κ β}
    (hm : m.values.size = size) {ps : List (κ × β)} (hps : ∀ p ∈ ps, given p.1) :
    ∃ h, m.putAll ps = .ok h ∧ ∀ k, given k → ∀ x, m.get k = .ok x → h.get k = .ok (lastPut same x ps k) := by
  induction ps generalizing m with
  | nil => exact ⟨m, rfl, fun k _ x hx => hx⟩
  | cons p ps ih =>
    have hp : given p.1 := hps p List.mem_cons_self
    obtain ⟨m', hput⟩ : ∃ m', m.put p.1 p.2 = .ok m' := ⟨_, IndexMap.put_eq_ok.mpr ⟨hm ▸ hin p.1 hp, rfl⟩⟩
    obtain ⟨h, hrun, hget⟩ := ih ((IndexMap.size_put hput).trans hm) fun q hq => hps q (List.mem_cons_of_mem p hq)
    refine ⟨h, ?_, ?_⟩
    · rw [IndexMap.putAll, List.foldlM_cons, hput]
      exact hrun
    · intro k hk x hx
      refine hget k hk (if same p.1 k then p.2 else x) ?_
      rw [IndexMap.get_put hput, hx]
      by_cases hsame : same p.1 k
      · rw [if_pos hsame, if_pos ((hslot p.1 k hp hk).mpr hsame)]
      · rw [if_neg hsame, if_neg (mt (hslot p.1 k hp hk).mp hsame)]

theorem of_slots (hin : ∀ k, given k → Indexed.index k < size)
    (hslot : ∀ k l, given k → given l → (Indexed.index k = Indexed.index l ↔ same k l)) :
    Serves size given same where
  slot := hslot
  run β fill ps hps := by
    obtain ⟨m, hm, hget⟩ := putAll_ok hin hslot (Array.size_replicate (n := size) (v := fill)) hps
    exact ⟨m, hm, fun k hk => hget k hk fill (IndexMap.get_replicate (hin k hk) fill)⟩

end Serves

private theorem Candidate.mem_of_firstKept {cs rest : List (Candidate α)} {x : α}
    (h : firstKept cs = .ok (some (x, rest))) :
    x ∈ cs.map Candidate.item ∧ ∀ c ∈ rest, c ∈ cs := by
  induction cs with
  | nil => cases h
  | cons c cs ih =>
    obtain ⟨kept, -, h⟩ := Fallible.bind_eq_ok.mp h
    cases kept with
    | true =>
      cases h
      exact ⟨List.mem_cons_self, fun d => List.mem_cons_of_mem c⟩
    | false =>
      obtain ⟨hx, hrest⟩ := ih h
      exact ⟨List.mem_cons_of_mem _ hx, fun d hd => List.mem_cons_of_mem c (hrest d hd)⟩

namespace Traversal

/-- What comes at some step, if steps are taken from both ends at will. -/
inductive Yields : Traversal α → α → Prop
  | front {t t' : Traversal α} {x : α} (h : t.popFront = .ok (some x, t')) : t.Yields x
  | back {t t' : Traversal α} {x : α} (h : t.popBack = .ok (some x, t')) : t.Yields x
  | afterFront {t t' : Traversal α} {x y : α} (h : t.popFront = .ok (some x, t')) (hy : t'.Yields y) : t.Yields y
  | afterBack {t t' : Traversal α} {x y : α} (h : t.popBack = .ok (some x, t')) (hy : t'.Yields y) : t.Yields y

private theorem mem_of_popFront {t t' : Traversal α} {x : α} (h : t.popFront = .ok (some x, t')) :
    x ∈ t.items ∧ ∀ y ∈ t'.items, y ∈ t.items := by
  obtain ⟨o, ho, h⟩ := Fallible.bind_eq_ok.mp h
  cases o with
  | none => cases h
  | some r =>
    cases h
    obtain ⟨hx, hrest⟩ := Candidate.mem_of_firstKept ho
    exact ⟨hx, fun y hy => List.map_subset Candidate.item hrest hy⟩

private theorem mem_of_popBack {t t' : Traversal α} {x : α} (h : t.popBack = .ok (some x, t')) :
    x ∈ t.items ∧ ∀ y ∈ t'.items, y ∈ t.items := by
  obtain ⟨o, ho, h⟩ := Fallible.bind_eq_ok.mp h
  cases o with
  | none => cases h
  | some r =>
    cases h
    obtain ⟨hx, hrest⟩ := Candidate.mem_of_firstKept ho
    refine ⟨by simpa [items] using hx, fun y hy => ?_⟩
    obtain ⟨c, hc, rfl⟩ := List.mem_map.mp hy
    exact List.mem_map_of_mem (List.mem_reverse.mp (hrest c (List.mem_reverse.mp hc)))

theorem Yields.mem_items {t : Traversal α} {x : α} (h : t.Yields x) : x ∈ t.items := by
  induction h with
  | front h => exact (mem_of_popFront h).1
  | back h => exact (mem_of_popBack h).1
  | afterFront h _ ih => exact (mem_of_popFront h).2 _ ih
  | afterBack h _ ih => exact (mem_of_popBack h).2 _ ih

end Traversal

theorem Edge.Names.of_both {e f e₀ : Edge} {directed : Bool} (he : e.Names directed e₀) (hf : f.Names directed e₀) :
    e.Names directed f := by
  rcases he with rfl | ⟨hd, rfl⟩ <;> rcases hf with rfl | ⟨hd', rfl⟩
  · exact .inl rfl
  · exact .inr ⟨hd', rfl⟩
  · exact .inr ⟨hd, rfl⟩
  · exact .inl rfl

namespace Multigraph

variable {g : Multigraph V E}

private theorem eq_of_index_eq {e f : Edge} (he : e ∈ g.edges) (hf : f ∈ g.edges) (h : e.index = f.index) : e = f := by
  obtain ⟨l, hl, hs, ht⟩ := mem_edges.mp he
  obtain ⟨k, hk, hs', ht'⟩ := mem_edges.mp hf
  rw [h, hk] at hl
  obtain rfl := Option.some.inj hl
  cases e
  cases f
  simp_all

theorem lt_of_mem_edges {e : Edge} (he : e ∈ g.edges) : e.index < g.numEdges := by
  obtain ⟨l, hl, -⟩ := mem_edges.mp he
  exact (Array.getElem?_eq_some_iff.mp hl).1

/-- Whatever calls a graph has taken since it was empty and whatever lies over it, as many slots as the view counts
serve all that it gives out: one slot for a vertex, and one for an edge from whichever side it is reached. -/
theorem slots_serve (directed : Bool) (cs : List (Call V E)) (w : View V E)
    (hw : w.base = (empty directed).run cs) :
    Serves w.numVertices w.GivesVertex (· = ·) ∧
      Serves w.numEdges w.GivesEdge fun e f => e.Names directed f := by
  have hg : w.base.Consistent := hw ▸ (Consistent.empty directed).run cs
  have hd : w.base.directed = directed := hw ▸ directed_run _ cs
  rw [View.numVertices_eq, View.numEdges_eq]
  constructor
  · refine .of_slots (fun v hv => hg.lt_of_gives hv) ?_
    intro u v _ _
    exact Vertex.eq_iff.symm
  · have hgiven (e : Edge) (he : w.GivesEdge e) : ∃ e₀ ∈ w.base.edges, e.Names directed e₀ :=
      hd ▸ hg.exists_names he
    refine .of_slots ?_ ?_
    · intro e he
      obtain ⟨e₀, he₀, hnames⟩ := hgiven e he
      have hlt := lt_of_mem_edges he₀
      rwa [← hnames.index_eq] at hlt
    · intro e f he hf
      obtain ⟨e₀, he₀, hne⟩ := hgiven e he
      obtain ⟨f₀, hf₀, hnf⟩ := hgiven f hf
      constructor
      · intro h
        replace h : e₀.index = f₀.index := hne.index_eq.symm.trans (Eq.trans h hnf.index_eq)
        obtain rfl := eq_of_index_eq he₀ hf₀ h
        exact hne.of_both hnf
      · exact Edge.Names.index_eq

/-- An edge is put from one side and read from the other one, at a vertex that is hidden as at one that is shown. -/
theorem slots_serve_hidden :
    let g := (empty false : Multigraph Unit Unit).run
      [.addVertex (), .addVertex (), .addVertex (), .addEdge ⟨0⟩ ⟨1⟩ (), .addEdge ⟨1⟩ ⟨2⟩ ()]
    let w := ((View.whole g).filtered (.induced (.ofPred fun v => v.index < 2))).handle
    let puts : List (Edge × Nat) := [(⟨0, ⟨0⟩, ⟨1⟩⟩, 5), (⟨0, ⟨1⟩, ⟨0⟩⟩, 7)]
    (∃ t, w.incidence ⟨1⟩ .outgoing = .ok t ∧ t.Yields ⟨0, ⟨1⟩, ⟨0⟩⟩) ∧
      w.edge? ⟨1⟩ ⟨2⟩ = .ok (some ⟨1, ⟨1⟩, ⟨2⟩⟩) ∧
      (∃ m, (IndexMap.replicate w.numEdges 9).putAll puts = .ok m ∧
        m.get ⟨0, ⟨0⟩, ⟨1⟩⟩ = .ok 7 ∧ m.get ⟨1, ⟨1⟩, ⟨2⟩⟩ = .ok 9) ∧
      ∃ m : IndexMap Vertex Nat, (IndexMap.replicate w.numVertices 0).putAll [(⟨2⟩, 3)] = .ok m ∧
        m.get ⟨2⟩ = .ok 3 ∧ m.get ⟨1⟩ = .ok 0 := by
  intro g w puts
  obtain ⟨hvertices, hedges⟩ := slots_serve (V := Unit) (E := Unit) false
    [.addVertex (), .addVertex (), .addVertex (), .addEdge ⟨0⟩ ⟨1⟩ (), .addEdge ⟨1⟩ ⟨2⟩ ()] w rfl
  obtain ⟨t, ht, hnear⟩ : ∃ t, w.incidence ⟨1⟩ .outgoing = .ok t ∧ t.Yields ⟨0, ⟨1⟩, ⟨0⟩⟩ := ⟨_, rfl, .back rfl⟩
  have hback : w.GivesEdge ⟨0, ⟨1⟩, ⟨0⟩⟩ := .incident ht hnear.mem_items
  have hlisted : w.GivesEdge ⟨0, ⟨0⟩, ⟨1⟩⟩ := .listed (Traversal.Yields.front rfl).mem_items
  have hfound : w.GivesEdge ⟨1, ⟨1⟩, ⟨2⟩⟩ := .found (u := ⟨1⟩) (v := ⟨2⟩) rfl
  have hfar : w.GivesVertex ⟨2⟩ := .target hfound
  refine ⟨⟨t, ht, hnear⟩, rfl, ?_, ?_⟩
  · obtain ⟨m, hm, hget⟩ := hedges.run Nat 9 puts (by simp [puts, hlisted, hback])
    exact ⟨m, hm, hget _ hlisted, hget _ hfound⟩
  · obtain ⟨m, hm, hget⟩ := hvertices.run Nat 0 [(⟨2⟩, 3)] (by simpa using hfar)
    exact ⟨m, hm, hget _ hfar, hget _ (.source hfound)⟩

end Multigraph

end GraphViews.Graph
