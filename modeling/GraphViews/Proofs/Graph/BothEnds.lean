import GraphViews.Graph.View
import GraphViews.Proofs.Graph.Changes
import GraphViews.Proofs.Graph.Verdicts

/-!
# Traversals that are used from both ends

A vertex traversal of a view is a stack of searches over one range of vertices, each of which pulls from the one below
until something passes its own test. Seen from outside it is one list that loses an item at the end that is asked,
whatever the order of the calls and wherever the two ends meet.
-/

namespace GraphViews.Graph

variable {V E α σ τ : Type}

/-- The end of a traversal that a call is made at. -/
inductive Side where
  | front | back
  deriving DecidableEq

namespace Side

def next? : Side → List α → Option α
  | front, xs => xs.head?
  | back, xs => xs.getLast?

def rest : Side → List α → List α
  | front, xs => xs.tail
  | back, xs => xs.dropLast

private theorem rest_nil (d : Side) : d.rest ([] : List α) = [] := by
  cases d <;> rfl

private theorem eq_nil_of_next? {d : Side} {xs : List α} (h : d.next? xs = none) : xs = [] := by
  cases d with
  | front => exact List.head?_eq_none_iff.mp h
  | back => exact List.getLast?_eq_none_iff.mp h

end Side

/-- Calls one after the other, each with its answer, and what they leave. -/
def answers (next : Side → σ → Except Fault (Option α × σ)) : List Side → σ →
    Except Fault (List (Side × Option α) × σ)
  | [], s => .ok ([], s)
  | d :: ds, s => do
    let (x, s) ← next d s
    let (log, s) ← answers next ds s
    return ((d, x) :: log, s)

/-- What was handed out at one end, in the order of the calls. -/
def taken (d : Side) (log : List (Side × Option α)) : List α :=
  log.filterMap fun call => if call.1 = d then call.2 else none

theorem answers_cons {next : Side → σ → Except Fault (Option α × σ)} {d : Side} {ds : List Side} {x : Option α}
    {log : List (Side × Option α)} {s t u : σ} (h : next d s = .ok (x, t)) (hs : answers next ds t = .ok (log, u)) :
    answers next (d :: ds) s = .ok ((d, x) :: log, u) := by
  simp only [answers, h, Fallible.ok_bind, hs]
  rfl

theorem answers_map {next : Side → σ → Except Fault (Option α × σ)}
    {next' : Side → τ → Except Fault (Option α × τ)} {f : σ → τ}
    (h : ∀ d s, next' d (f s) = (next d s).map (Prod.map id f)) (ds : List Side) (s : σ) :
    answers next' ds (f s) = (answers next ds s).map (Prod.map id f) := by
  induction ds generalizing s with
  | nil => rfl
  | cons d ds ih =>
    rw [answers, answers, h]
    rcases next d s with _ | ⟨x, t⟩
    · rfl
    · change (answers next' ds (f t) >>= _) = Except.map _ (answers next ds t >>= _)
      rw [ih]
      cases answers next ds t <;> rfl

/-- The items that were taken at the two ends and those between them are the items that there were: one call takes the
item at its end. -/
theorem taken_append {d : Side} {xs rest : List α} {log : List (Side × Option α)}
    (h : taken .front log ++ rest ++ (taken .back log).reverse = d.rest xs) :
    taken .front ((d, d.next? xs) :: log) ++ rest ++ (taken .back ((d, d.next? xs) :: log)).reverse = xs := by
  cases hx : d.next? xs with
  | none =>
    cases d.eq_nil_of_next? hx
    simpa [taken, Side.rest_nil] using h
  | some x =>
    cases d with
    | front =>
      obtain ⟨ys, rfl⟩ := List.head?_eq_some_iff.mp hx
      simpa [taken, Side.rest] using h
    | back =>
      obtain ⟨ys, rfl⟩ := List.getLast?_eq_some_iff.mp hx
      have h : taken .front log ++ rest ++ (taken .back log).reverse = ys := by simpa [Side.rest] using h
      simpa [taken] using congrArg (· ++ [x]) h

/-- Searches a range from its front for what passes the test. What is passed on the way is dropped. -/
def searchFront (p : Test α) : List α → Except Fault (Option α × List α)
  | [] => .ok (none, [])
  | x :: xs => do
    if ← p x then return (some x, xs) else searchFront p xs

def search (p : Test α) : Side → List α → Except Fault (Option α × List α)
  | .front, xs => searchFront p xs
  | .back, xs => (searchFront p xs.reverse).map (Prod.map id List.reverse)

/-- Pulls from what lies below until something passes the test, at most `n` times. -/
def seek (next : σ → Except Fault (Option α × σ)) (p : Test α) : Nat → σ → Except Fault (Option α × σ)
  | 0, s => .ok (none, s)
  | n + 1, s => do
    match ← next s with
    | (none, s) => return (none, s)
    | (some x, s) => if ← p x then return (some x, s) else seek next p n s

/-- Searches over one range, each on top of the next. There are no more items to pull than the range is long. -/
def nested : List (Test α) → Side → List α → Except Fault (Option α × List α)
  | [], d, xs => .ok (d.next? xs, d.rest xs)
  | p :: ps, d, xs => seek (nested ps d) p (xs.length + 1) xs

def passes : List (Test α) → Test α
  | [] => .always
  | p :: ps => (passes ps).both p

theorem passes_ofPred (qs : List (α → Bool)) :
    passes (qs.map Test.ofPred) = .ofPred fun x => qs.all fun q => q x := by
  induction qs with
  | nil => rfl
  | cons q qs ih =>
    rw [List.map_cons, passes, ih, Test.both_ofPred]
    simp only [List.all_cons, Bool.and_comm]

private theorem searchFront_none {p : Test α} {xs ys : List α} (h : searchFront p xs = .ok (none, ys)) : ys = [] := by
  induction xs with
  | nil =>
    cases h
    rfl
  | cons x xs ih =>
    obtain ⟨passed, -, h⟩ := Fallible.bind_eq_ok.mp h
    cases passed with
    | true => cases h
    | false => exact ih h

private theorem seek_searchFront (p q : Test α) {n : Nat} {xs : List α} (h : xs.length < n) :
    seek (searchFront p) q n xs = searchFront (p.both q) xs := by
  induction xs generalizing n with
  | nil =>
    cases n with
    | zero => cases h
    | succ n => rfl
  | cons x xs ih =>
    cases n with
    | zero => cases h
    | succ n =>
      have hlt : xs.length < n := Nat.lt_of_succ_lt_succ h
      rw [seek, searchFront, searchFront, Test.both]
      cases hp : p x with
      | error f => rfl
      | ok passed =>
        cases passed with
        | false => exact ih (Nat.lt_succ_of_lt hlt)
        | true =>
          cases hq : q x with
          | error f => simp [hq]
          | ok passed =>
            cases passed with
            | false => simpa [hq] using ih hlt
            | true => simp [hq]

private theorem seek_map {next : σ → Except Fault (Option α × σ)} {next' : τ → Except Fault (Option α × τ)} {f : σ → τ}
    (h : ∀ s, next' (f s) = (next s).map (Prod.map id f)) (p : Test α) (n : Nat) (s : σ) :
    seek next' p n (f s) = (seek next p n s).map (Prod.map id f) := by
  induction n generalizing s with
  | zero => rfl
  | succ n ih =>
    rw [seek, seek, h]
    rcases next s with _ | ⟨_ | x, t⟩
    · rfl
    · rfl
    · change (p x >>= _) = Except.map _ (p x >>= _)
      rcases p x with _ | _ | _
      · rfl
      · exact ih t
      · rfl

private theorem seek_search (p q : Test α) (d : Side) {n : Nat} {xs : List α} (h : xs.length < n) :
    seek (search p d) q n xs = search (p.both q) d xs := by
  cases d with
  | front => exact seek_searchFront p q h
  | back =>
    -- From the back it is the search from the front of the range turned around.
    have hturn (ys : List α) : search p .back ys.reverse = (searchFront p ys).map (Prod.map id List.reverse) := by
      rw [search, List.reverse_reverse]
    have hseek := seek_map hturn q n xs.reverse
    rw [List.reverse_reverse] at hseek
    rw [hseek, seek_searchFront p q (by rwa [List.length_reverse]), search]

private theorem search_always (d : Side) (xs : List α) : search .always d xs = .ok (d.next? xs, d.rest xs) := by
  cases d with
  | front => cases xs <;> rfl
  | back =>
    rw [search]
    cases hr : xs.reverse with
    | nil =>
      cases List.reverse_eq_nil_iff.mp hr
      rfl
    | cons x ys =>
      rw [List.reverse_eq_cons_iff.mp hr]
      simp [searchFront, Test.always, Side.next?, Side.rest, Except.map]

/-- However many searches lie over a range, they find what a single one finds that makes all their tests. -/
theorem nested_eq_search (ps : List (Test α)) (d : Side) : nested ps d = search (passes ps) d := by
  induction ps with
  | nil =>
    funext xs
    exact (search_always d xs).symm
  | cons p ps ih =>
    funext xs
    rw [nested, ih, seek_search _ _ _ (Nat.lt_succ_self _), passes]

theorem search_ofPred (p : α → Bool) (d : Side) (xs : List α) :
    ∃ ys, search (.ofPred p) d xs = .ok (d.next? (xs.filter p), ys) ∧ ys.filter p = d.rest (xs.filter p) := by
  have hfront (xs : List α) : ∃ ys, searchFront (.ofPred p) xs = .ok ((xs.filter p).head?, ys) ∧
      ys.filter p = (xs.filter p).tail := by
    induction xs with
    | nil => exact ⟨[], rfl, rfl⟩
    | cons x xs ih =>
      cases hp : p x with
      | true => exact ⟨xs, by simp [searchFront, Test.ofPred, hp], by simp [hp]⟩
      | false => simpa [searchFront, Test.ofPred, hp] using ih
  cases d with
  | front => exact hfront xs
  | back =>
    obtain ⟨ys, hys, hrest⟩ := hfront xs.reverse
    refine ⟨ys.reverse, ?_, ?_⟩
    · rw [search, hys, List.filter_reverse, List.head?_reverse]
      rfl
    · rw [List.filter_reverse, hrest, List.filter_reverse, List.tail_reverse, List.reverse_reverse]
      rfl

/-- A call that finds nothing has nothing behind it, and what was found and what is left is all that there was. -/
theorem answers_search (p : α → Bool) (ds : List Side) (xs : List α) :
    ∃ log ys, answers (search (.ofPred p)) ds xs = .ok (log, ys) ∧ log.map Prod.fst = ds ∧
      taken .front log ++ ys.filter p ++ (taken .back log).reverse = xs.filter p ∧
      ∀ d, (d, none) ∈ log → ys.filter p = [] := by
  induction ds generalizing xs with
  | nil => exact ⟨[], xs, rfl, rfl, by simp [taken], nofun⟩
  | cons d ds ih =>
    obtain ⟨zs, hzs, hrest⟩ := search_ofPred p d xs
    obtain ⟨log, ys, hlog, hcalls, hall, hnone⟩ := ih zs
    refine ⟨_, ys, answers_cons hzs hlog, congrArg (d :: ·) hcalls, taken_append (hall.trans hrest), ?_⟩
    intro d' hmem
    rcases List.mem_cons.mp hmem with heq | hmem
    · have hempty := d.eq_nil_of_next? (congrArg Prod.snd heq).symm
      rw [hrest, hempty, Side.rest_nil] at hall
      simp only [List.append_eq_nil_iff] at hall
      exact hall.1.2
    · exact hnone d' hmem

private theorem answers_search_of_nil {p : α → Bool} {xs : List α} (h : xs.filter p = []) (ds : List Side) :
    ∃ ys, answers (search (.ofPred p)) ds xs = .ok (ds.map (·, none), ys) := by
  induction ds generalizing xs with
  | nil => exact ⟨xs, rfl⟩
  | cons d ds ih =>
    obtain ⟨zs, hzs, hrest⟩ := search_ofPred p d xs
    rw [h, Side.rest_nil] at hrest
    obtain ⟨ys, hys⟩ := ih hrest
    have hnone : d.next? (xs.filter p) = none := by
      rw [h]
      cases d <;> rfl
    rw [hnone] at hzs
    exact ⟨ys, answers_cons hzs hys⟩

namespace Traversal

def pop (d : Side) (t : Traversal α) : Except Fault (Option α × Traversal α) :=
  match d with
  | .front => t.popFront
  | .back => t.popBack

/-- The traversal of a range that makes one test of each item. -/
def judged (p : Test α) (exact : Bool) (xs : List α) : Traversal α := ⟨xs.map fun x => ⟨x, p x⟩, exact⟩

variable (p : Test α) (xs : List α) {exact : Bool}

private theorem firstKept_map : Candidate.firstKept (xs.map fun x => ⟨x, p x⟩) =
    (searchFront p xs).map fun found => found.1.map (·, found.2.map fun x => ⟨x, p x⟩) := by
  induction xs with
  | nil => rfl
  | cons x xs ih =>
    rw [List.map_cons, Candidate.firstKept, searchFront]
    rcases p x with _ | _ | _
    · rfl
    · exact ih
    · rfl

private theorem pop_judged (exact : Bool) (d : Side) :
    (judged p exact xs).pop d = (search p d xs).map (Prod.map id (judged p exact)) := by
  cases d with
  | front =>
    rw [pop, popFront, judged, firstKept_map, search]
    rcases hs : searchFront p xs with _ | ⟨_ | x, ys⟩
    · rfl
    · cases searchFront_none hs
      rfl
    · rfl
  | back =>
    rw [pop, popBack, judged, ← List.map_reverse, firstKept_map, search]
    rcases hs : searchFront p xs.reverse with _ | ⟨_ | x, ys⟩
    · rfl
    · cases searchFront_none hs
      rfl
    · simp [Except.map, judged]

private theorem answers_judged (exact : Bool) (ds : List Side) : answers pop ds (judged p exact xs) =
    (answers (search p) ds xs).map (Prod.map id (judged p exact)) :=
  answers_map (fun d ys => pop_judged p ys exact d) ds xs

theorem toList_judged (exact : Bool) (q : α → Bool) : (judged (.ofPred q) exact xs).toList = .ok (xs.filter q) := by
  have h := toList_of_pending (t := judged (.ofPred q) exact xs) (i := id) rfl
  rwa [List.map_id] at h

theorem bounds_judged {q : α → Bool} (h : exact = true → ∀ x, q x = true) :
    (judged (.ofPred q) exact xs).bounds.1 ≤ (xs.filter q).length ∧
      (xs.filter q).length ≤ (judged (.ofPred q) exact xs).bounds.2 := by
  simp only [bounds, judged, List.length_map]
  refine ⟨?_, List.length_filter_le q xs⟩
  split
  case isTrue he =>
    have hall : xs.filter q = xs := List.filter_eq_self.mpr fun x _ => h he x
    exact Nat.le_of_eq (congrArg List.length hall).symm
  case isFalse => exact Nat.zero_le _

private theorem advance_judged (exact : Bool) (q : α → Bool) (n : Nat) :
    ∃ ys, (judged (.ofPred q) exact xs).advance n = .ok (judged (.ofPred q) exact ys) ∧
      ys.filter q = (xs.filter q).drop n := by
  induction n generalizing xs with
  | zero => exact ⟨xs, rfl, rfl⟩
  | succ n ih =>
    obtain ⟨zs, hzs, hrest⟩ := search_ofPred q .front xs
    have hpop := pop_judged (.ofPred q) xs exact .front
    rw [hzs, pop] at hpop
    obtain ⟨ys, hys, hdrop⟩ := ih zs
    refine ⟨ys, ?_, ?_⟩
    · rw [advance, hpop]
      exact hys
    · rw [hdrop, hrest, Side.rest, List.drop_tail]

theorem answers_judged_ofPred {q : α → Bool} (h : exact = true → ∀ x, q x = true) (ds : List Side) :
    ∃ log t rest, answers pop ds (judged (.ofPred q) exact xs) = .ok (log, t) ∧ log.map Prod.fst = ds ∧
      t.toList = .ok rest ∧ taken .front log ++ rest ++ (taken .back log).reverse = xs.filter q ∧
      (∀ d, ∃ t', t.pop d = .ok (d.next? rest, t') ∧ t'.toList = .ok (d.rest rest)) ∧
      (∀ d, (d, none) ∈ log → rest = []) ∧
      (rest = [] → ∀ more, ∃ t', answers pop more t = .ok (more.map (·, none), t')) ∧
      t.bounds.1 ≤ rest.length ∧ rest.length ≤ t.bounds.2 ∧
      (answers (search (.ofPred q)) ds xs).map Prod.fst = .ok log := by
  obtain ⟨log, ys, hlog, hcalls, hall, hnone⟩ := answers_search q ds xs
  obtain ⟨hlow, hhigh⟩ := bounds_judged ys h
  refine ⟨log, judged (.ofPred q) exact ys, ys.filter q, ?_, hcalls, toList_judged ys exact q, hall, ?_, hnone, ?_,
    hlow, hhigh, ?_⟩
  · rw [answers_judged, hlog]
    rfl
  · intro d
    obtain ⟨zs, hzs, hrest⟩ := search_ofPred q d ys
    refine ⟨judged (.ofPred q) exact zs, ?_, ?_⟩
    · rw [pop_judged, hzs]
      rfl
    · rw [toList_judged, hrest]
  · intro hempty more
    obtain ⟨zs, hzs⟩ := answers_search_of_nil hempty more
    refine ⟨judged (.ofPred q) exact zs, ?_⟩
    rw [answers_judged, hzs]
    rfl
  · rw [hlog]
    rfl

end Traversal

namespace View

def vertexTests : View V E → List (Test Vertex)
  | whole _ => []
  | handle w => w.vertexTests
  | filtered w l => l.vertex :: w.vertexTests

/-- What a view traverses are the vertices of the graph, put to the tests of all layers. -/
theorem vertices_eq_judged (w : View V E) :
    w.vertices = .judged (passes w.vertexTests) w.vertexTests.isEmpty w.base.vertices := by
  induction w with
  | whole g => rfl
  | handle w ih => exact ih
  | filtered w l ih =>
    rw [vertices, ih, vertexTests, base, Traversal.filter, Traversal.judged, Traversal.judged, List.map_map]
    rfl

private theorem vertices_eq_ofPred {w : View V E} {qs : List (Vertex → Bool)}
    (hq : w.vertexTests = qs.map Test.ofPred) : w.vertices =
      .judged (.ofPred fun v => qs.all fun q => q v) (qs.map Test.ofPred).isEmpty w.base.vertices := by
  rw [vertices_eq_judged, hq, passes_ofPred]

private theorem all_of_isEmpty (qs : List (Vertex → Bool)) (h : (qs.map Test.ofPred).isEmpty = true) (v : Vertex) :
    (qs.all fun q => q v) = true := by
  cases qs with
  | nil => rfl
  | cons q qs => cases h

/-- After some steps from the front, what is left to traverse are the vertices that follow the first ones shown. -/
theorem advance_vertices (w : View V E) (qs : List (Vertex → Bool)) (hq : w.vertexTests = qs.map Test.ofPred)
    (n : Nat) :
    let left := (w.base.vertices.filter fun v => qs.all fun q => q v).drop n
    ∃ t, w.vertices.advance n = .ok t ∧ t.toList = .ok left ∧ t.bounds.1 ≤ left.length ∧ left.length ≤ t.bounds.2 := by
  intro left
  obtain ⟨ys, hys, hleft⟩ := Traversal.advance_judged w.base.vertices (qs.map Test.ofPred).isEmpty
    (fun v => qs.all fun q => q v) n
  obtain ⟨hlow, hhigh⟩ := Traversal.bounds_judged ys (all_of_isEmpty qs)
  have hlist := Traversal.toList_judged ys (qs.map Test.ofPred).isEmpty fun v => qs.all fun q => q v
  rw [hleft] at hlow hhigh hlist
  rw [vertices_eq_ofPred hq]
  exact ⟨_, hys, hlist, hlow, hhigh⟩

/-- Whatever calls are made at the two ends, the vertices they take, and those that are left between them, are the
vertices that all predicates keep. A next call takes the vertex at its end of those that are left; after a call that
takes none there are none left, and no call takes any; the bounds hold between all calls. The searches of the layers,
one on top of the other over the vertices of the graph, answer all calls the same. -/
theorem vertices_both_ends (w : View V E) (qs : List (Vertex → Bool)) (hq : w.vertexTests = qs.map Test.ofPred)
    (calls : List Side) :
    let shown := w.base.vertices.filter fun v => qs.all fun q => q v
    w.vertices.toList = .ok shown ∧ ∃ log t rest,
      answers Traversal.pop calls w.vertices = .ok (log, t) ∧ log.map Prod.fst = calls ∧
      t.toList = .ok rest ∧ taken .front log ++ rest ++ (taken .back log).reverse = shown ∧
      (∀ d, ∃ t', t.pop d = .ok (d.next? rest, t') ∧ t'.toList = .ok (d.rest rest)) ∧
      (∀ d, (d, none) ∈ log → rest = []) ∧
      (rest = [] → ∀ more, ∃ t', answers Traversal.pop more t = .ok (more.map (·, none), t')) ∧
      t.bounds.1 ≤ rest.length ∧ rest.length ≤ t.bounds.2 ∧
      (answers (nested w.vertexTests) calls w.base.vertices).map Prod.fst = .ok log := by
  intro shown
  rw [vertices_eq_ofPred hq, funext (nested_eq_search w.vertexTests), hq, passes_ofPred]
  exact ⟨Traversal.toList_judged _ _ _, Traversal.answers_judged_ofPred _ (all_of_isEmpty qs) calls⟩

/-- Two layers and a handle over six vertices; the calls meet in the middle, and two more find nothing. -/
theorem vertices_both_ends_meeting :
    let g := (Multigraph.empty true : Multigraph Unit Unit).after (List.replicate 6 (.addVertex ()))
    let w := (((whole g).filtered (.induced (.ofPred fun v => v.index ≠ 2))).handle).filtered
      (.induced (.ofPred fun v => 0 < v.index))
    let calls : List Side := [.back, .front, .back, .front, .front, .back]
    (∃ t, answers Traversal.pop calls w.vertices = .ok
      ([(.back, some ⟨5⟩), (.front, some ⟨1⟩), (.back, some ⟨4⟩), (.front, some ⟨3⟩), (.front, none), (.back, none)],
        t) ∧
      t.toList = .ok []) ∧
    w.vertices.toList = .ok [⟨1⟩, ⟨3⟩, ⟨4⟩, ⟨5⟩] := by
  intro g w calls
  obtain ⟨hlist, log, t, rest, hrun, -, ht, -, -, hnone, -⟩ :=
    vertices_both_ends w [fun v => 0 < v.index, fun v => v.index ≠ 2] rfl calls
  have hlog := (congrArg (Except.map Prod.fst) hrun).symm.trans rfl
  cases hlog
  refine ⟨⟨t, hrun, ?_⟩, hlist⟩
  rwa [hnone .front (by simp)] at ht

end View

end GraphViews.Graph
