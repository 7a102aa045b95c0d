import GraphViews.Proofs.Graph.Slots
import Mathlib.Data.Finset.Card
import Mathlib.Data.Finset.Dedup

/-!
# One map from indices to values

Values are hashed, ordered, or stored by position, and a descriptor is a key in each of these ways. It counts as a key
only by its index, so that all of them are the same map from indices to values, as far as one that is stored by
position reaches. Beyond that a call is refused, and it is as if it had not been made.
-/

namespace GraphViews.Graph

open Lasting

variable {κ β μ : Type}

inductive Access (κ β : Type) where
  | put (k : κ) (x : β)
  | get (k : κ)
  | size

inductive Answer (β : Type) where
  | done
  | value (x : β)
  | size (n : Nat)

namespace Access

def key? : Access κ β → Option κ
  | put k _ | get k => some k
  | size => none

/-- The puts among some calls. -/
def puts (as : List (Access κ β)) : List (κ × β) :=
  as.filterMap fun
    | put k x => some (k, x)
    | _ => none

private theorem puts_append (as bs : List (Access κ β)) : puts (as ++ bs) = puts as ++ puts bs :=
  List.filterMap_append

section Calls

variable [PropertyMap μ κ β]

/-- The steps of a call. A put changes the map only after it has gone through. -/
def inPlace : Access κ β → Lasting Fault μ (Answer β)
  | put k x => do
    let m ← ask fun m => PropertyMap.put m k x
    change fun _ => m
    return .done
  | get k => .value <$> ask fun m => PropertyMap.get m k
  | size => .size <$> ask fun m => .ok (PropertyMap.size m)

def perform (m : μ) (a : Access κ β) : Except Fault (Answer β) × μ := a.inPlace.on m

/-- The answers to calls, each of which is made on the map that the calls before it have left. -/
def answers (m : μ) : List (Access κ β) → List (Except Fault (Answer β))
  | [] => []
  | a :: as => (perform m a).1 :: answers (perform m a).2 as

/-- The map after calls, some of which may have been refused. -/
def after (m : μ) (as : List (Access κ β)) : μ := as.foldl (fun m a => (perform m a).2) m

private theorem perform_put {m h : μ} {k : κ} {x : β} (hp : PropertyMap.put m k x = .ok h) :
    perform m (put k x) = (.ok .done, h) := by
  rw [perform, inPlace, on_bind, on_ask, hp]
  rfl

private theorem perform_put_error {m : μ} {k : κ} {x : β} {f : Fault} (hp : PropertyMap.put m k x = .error f) :
    perform m (put k x) = (.error f, m) := by
  rw [perform, inPlace, on_bind, on_ask, hp]

private theorem perform_get (m : μ) (k : κ) :
    perform m (get k) = ((PropertyMap.get m k).map .value, m) := by
  rw [perform, inPlace, on_map, on_ask]

private theorem perform_size (m : μ) : perform m (size : Access κ β) = (.ok (.size (PropertyMap.size m)), m) := by
  rw [perform, inPlace, on_map, on_ask]
  rfl

theorem answers_append (m : μ) (as bs : List (Access κ β)) :
    answers m (as ++ bs) = answers m as ++ answers (after m as) bs := by
  induction as generalizing m with
  | nil => rfl
  | cons a as ih => exact congrArg _ (ih (perform m a).2)

theorem length_answers (m : μ) (as : List (Access κ β)) : (answers m as).length = as.length := by
  induction as generalizing m with
  | nil => rfl
  | cons a as ih => exact congrArg (· + 1) (ih (perform m a).2)

/-- What every call answers and keeps, a run answers and keeps. -/
theorem answers_eq {R : μ → List (κ × β) → Prop} {f : List (κ × β) → Access κ β → Except Fault (Answer β)}
    (hstep : ∀ m ps a, R m ps → (perform m a).1 = f ps a ∧ R (perform m a).2 (ps ++ puts [a])) {m : μ}
    (hm : R m []) (as : List (Access κ β)) :
    answers m as = (as.mapIdx fun i a => f (puts (as.take i)) a) ∧ R (after m as) (puts as) := by
  -- A call is answered by all puts before it, so that the induction on a run has to carry what came before the run.
  suffices hall : ∀ as before m, R m (puts before) →
      answers m as = (as.mapIdx fun i a => f (puts (before ++ as.take i)) a) ∧
        R (after m as) (puts (before ++ as)) from hall as [] m hm
  intro as
  induction as with
  | nil =>
    intro before m hm
    rw [List.append_nil]
    exact ⟨rfl, hm⟩
  | cons a as ih =>
    intro before m hm
    obtain ⟨hanswer, hkept⟩ := hstep m (puts before) a hm
    rw [← puts_append] at hkept
    obtain ⟨hanswers, hafter⟩ := ih (before ++ [a]) (perform m a).2 hkept
    constructor
    · rw [answers, List.mapIdx_cons, hanswer, hanswers]
      simp
    · simpa [after] using hafter

end Calls

variable [Indexed κ]

/-- Two descriptors have one index, whatever else they say. -/
def SameIndex (k l : κ) : Prop := Indexed.index k = Indexed.index l

instance : DecidableRel (SameIndex (κ := κ)) := fun k l =>
  inferInstanceAs (Decidable (Indexed.index k = Indexed.index l))

def indices (ps : List (κ × β)) : Finset Nat := (ps.map fun p => Indexed.index p.1).toFinset

section Abstract

variable [Inhabited β]

/-- What is answered to a call after some puts: a get has the value that was put last at its index, or the default, and
the size is the number of indices that something was put at. -/
def answer (ps : List (κ × β)) : Access κ β → Answer β
  | put _ _ => .done
  | get k => .value (lastPut SameIndex default ps k)
  | size => .size (indices ps).card

/-- What is answered where there are values at the indices below `n`, and nowhere else. -/
def answerBelow (n : Nat) (ps : List (κ × β)) (a : Access κ β) : Except Fault (Answer β) :=
  match a with
  | size => .ok (.size n)
  | put k _ | get k =>
    if Indexed.index k < n then .ok (a.answer ps) else .error (.outOfBounds n (Indexed.index k))

end Abstract

def Beyond (n : Nat) (a : Access κ β) : Prop := ∃ k, a.key? = some k ∧ n ≤ Indexed.index k

end Access

private theorem lastPut_concat {same : κ → κ → Prop} [DecidableRel same] (fill : β) (ps : List (κ × β)) (k l : κ)
    (x : β) :
    lastPut same fill (ps ++ [(k, x)]) l = if same k l then x else lastPut same fill ps l := by
  rw [lastPut, List.foldl_append]
  rfl

/-- Keys are equal where they are hashed, and where they are ordered, as their indices are. -/
class KeyedByIndex (κ : Type) [Indexed κ] [BEq κ] [Ord κ] : Prop where
  beq_iff : ∀ {k l : κ}, (k == l) = true ↔ Indexed.index k = Indexed.index l
  compare_iff : ∀ {k l : κ}, compare k l = .eq ↔ Indexed.index k = Indexed.index l

instance : KeyedByIndex Vertex where
  beq_iff := beq_iff_eq.trans Vertex.eq_iff
  compare_iff := Nat.compare_eq_eq

instance : KeyedByIndex Edge where
  beq_iff := Edge.beq_iff
  compare_iff := Nat.compare_eq_eq

namespace Access

section Keyed

variable [Indexed κ] [Inhabited β]

/-- What a map is once something has been put into it: which values are read, which keys it has, and how many. -/
structure PutsByIndex [PropertyMap μ κ β] (read : μ → κ → β) (has : μ → κ → Prop) : Prop where
  get_eq : ∀ m k, PropertyMap.get m k = .ok (read m k)
  put_eq : ∀ m k x, ∃ h, PropertyMap.put m k x = .ok h ∧
    (∀ l, read h l = if Indexed.index k = Indexed.index l then x else read m l) ∧
    (∀ l, has h l ↔ Indexed.index k = Indexed.index l ∨ has m l) ∧
    (has m k ∧ PropertyMap.size h = PropertyMap.size m ∨
      ¬has m k ∧ PropertyMap.size h = PropertyMap.size m + 1)

namespace PutsByIndex

variable [PropertyMap μ κ β] {read : μ → κ → β} {has : μ → κ → Prop}

/-- The map is what some puts have made of an empty one. -/
structure Represents (read : μ → κ → β) (has : μ → κ → Prop) (m : μ) (ps : List (κ × β)) : Prop where
  read_eq : ∀ k, read m k = lastPut SameIndex default ps k
  has_iff : ∀ k, has m k ↔ Indexed.index k ∈ indices ps
  size_eq : PropertyMap.size m = (indices ps).card

theorem put (hlaw : PutsByIndex read has) {m : μ} {ps : List (κ × β)} (h : Represents read has m ps) (k : κ) (x : β) :
    ∃ m', PropertyMap.put m k x = .ok m' ∧ Represents read has m' (ps ++ [(k, x)]) := by
  obtain ⟨m', hput, hread, hhas, hsize⟩ := hlaw.put_eq m k x
  have hindices : indices (ps ++ [(k, x)]) = insert (Indexed.index k) (indices ps) := by
    simp [indices]
  refine ⟨m', hput, ?_, ?_, ?_⟩
  · intro l
    rw [hread, lastPut_concat, h.read_eq]
    rfl
  · intro l
    rw [hhas, hindices, Finset.mem_insert, h.has_iff, eq_comm]
  · rw [hindices]
    rcases hsize with ⟨hk, hsize⟩ | ⟨hk, hsize⟩
    · rw [Finset.insert_eq_of_mem ((h.has_iff k).mp hk), hsize, h.size_eq]
    · rw [Finset.card_insert_of_notMem (mt (h.has_iff k).mpr hk), hsize, h.size_eq]

theorem answers_eq (hlaw : PutsByIndex read has) {m : μ} (hread : ∀ k, read m k = default) (hhas : ∀ k, ¬has m k)
    (hsize : PropertyMap.size m = 0) (as : List (Access κ β)) :
    answers m as = as.mapIdx fun i a => .ok (a.answer (puts (as.take i))) := by
  have hm : Represents read has m [] := ⟨hread, fun k => by simp [indices, hhas k], by simp [indices, hsize]⟩
  refine (Access.answers_eq (f := fun ps a => .ok (a.answer ps)) ?_ hm as).1
  intro m ps a h
  cases a with
  | put k x =>
    obtain ⟨m', hput, h'⟩ := hlaw.put h k x
    rw [perform_put hput]
    exact ⟨rfl, h'⟩
  | get k =>
    rw [perform_get, hlaw.get_eq, h.read_eq]
    exact ⟨rfl, by simpa [puts] using h⟩
  | size =>
    rw [perform_size, h.size_eq]
    exact ⟨rfl, by simpa [puts] using h⟩

end PutsByIndex

variable [BEq κ] [Ord κ] [KeyedByIndex κ]

theorem putsByIndex_hashMap [Hashable κ] [EquivBEq κ] [LawfulHashable κ] :
    PutsByIndex (fun (m : Std.HashMap κ β) k => m.getD k default) fun m k => k ∈ m where
  get_eq _ _ := rfl
  put_eq m k x := by
    refine ⟨m.insert k x, rfl, ?_, ?_, ?_⟩
    · intro l
      simp only [Std.HashMap.getD_insert, KeyedByIndex.beq_iff]
    · intro l
      rw [Std.HashMap.mem_insert, KeyedByIndex.beq_iff]
    · have hsize := Std.HashMap.size_insert (m := m) (k := k) (v := x)
      by_cases hk : k ∈ m
      · exact .inl ⟨hk, hsize.trans (if_pos hk)⟩
      · exact .inr ⟨hk, hsize.trans (if_neg hk)⟩

theorem putsByIndex_treeMap [Std.TransOrd κ] :
    PutsByIndex (fun (m : Std.TreeMap κ β) k => m.getD k default) fun m k => k ∈ m where
  get_eq _ _ := rfl
  put_eq m k x := by
    refine ⟨m.insert k x, rfl, ?_, ?_, ?_⟩
    · intro l
      simp only [Std.TreeMap.getD_insert, KeyedByIndex.compare_iff]
    · intro l
      rw [Std.TreeMap.mem_insert, KeyedByIndex.compare_iff]
    · have hsize := Std.TreeMap.size_insert (t := m) (k := k) (v := x)
      by_cases hk : k ∈ m
      · exact .inl ⟨hk, hsize.trans (if_pos hk)⟩
      · exact .inr ⟨hk, hsize.trans (if_neg hk)⟩

end Keyed

section Positioned

variable [Indexed κ] {m : IndexMap κ β} {n : Nat}

private theorem get_beyond {k : κ} (hm : m.values.size = n) (hk : ¬Indexed.index k < n) :
    PropertyMap.get m k = .error (.outOfBounds n (Indexed.index k)) := by
  change m.get k = _
  rw [IndexMap.get, Array.getElem?_eq_none (by omega), hm]

private theorem put_beyond {k : κ} (hm : m.values.size = n) (hk : ¬Indexed.index k < n) (x : β) :
    PropertyMap.put m k x = .error (.outOfBounds n (Indexed.index k)) := by
  rw [← hm] at hk ⊢
  exact if_neg hk

private theorem perform_beyond (hm : m.values.size = n) {a : Access κ β} (ha : a.Beyond n) :
    ∃ i, n ≤ i ∧ perform m a = (.error (.outOfBounds n i), m) := by
  obtain ⟨k, hk, hn⟩ := ha
  have hlt : ¬Indexed.index k < n := by omega
  refine ⟨Indexed.index k, hn, ?_⟩
  cases a with
  | put l x =>
    obtain rfl := Option.some.inj hk
    exact perform_put_error (put_beyond hm hlt x)
  | get l =>
    obtain rfl := Option.some.inj hk
    rw [perform_get, get_beyond hm hlt]
    rfl
  | size => cases hk

/-- A run with a call that is refused is the run without it. -/
theorem run_without (before rest : List (Access κ β)) (hm : (after m before).values.size = n) {a : Access κ β}
    (ha : a.Beyond n) :
    (answers m (before ++ a :: rest)).eraseIdx before.length = answers m (before ++ rest) ∧
      after m (before ++ a :: rest) = after m (before ++ rest) := by
  obtain ⟨i, -, hrefused⟩ := perform_beyond hm ha
  have hlength := Nat.le_of_eq (length_answers m before)
  constructor
  · rw [answers_append, answers_append, answers, hrefused, List.eraseIdx_append_of_length_le hlength, length_answers,
      Nat.sub_self, List.eraseIdx_cons_zero]
  · simp only [after, List.foldl_append, List.foldl_cons] at hrefused ⊢
    rw [hrefused]

variable [Inhabited β]

/-- The values below `n` are what some puts have left there. -/
structure Stored (n : Nat) (m : IndexMap κ β) (ps : List (κ × β)) : Prop where
  size_eq : m.values.size = n
  get_eq : ∀ k, Indexed.index k < n → m.get k = .ok (lastPut SameIndex default ps k)

namespace Stored

variable {ps : List (κ × β)}

theorem put (h : Stored n m ps) {k : κ} (hk : Indexed.index k < n) (x : β) :
    ∃ m', m.put k x = .ok m' ∧ Stored n m' (ps ++ [(k, x)]) := by
  obtain ⟨m', hput⟩ : ∃ m', m.put k x = .ok m' := ⟨_, IndexMap.put_eq_ok.mpr ⟨h.size_eq ▸ hk, rfl⟩⟩
  refine ⟨m', hput, (IndexMap.size_put hput).trans h.size_eq, ?_⟩
  intro l hl
  rw [IndexMap.get_put hput, h.get_eq l hl, lastPut_concat, apply_ite Except.ok]
  rfl

theorem refused (h : Stored n m ps) {k : κ} (hk : ¬Indexed.index k < n) (x : β) : Stored n m (ps ++ [(k, x)]) := by
  refine ⟨h.size_eq, ?_⟩
  intro l hl
  have hkl : ¬SameIndex k l := fun hkl => hk (hkl ▸ hl)
  rw [h.get_eq l hl, lastPut_concat, if_neg hkl]

theorem step (h : Stored n m ps) (a : Access κ β) :
    (perform m a).1 = answerBelow n ps a ∧ Stored n (perform m a).2 (ps ++ puts [a]) := by
  cases a with
  | put k x =>
    by_cases hk : Indexed.index k < n
    · obtain ⟨m', hput, h'⟩ := h.put hk x
      rw [perform_put hput, answerBelow, if_pos hk]
      exact ⟨rfl, h'⟩
    · rw [perform_put_error (put_beyond h.size_eq hk x), answerBelow, if_neg hk]
      exact ⟨rfl, h.refused hk x⟩
  | get k =>
    rw [perform_get]
    refine ⟨?_, by simpa [puts] using h⟩
    by_cases hk : Indexed.index k < n
    · have hget : PropertyMap.get m k = .ok (lastPut SameIndex default ps k) := h.get_eq k hk
      rw [hget, answerBelow, if_pos hk]
      rfl
    · rw [get_beyond h.size_eq hk, answerBelow, if_neg hk]
      rfl
  | size =>
    rw [perform_size]
    exact ⟨congrArg (fun n => Except.ok (Answer.size n)) h.size_eq, by simpa [puts] using h⟩

end Stored

theorem answers_indexMap (n : Nat) (as : List (Access κ β)) :
    answers (IndexMap.replicate n default : IndexMap κ β) as =
        (as.mapIdx fun i a => a.answerBelow n (puts (as.take i))) ∧
      Stored n (after (IndexMap.replicate n default) as) (puts as) :=
  answers_eq (fun _ _ a h => h.step a) ⟨Array.size_replicate, fun _ hk => IndexMap.get_replicate hk default⟩ as

end Positioned

/-- However the values for keys of one type are stored, the map is one map from indices to values. -/
structure OneMap (κ β : Type) [Indexed κ] [BEq κ] [Hashable κ] [Ord κ] [Inhabited β] : Prop where
  /-- Hashed or ordered, a map gives for each call of a run what belongs to the puts before it. -/
  keyed : ∀ as : List (Access κ β),
    answers (∅ : Std.HashMap κ β) as = (as.mapIdx fun i a => .ok (a.answer (puts (as.take i)))) ∧
    answers (∅ : Std.TreeMap κ β) as = answers (∅ : Std.HashMap κ β) as
  /-- By position the gets below the size are answered in the same way, and the size is the number of values, which
  stays. -/
  positioned : ∀ (n : Nat) (as : List (Access κ β)),
    answers (IndexMap.replicate n default : IndexMap κ β) as =
      (as.mapIdx fun i a => a.answerBelow n (puts (as.take i))) ∧
    (∀ (i : Nat) (k : κ), as[i]? = some (.get k) → Indexed.index k < n →
      (answers (IndexMap.replicate n default : IndexMap κ β) as)[i]? = (answers (∅ : Std.HashMap κ β) as)[i]?) ∧
    (after (IndexMap.replicate n default : IndexMap κ β) as).values.size = n
  /-- A call beyond the size is refused and changes nothing, and the rest of the run is as it is without that call. -/
  refused : ∀ (n : Nat) (before rest : List (Access κ β)) (a : Access κ β), a.Beyond n →
    let fresh : IndexMap κ β := .replicate n default
    (∃ i, n ≤ i ∧ perform (after fresh before) a = (.error (.outOfBounds n i), after fresh before)) ∧
    (answers fresh (before ++ a :: rest)).eraseIdx before.length = answers fresh (before ++ rest) ∧
    after fresh (before ++ a :: rest) = after fresh (before ++ rest)

theorem OneMap.of_keyedByIndex [Indexed κ] [BEq κ] [Hashable κ] [Ord κ] [KeyedByIndex κ] [EquivBEq κ]
    [LawfulHashable κ] [Std.TransOrd κ] [Inhabited β] : OneMap κ β := by
  have hhashed (as : List (Access κ β)) := putsByIndex_hashMap.answers_eq (m := (∅ : Std.HashMap κ β))
    (fun k => Std.HashMap.getD_empty) (fun k => Std.HashMap.not_mem_empty) Std.HashMap.size_empty as
  have hordered (as : List (Access κ β)) := putsByIndex_treeMap.answers_eq (m := (∅ : Std.TreeMap κ β))
    (fun k => Std.TreeMap.getD_emptyc) (fun k => Std.TreeMap.not_mem_emptyc) Std.TreeMap.size_emptyc as
  refine ⟨?_, ?_, ?_⟩
  · intro as
    exact ⟨hhashed as, (hordered as).trans (hhashed as).symm⟩
  · intro n as
    obtain ⟨hanswers, hstored⟩ := answers_indexMap n as
    refine ⟨hanswers, ?_, hstored.size_eq⟩
    intro i k hi hk
    rw [hanswers, hhashed, List.getElem?_mapIdx, List.getElem?_mapIdx, hi]
    exact congrArg some (if_pos hk)
  · intro n before rest a ha fresh
    have hsize := (answers_indexMap n before).2.size_eq
    exact ⟨perform_beyond hsize ha, run_without before rest hsize ha⟩

/-- Descriptors of vertices and of edges are keys of one map from indices to values, whether it is hashed, ordered, or
stored by position. For an edge the side from which it was reached does not count. -/
theorem maps_agree_by_index (β : Type) [Inhabited β] : OneMap Vertex β ∧ OneMap Edge β :=
  ⟨.of_keyedByIndex, .of_keyedByIndex⟩

/-- One edge from both sides, an edge that was put with other endpoints, and one that is out of bounds. -/
example :
    let as : List (Access Edge Int64) :=
      [.put ⟨0, ⟨1⟩, ⟨2⟩⟩ 5, .put ⟨0, ⟨2⟩, ⟨1⟩⟩ 7, .put ⟨4, ⟨0⟩, ⟨0⟩⟩ 9, .get ⟨0, ⟨8⟩, ⟨9⟩⟩, .get ⟨1, ⟨1⟩, ⟨2⟩⟩]
    answers (IndexMap.replicate 2 0 : IndexMap Edge Int64) as =
      [.ok .done, .ok .done, .error (.outOfBounds 2 4), .ok (.value 7), .ok (.value 0)] := rfl

end Access

end GraphViews.Graph
