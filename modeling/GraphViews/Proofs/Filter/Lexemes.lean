import GraphViews.Proofs.Filter.Grammar

/-!
# Reading single tokens

What the readers of truth values, integers, names and comparisons take from the front of a text, and that each of
them takes a whole token where the text goes on as it may behind one.
-/

namespace GraphViews.Filter

theorem strip?_eq_some {word s r : List Char} : strip? word s = some r ↔ s = word ++ r := by
  induction word generalizing s with
  | nil => simp [strip?]
  | cons c word ih =>
    cases s with
    | nil => simp [strip?]
    | cons d s =>
      by_cases h : c = d
      · simp [strip?, h, ih]
      · simp [strip?, h, Ne.symm h]

private theorem takeWhile_run {p : Char → Bool} {w r : List Char} (hw : ∀ c ∈ w, p c = true)
    (hr : r.head?.any p = false) : (w ++ r).takeWhile p = w := by
  rw [List.takeWhile_append_of_pos hw]
  cases r with
  | nil => simp
  | cons c r => simp_all

private theorem dropWhile_run {p : Char → Bool} {w r : List Char} (hw : ∀ c ∈ w, p c = true)
    (hr : r.head?.any p = false) : (w ++ r).dropWhile p = r := by
  rw [List.dropWhile_append_of_pos hw]
  cases r with
  | nil => rfl
  | cons c r => simp_all

private theorem wholeWord?_eq_some {word s r : List Char} :
    wholeWord? word s = some r ↔ s = word ++ r ∧ r.head?.any isWordChar = false := by
  unfold wholeWord?
  cases h : strip? word s with
  | none =>
    have hne : s ≠ word ++ r := fun hs => by simp [strip?_eq_some.mpr hs] at h
    simp [hne]
  | some r' =>
    obtain rfl := strip?_eq_some.mp h
    cases hr : r'.head?.any isWordChar with
    | true =>
      simp only [hr, if_true, reduceCtorEq, List.append_cancel_left_eq, false_iff, not_and]
      rintro rfl
      simp [hr]
    | false =>
      simp only [hr, Bool.false_eq_true, if_false, Option.some.injEq, List.append_cancel_left_eq]
      exact ⟨fun h => ⟨h, h ▸ hr⟩, And.left⟩

theorem Token.isWordChar_bool (b : Bool) : ∀ c ∈ (Token.bool b).chars, isWordChar c = true := by
  have hall : (Token.bool b).chars.all isWordChar = true := by cases b <;> rfl
  exact List.all_eq_true.mp hall

theorem boolean?_eq_some {s r : List Char} :
    boolean? s = some r ↔ ∃ b, s = (Token.bool b).chars ++ r ∧ r.head?.any isWordChar = false := by
  constructor
  · intro h
    unfold boolean? at h
    split at h
    · rename_i r' hw
      cases h
      exact ⟨true, wholeWord?_eq_some.mp hw⟩
    · exact ⟨false, wholeWord?_eq_some.mp h⟩
  · rintro ⟨b, hb⟩
    cases b with
    | true =>
      have hw : wholeWord? ['t', 'r', 'u', 'e'] s = some r := wholeWord?_eq_some.mpr hb
      rw [boolean?, hw]
    | false =>
      have hw : wholeWord? ['f', 'a', 'l', 's', 'e'] s = some r := wholeWord?_eq_some.mpr hb
      have hn : wholeWord? ['t', 'r', 'u', 'e'] s = none := by
        rw [hb.1]
        rfl
      rw [boolean?, hn, hw]

theorem boolean?_eq_none {s : List Char} :
    boolean? s = none ↔ ∀ b, s.takeWhile isWordChar ≠ (Token.bool b).chars := by
  constructor
  · intro h b hw
    have hr : (s.dropWhile isWordChar).head?.any isWordChar = false := by
      have := List.head?_dropWhile_not isWordChar s
      cases hd : (s.dropWhile isWordChar).head? with
      | none => rfl
      | some c => simpa [hd] using this
    have hs : s = (Token.bool b).chars ++ s.dropWhile isWordChar := by
      rw [← hw, List.takeWhile_append_dropWhile]
    rw [boolean?_eq_some.mpr ⟨b, hs, hr⟩] at h
    cases h
  · intro h
    rw [Option.eq_none_iff_forall_not_mem]
    intro r h'
    obtain ⟨b, rfl, hr⟩ := boolean?_eq_some.mp h'
    exact h b (takeWhile_run (Token.isWordChar_bool b) hr)

theorem boolean?_cons {c : Char} (hc : c.isAlpha = false) (s : List Char) :
    boolean? (c :: s) = none := by
  rw [Option.eq_none_iff_forall_not_mem]
  intro r h
  obtain ⟨b, hs, -⟩ := boolean?_eq_some.mp h
  cases b <;> (cases hs; cases hc)

private theorem digits?_eq_some {s r : List Char} (h : digits? s = some r) :
    s.takeWhile Char.isDigit ≠ [] ∧ s = s.takeWhile Char.isDigit ++ r := by
  unfold digits? at h
  split at h
  · rename_i hs
    cases h
    refine ⟨?_, List.takeWhile_append_dropWhile.symm⟩
    cases s with
    | nil => cases hs
    | cons c s => simp_all
  · cases h

theorem Literal.digits?_eq (l : Literal) {r : List Char} (hr : r.head?.any Char.isDigit = false) :
    digits? (l.digits ++ r) = some r := by
  obtain ⟨d, ds, hd, hdigit⟩ := l.exists_digits
  have hhead : (l.digits ++ r).head?.any Char.isDigit = true := by simp [hd, hdigit]
  rw [digits?, if_pos hhead, dropWhile_run l.decimal hr]

private theorem integer?_unmarked {s : List Char} (h : ∀ r, s ≠ '-' :: r) : integer? s = digits? s := by
  rw [integer?]
  exact h

theorem integer?_chars (l : Literal) {r : List Char} (hr : r.head?.any Char.isDigit = false) :
    integer? (l.chars ++ r) = some r := by
  cases hn : l.negative with
  | true =>
    have hc : l.chars = '-' :: l.digits := by simp [Literal.chars, hn]
    rw [hc, List.cons_append, integer?, l.digits?_eq hr]
  | false =>
    have hc : l.chars = l.digits := by simp [Literal.chars, hn]
    have hminus : ∀ s, l.digits ++ r ≠ '-' :: s := by
      intro s hs
      obtain ⟨d, ds, hd, hdigit⟩ := l.exists_digits
      rw [hd, List.cons_append] at hs
      obtain ⟨rfl, -⟩ := List.cons.inj hs
      cases hdigit
    rw [hc, integer?_unmarked hminus, l.digits?_eq hr]

/-- An integer is read as far as its digits go. -/
theorem integer?_eq_some {s r : List Char} (h : integer? s = some r) :
    ∃ l : Literal, s = l.chars ++ r := by
  have hall (s : List Char) : ∀ c ∈ s.takeWhile Char.isDigit, c.isDigit = true :=
    fun c hc => List.mem_takeWhile_imp hc
  unfold integer? at h
  split at h
  · rename_i s
    obtain ⟨hne, hs⟩ := digits?_eq_some h
    refine ⟨⟨true, _, hne, hall s⟩, ?_⟩
    simpa [Literal.chars] using hs
  · obtain ⟨hne, hs⟩ := digits?_eq_some h
    refine ⟨⟨false, _, hne, hall s⟩, ?_⟩
    simpa [Literal.chars] using hs

theorem integer?_eq_none {c : Char} (hd : c.isDigit = false) (hm : c ≠ '-') (s : List Char) :
    integer? (c :: s) = none := by
  rw [integer?_unmarked fun r h => hm (List.cons.inj h).1]
  simp [digits?, hd]

theorem Name.all_isWordChar (x : Name) : ∀ c ∈ x.val.toList, isWordChar c = true := by
  obtain ⟨c, cs, hx, hc, hcs⟩ := x.property.word
  rw [hx]
  intro d hd
  rcases List.mem_cons.mp hd with rfl | hd
  · exact isWordChar_of_isAlpha hc
  · exact hcs d hd

theorem field?_name (x : Name) {r : List Char} (hr : r.head?.any isWordChar = false) :
    field? (x.val.toList ++ r) = some r := by
  obtain ⟨c, cs, hx, hc, -⟩ := x.property.word
  have hhead : (x.val.toList ++ r).head?.any Char.isAlpha = true := by simp [hx, hc]
  rw [field?, if_pos hhead, dropWhile_run x.all_isWordChar hr]

/-- No name is read as a truth value. -/
theorem boolean?_name (x : Name) {r : List Char} (hr : r.head?.any isWordChar = false) :
    boolean? (x.val.toList ++ r) = none := by
  rw [boolean?_eq_none, takeWhile_run x.all_isWordChar hr]
  intro b hb
  cases b with
  | true => exact x.property.ne_true (String.toList_injective hb)
  | false => exact x.property.ne_false (String.toList_injective hb)

/-- A name is read as far as the word goes, if the word is no truth value. -/
theorem field?_eq_some {s r : List Char} (hb : boolean? s = none) (h : field? s = some r) :
    ∃ x : Name, s = x.val.toList ++ r := by
  unfold field? at h
  split at h
  · rename_i hs
    cases h
    have hw := boolean?_eq_none.mp hb
    have hname : IsName (String.ofList (s.takeWhile isWordChar)) := by
      refine ⟨?_, ?_, ?_⟩
      · cases s with
        | nil => cases hs
        | cons c s =>
          have hc : c.isAlpha = true := hs
          refine ⟨c, s.takeWhile isWordChar, ?_, hc, fun d hd => List.mem_takeWhile_imp hd⟩
          simp [isWordChar_of_isAlpha hc]
      · intro ht
        exact hw true (by rw [← String.toList_ofList (l := s.takeWhile _), ht]; rfl)
      · intro hf
        exact hw false (by rw [← String.toList_ofList (l := s.takeWhile _), hf]; rfl)
    exact ⟨⟨_, hname⟩, by simp⟩
  · cases h

theorem cmpOp?_eq_some {s r : List Char} (h : cmpOp? s = some r) :
    ∃ op : CmpOp, s = op.symbol.toList ++ r := by
  unfold cmpOp? at h
  split at h <;> cases h
  · exact ⟨.eq, rfl⟩
  · exact ⟨.neq, rfl⟩
  · exact ⟨.le, rfl⟩
  · exact ⟨.ge, rfl⟩
  · exact ⟨.lt, rfl⟩
  · exact ⟨.gt, rfl⟩

/-- The shorter comparisons are read where no equals sign follows. -/
theorem cmpOp?_symbol (op : CmpOp) {r : List Char} (hr : r.head? ≠ some '=') :
    cmpOp? (op.symbol.toList ++ r) = some r := by
  cases op with
  | lt =>
    change cmpOp? ('<' :: r) = some r
    unfold cmpOp?
    split <;> simp_all
  | gt =>
    change cmpOp? ('>' :: r) = some r
    unfold cmpOp?
    split <;> simp_all
  | _ => rfl

end GraphViews.Filter
