import HashIf.Number.Decimal
import HashIf.Proofs.Number.IntegerForm

/-! The grammar of float numerals. The texts that it derives are those of the shape of a float, and
each is read as the number that the grammar gives it. -/

namespace HashIf

/-! ## The grammar -/

/-- The fraction of a float numeral with its digits, of which there may be none. -/
inductive FractionForm : List Char → (digits : List Char) → Prop
  | none : FractionForm [] []
  | point (h : ∀ c ∈ run, isDecimal c = true ∨ c = '_') :
    FractionForm ('.' :: run) (withoutMarks run)

/-- The exponent of a float numeral with its value. -/
inductive ExponentForm : List Char → (e : Int) → Prop
  | none : ExponentForm [] 0
  | marked (hm : mark = 'e' ∨ mark = 'E') (hs : SignForm sign negative) (hr : RunForm 10 run)
    (hn : numeral? 10 asciiDigitValue? (withoutMarks run) = some n) :
    ExponentForm (mark :: (sign ++ run)) (signed negative n)

/-- A float numeral with the number nearest to its value: that of all its digits as an integer, by a
power of ten that counts those of the fraction off its exponent. -/
inductive FloatForm : List Char → Binary64 → Prop
  | mk (hs : SignForm sign negative) (hr : RunForm 10 whole) (hf : FractionForm fraction digits)
    (he : ExponentForm power e)
    (hm : numeral? 10 asciiDigitValue? (withoutMarks whole ++ digits) = some m) :
    FloatForm (sign ++ (whole ++ (fraction ++ power)))
      (.ofDecimal negative (withoutMarks whole ++ digits).length m (e - digits.length))

def IsFloatNumeral (cs : List Char) : Prop := ∃ x, FloatForm cs x

/-! ## Parts of floats -/

theorem isDecimalPart_iff : isDecimalPart c = true ↔ isDecimal c = true ∨ c = '_' := by
  rw [isDecimalPart, Bool.or_eq_true, beq_iff_eq]

/-- No part of a float numeral but its digits begins with such a character. -/
theorem not_isDecimalPart (h : c = '.' ∨ c = 'e' ∨ c = 'E') : isDecimalPart c = false := by
  rcases h with rfl | rfl | rfl <;> rfl

theorem ExponentForm.head (h : ExponentForm power e) : ∀ c ∈ power.head?, c = 'e' ∨ c = 'E' := by
  intro c hc
  cases h with
  | none => cases hc
  | marked hm =>
    cases hc
    exact hm

theorem FractionForm.head (h : FractionForm fraction ds) (he : ExponentForm power e) :
    ∀ c ∈ (fraction ++ power).head?, c = '.' ∨ c = 'e' ∨ c = 'E' := by
  intro c hc
  cases h with
  | none => exact .inr (he.head c hc)
  | point =>
    cases hc
    exact .inl rfl

theorem RunForm.isDecimalPart (h : RunForm 10 run) : ∀ c ∈ run, isDecimalPart c = true := by
  obtain ⟨hd, hds⟩ := h
  refine List.forall_mem_cons.mpr ⟨isDecimalPart_iff.mpr (.inl hd), ?_⟩
  intro c hc
  exact isDecimalPart_iff.mpr (hds c hc)

theorem RunForm.afterDecimalRun? {rest : List Char} (h : RunForm 10 run)
    (hr : ∀ c ∈ rest.head?, HashIf.isDecimalPart c = false) :
    afterDecimalRun? (run ++ rest) = some rest := by
  have hall := h.isDecimalPart
  obtain ⟨hd, -⟩ := h
  rw [List.cons_append]
  exact (if_pos hd).trans
    (congrArg some (dropWhile_append_of_head (List.forall_mem_cons.mp hall).2 hr))

theorem runForm_of_afterDecimalRun? (h : afterDecimalRun? cs = some rest) :
    ∃ run, RunForm 10 run ∧ cs = run ++ rest := by
  cases cs with
  | nil => cases h
  | cons c cs =>
    rw [afterDecimalRun?] at h
    split at h
    · next hc =>
      cases h
      refine ⟨c :: cs.takeWhile isDecimalPart, .mk hc ?_, ?_⟩
      · intro d hd
        exact isDecimalPart_iff.mp (List.mem_takeWhile_imp hd)
      · rw [List.cons_append, List.takeWhile_append_dropWhile]
    · cases h

theorem FractionForm.afterFraction (h : FractionForm fraction ds) (he : ExponentForm power e) :
    afterFraction (fraction ++ power) = power := by
  cases h with
  | none =>
    rw [List.nil_append]
    unfold HashIf.afterFraction
    split
    · rcases he.head '.' rfl with h | h <;> cases h
    · rfl
  | point h =>
    rw [List.cons_append, HashIf.afterFraction]
    apply dropWhile_append_of_head
    · intro c hc
      exact isDecimalPart_iff.mpr (h c hc)
    · intro c hc
      exact not_isDecimalPart (.inr (he.head c hc))

theorem fractionForm_afterFraction (cs : List Char) :
    ∃ fraction ds, FractionForm fraction ds ∧ cs = fraction ++ afterFraction cs := by
  unfold afterFraction
  split
  · next cs =>
    refine ⟨'.' :: cs.takeWhile isDecimalPart, _, .point ?_, ?_⟩
    · intro c hc
      exact isDecimalPart_iff.mp (List.mem_takeWhile_imp hc)
    · rw [List.cons_append, List.takeWhile_append_dropWhile]
  · exact ⟨[], [], .none, rfl⟩

/-- The digits of a run have a value. -/
theorem RunForm.numeral? (h : RunForm base run) :
    numeral? base asciiDigitValue? (withoutMarks run) =
      some (digitsValue base (withoutMarks run)) :=
  numeral?_of_isDigitOf (digits_withoutMarks (isDigitRun_iff.mpr h))

theorem ExponentForm.isExponentShape (h : ExponentForm power e) : isExponentShape power = true := by
  cases h with
  | none => rfl
  | @marked mark sign negative run n hm hs hr =>
    have hrun : afterDecimalRun? (run ++ []) = some [] := hr.afterDecimalRun? nofun
    rw [List.append_nil] at hrun
    obtain ⟨hd, -⟩ := hr
    rw [HashIf.isExponentShape, hs.splitSign hd, hrun]
    rcases hm with rfl | rfl <;> rfl

theorem exponentForm_of_shape (h : isExponentShape cs = true) : ∃ e, ExponentForm cs e := by
  cases cs with
  | nil => exact ⟨0, .none⟩
  | cons mark cs =>
    simp only [isExponentShape, Bool.and_eq_true, Bool.or_eq_true, beq_iff_eq] at h
    obtain ⟨hm, hrun⟩ := h
    obtain ⟨sign, hs, hcs⟩ := signForm_splitSign cs
    obtain ⟨run, hr, hrun⟩ := runForm_of_afterDecimalRun? hrun
    rw [List.append_nil] at hrun
    rw [hcs, hrun]
    exact ⟨_, .marked hm hs hr hr.numeral?⟩

/-- The digits of the fraction go on with those of the whole part. -/
theorem FractionForm.isDigitOf_append (h : FractionForm fraction ds) (hr : RunForm 10 whole) :
    ∀ d ∈ withoutMarks whole ++ ds, isDigitOf 10 d = true := by
  refine List.forall_mem_append.mpr ⟨digits_withoutMarks (isDigitRun_iff.mpr hr), ?_⟩
  intro d hd
  cases h with
  | none => cases hd
  | point h =>
    obtain ⟨hd, hm⟩ := List.mem_filter.mp hd
    exact (h d hd).resolve_right (bne_iff_ne.mp hm)

/-! ## Floats -/

theorem FloatForm.isFloatShape (h : FloatForm cs x) : isFloatShape cs = true := by
  obtain ⟨hs, hr, hf, he, -⟩ := h
  have hrun := hr.afterDecimalRun? fun c hc => not_isDecimalPart (hf.head he c hc)
  obtain ⟨hd, -⟩ := hr
  rw [HashIf.isFloatShape, List.cons_append, hs.splitSign hd, ← List.cons_append, hrun]
  dsimp only
  rw [hf.afterFraction he]
  exact he.isExponentShape

theorem isFloatShape_iff : isFloatShape cs = true ↔ IsFloatNumeral cs := by
  constructor
  · intro h
    rw [isFloatShape] at h
    split at h
    · next rest hrest =>
      obtain ⟨sign, hs, hcs⟩ := signForm_splitSign cs
      obtain ⟨whole, hr, hwhole⟩ := runForm_of_afterDecimalRun? hrest
      obtain ⟨fraction, ds, hf, hfraction⟩ := fractionForm_afterFraction rest
      obtain ⟨e, he⟩ := exponentForm_of_shape h
      have hform := FloatForm.mk hs hr hf he (numeral?_of_isDigitOf (hf.isDigitOf_append hr))
      rw [← hfraction, ← hwhole, ← hcs] at hform
      exact ⟨_, hform⟩
    · cases h
  · rintro ⟨x, h⟩
    exact h.isFloatShape

/-! ## Reading floats -/

/-- A character of a float numeral without underscores. -/
def IsFloatChar (c : Char) : Prop :=
  isDecimal c = true ∨ c = '.' ∨ c = 'e' ∨ c = 'E' ∨ c = '+' ∨ c = '-'

theorem IsFloatChar.visible (h : IsFloatChar c) : 33 ≤ c.toNat ∧ c.toNat < 128 := by
  rcases h with h | rfl | rfl | rfl | rfl | rfl
  · have hc := toNat_of_isDigitOf h
    omega
  all_goals decide

theorem SignForm.isFloatChar (h : SignForm sign negative) : ∀ c ∈ sign, IsFloatChar c := by
  intro c hc
  cases h with
  | none => cases hc
  | plus | minus =>
    cases List.mem_singleton.mp hc
    simp [IsFloatChar]

theorem isFloatChar_withoutMarks (h : ∀ c ∈ cs, isDecimal c = true ∨ c = '_') :
    ∀ c ∈ withoutMarks cs, IsFloatChar c := by
  intro c hc
  obtain ⟨hc, hm⟩ := List.mem_filter.mp hc
  exact .inl ((h c hc).resolve_right (bne_iff_ne.mp hm))

theorem RunForm.isFloatChar (h : RunForm 10 run) : ∀ c ∈ withoutMarks run, IsFloatChar c :=
  isFloatChar_withoutMarks fun c hc => isDecimalPart_iff.mp (h.isDecimalPart c hc)

theorem FractionForm.withoutMarks (h : FractionForm fraction ds) :
    withoutMarks fraction = [] ∧ ds = [] ∨ withoutMarks fraction = '.' :: ds := by
  cases h with
  | none => exact .inl ⟨rfl, rfl⟩
  | point => exact .inr (withoutMarks_cons (by decide))

theorem ExponentForm.withoutMarks (h : ExponentForm power e) :
    withoutMarks power = [] ∧ e = 0 ∨ ∃ mark sign ds negative, (mark = 'e' ∨ mark = 'E') ∧
      SignForm sign negative ∧ withoutMarks power = mark :: (sign ++ ds) ∧ ds ≠ [] ∧
      (∀ d ∈ ds, isDecimal d = true) ∧ e = signed negative (digitsValue 10 ds) := by
  cases h with
  | none => exact .inl ⟨rfl, rfl⟩
  | @marked mark sign negative run n hm hs hr hn =>
    have hmark : mark ≠ '_' := by rcases hm with rfl | rfl <;> decide
    have hrun := isDigitRun_iff.mpr hr
    obtain rfl : digitsValue 10 _ = n := Option.some.inj (hr.numeral?.symm.trans hn)
    refine .inr ⟨mark, sign, _, negative, hm, hs, ?_, withoutMarks_ne_nil hrun,
      digits_withoutMarks hrun, rfl⟩
    rw [withoutMarks_cons hmark, withoutMarks_append, hs.withoutMarks]

theorem FractionForm.isFloatChar (h : FractionForm fraction ds) :
    ∀ c ∈ HashIf.withoutMarks fraction, IsFloatChar c := by
  cases h with
  | none => exact nofun
  | point h =>
    rw [withoutMarks_cons (by decide)]
    exact List.forall_mem_cons.mpr ⟨.inr (.inl rfl), isFloatChar_withoutMarks h⟩

theorem ExponentForm.isFloatChar (h : ExponentForm power e) :
    ∀ c ∈ HashIf.withoutMarks power, IsFloatChar c := by
  rcases h.withoutMarks with ⟨hp, -⟩ | ⟨mark, sign, ds, negative, hm, hs, hp, -, hd, -⟩
  · rw [hp]
    exact nofun
  · rw [hp]
    refine List.forall_mem_cons.mpr ⟨?_, List.forall_mem_append.mpr ⟨hs.isFloatChar, ?_⟩⟩
    · rcases hm with rfl | rfl
      · exact .inr (.inr (.inl rfl))
      · exact .inr (.inr (.inr (.inl rfl)))
    · exact fun d hm => .inl (hd d hm)

theorem ExponentForm.exponentValue? (h : ExponentForm power e) :
    exponentValue? (HashIf.withoutMarks power) = some e := by
  rcases h.withoutMarks with ⟨hp, rfl⟩ | ⟨mark, sign, ds, negative, hm, hs, hp, hn, hd, rfl⟩
  · rw [hp]
    rfl
  · obtain ⟨d, ds, rfl⟩ := List.exists_cons_of_ne_nil hn
    have hall : (d :: ds).all isDecimal = true := List.all_eq_true.mpr hd
    rw [hp, HashIf.exponentValue?, hs.splitSign (hd d List.mem_cons_self)]
    dsimp only
    rw [hall]
    rcases hm with rfl | rfl <;> rfl

theorem FloatForm.isFloatChar (h : FloatForm cs x) : ∀ c ∈ withoutMarks cs, IsFloatChar c := by
  obtain ⟨hs, hr, hf, he, -⟩ := h
  simp only [withoutMarks_append, hs.withoutMarks, List.forall_mem_append]
  exact ⟨hs.isFloatChar, hr.isFloatChar, hf.isFloatChar, he.isFloatChar⟩

theorem eq_of_toLower (h : c.toLower = 'n') : c = 'n' ∨ c = 'N' := by
  unfold Char.toLower at h
  split at h
  · have hval : c.val + ('a'.val - 'A'.val) = 'N'.val + ('a'.val - 'A'.val) := congrArg Char.val h
    exact .inr (Char.ext ((UInt32.add_left_inj _).mp hval))
  · exact .inl h

/-- The names of infinity and of no number have a letter in common. -/
theorem namedMagnitude?_eq_none (h : ∀ c ∈ cs, c ≠ 'n' ∧ c ≠ 'N') : namedMagnitude? cs = none := by
  have hn : 'n' ∉ (String.ofList (cs.map Char.toLower)).toList := by
    intro hm
    rw [String.toList_ofList] at hm
    obtain ⟨c, hc, hlower⟩ := List.mem_map.mp hm
    rcases eq_of_toLower hlower with rfl | rfl
    · exact (h _ hc).1 rfl
    · exact (h _ hc).2 rfl
  unfold namedMagnitude?
  split
  · next he => exact (hn (by rw [he]; decide)).elim
  · next he => exact (hn (by rw [he]; decide)).elim
  · next he => exact (hn (by rw [he]; decide)).elim
  · rfl

theorem IsFloatChar.unnamed (h : IsFloatChar c) : c ≠ 'n' ∧ c ≠ 'N' := by
  refine ⟨?_, ?_⟩
  all_goals
    rintro rfl
    revert h
    unfold IsFloatChar
    decide

theorem head?_withoutMarks (h : ∀ c ∈ cs.head?, c ≠ '_') : (withoutMarks cs).head? = cs.head? := by
  cases cs with
  | nil => rfl
  | cons c cs =>
    rw [withoutMarks_cons (h c rfl)]
    rfl

theorem ExponentForm.head_withoutMarks (h : ExponentForm power e) :
    ∀ c ∈ (HashIf.withoutMarks power).head?, c = 'e' ∨ c = 'E' := by
  rw [head?_withoutMarks]
  · exact h.head
  · intro c hc
    rcases h.head c hc with rfl | rfl <;> exact nofun

theorem FractionForm.head_withoutMarks (h : FractionForm fraction ds) (he : ExponentForm power e) :
    ∀ c ∈ (HashIf.withoutMarks fraction ++ HashIf.withoutMarks power).head?,
      c = '.' ∨ c = 'e' ∨ c = 'E' := by
  rw [← withoutMarks_append, head?_withoutMarks]
  · exact h.head he
  · intro c hc
    rcases h.head he c hc with rfl | rfl | rfl <;> exact nofun

theorem not_isDecimal (h : c = '.' ∨ c = 'e' ∨ c = 'E') : isDecimal c = false :=
  (Bool.or_eq_false_iff.mp (not_isDecimalPart h)).1

theorem FractionForm.splitFraction (h : FractionForm fraction ds) (hr : RunForm 10 whole)
    (he : ExponentForm power e) :
    splitFraction (HashIf.withoutMarks fraction ++ HashIf.withoutMarks power) =
      (ds, HashIf.withoutMarks power) := by
  have hds : ∀ d ∈ ds, isDecimal d = true := (List.forall_mem_append.mp (h.isDigitOf_append hr)).2
  have hhead := he.head_withoutMarks
  rcases h.withoutMarks with ⟨hf, rfl⟩ | hf
  · rw [hf, List.nil_append]
    unfold HashIf.splitFraction
    split
    · next he =>
      rw [he] at hhead
      rcases hhead '.' rfl with h | h <;> cases h
    · rfl
  · rw [hf]
    exact span_append_of_head hds fun c hc => not_isDecimal (.inr (hhead c hc))

/-- A float numeral is read as the number of its form. -/
theorem FloatForm.binary64OfNumeral? (h : FloatForm s.toList x) :
    binary64OfNumeral? s = some x := by
  have hchars := h.isFloatChar
  have hplain := plainNumeral_visible fun c hc => (hchars c hc).visible
  rw [HashIf.binary64OfNumeral?, hplain]
  generalize s.toList = cs at h hchars
  obtain ⟨hs, hr, hf, he, hm⟩ := h
  next sign negative whole fraction ds power e m =>
  simp only [withoutMarks_append, hs.withoutMarks] at hchars ⊢
  obtain ⟨-, hchars⟩ := List.forall_mem_append.mp hchars
  have hnamed := namedMagnitude?_eq_none fun c hc => (hchars c hc).unnamed
  have hwhole : ∀ d ∈ withoutMarks whole, isDecimal d = true :=
    digits_withoutMarks (isDigitRun_iff.mpr hr)
  have hspan := span_append_of_head hwhole fun c hc => not_isDecimal (hf.head_withoutMarks he c hc)
  obtain rfl : digitsValue 10 _ = m :=
    Option.some.inj ((numeral?_of_isDigitOf (hf.isDigitOf_append hr)).symm.trans hm)
  obtain ⟨d, ds', hd⟩ := List.exists_cons_of_ne_nil (withoutMarks_ne_nil (isDigitRun_iff.mpr hr))
  have hsign := hs.splitSign (hwhole d (by rw [hd]; exact List.mem_cons_self))
    (ds' ++ (withoutMarks fraction ++ withoutMarks power))
  rw [← List.cons_append, ← hd] at hsign
  simp only [hsign, hnamed, hspan, hf.splitFraction hr he, he.exponentValue?]
  rw [hd]
  rfl

/-! ## Floats that are numbers -/

theorem decimalPattern_le_infinity (digits m : Nat) (e : Int) :
    decimalPattern digits m e ≤ infinityPattern := by
  unfold decimalPattern
  split
  · exact Nat.zero_le _
  split
  · exact Nat.le_refl _
  split
  · exact Nat.zero_le _
  split <;> exact Nat.min_le_right _ _

theorem Binary64.isNan_ofDecimal (negative : Bool) (digits m : Nat) (e : Int) :
    (ofDecimal negative digits m e).isNan = false :=
  decide_eq_false (Nat.not_lt.mpr (decimalPattern_le_infinity digits m e))

theorem FloatForm.isNan (h : FloatForm cs x) : x.isNan = false := by
  cases h
  exact Binary64.isNan_ofDecimal ..

theorem decimalValue?_lt (h : decimalValue? c = some d) : d < 10 := by
  unfold decimalValue? at h
  split at h
  · split at h
    · next hc =>
      cases h
      have hle : c.toNat ≤ 57 := of_decide_eq_true (Bool.and_eq_true_iff.mp hc).2
      omega
    · cases h
  · obtain ⟨z, hz, rfl⟩ := Option.map_eq_some_iff.mp h
    have hrange := List.find?_some hz
    simp only [Bool.and_eq_true, decide_eq_true_eq] at hrange
    omega

theorem digitChar_unnamed (h : d < 10) : d.digitChar ≠ 'n' ∧ d.digitChar ≠ 'N' := by
  have hd : d.digitChar.toNat = 48 + d := Nat.toNat_digitChar_of_lt_ten h
  constructor
  all_goals
    intro hc
    rw [hc] at hd
    revert hd
    simp only [Char.reduceToNat]
    omega

/-- No letter is made plain but itself. -/
theorem plainNumeralChar_unnamed (h : c ≠ 'n' ∧ c ≠ 'N') :
    plainNumeralChar c ≠ 'n' ∧ plainNumeralChar c ≠ 'N' := by
  unfold plainNumeralChar
  split
  · exact h
  split
  · next hd => exact digitChar_unnamed (decimalValue?_lt hd)
  split
  · decide
  · exact h

theorem mem_of_mem_trimBy {p : α → Bool} (h : x ∈ trimBy p xs) : x ∈ xs := by
  rw [trimBy, List.mem_reverse] at h
  have hm := List.mem_reverse.mp ((List.dropWhile_sublist p).subset h)
  exact (List.dropWhile_sublist p).subset hm

/-- A numeral without the letter that the names have in common is read as a number. -/
theorem isNan_of_numeral (h : binary64OfNumeral? s = some x)
    (hc : ∀ c ∈ s.toList, c ≠ 'n' ∧ c ≠ 'N') : x.isNan = false := by
  have hplain : ∀ c ∈ plainNumeral (withoutMarks s.toList), c ≠ 'n' ∧ c ≠ 'N' := by
    intro c hm
    obtain ⟨d, hd, rfl⟩ := List.mem_map.mp (mem_of_mem_trimBy hm)
    exact plainNumeralChar_unnamed (hc d (List.mem_filter.mp hd).1)
  obtain ⟨sign, -, hsign⟩ := signForm_splitSign (plainNumeral (withoutMarks s.toList))
  rw [hsign] at hplain
  have hnamed := namedMagnitude?_eq_none (List.forall_mem_append.mp hplain).2
  rw [withoutMarks] at hnamed
  simp only [binary64OfNumeral?, hnamed] at h
  split at h
  · cases h
  · obtain ⟨e, -, rfl⟩ := Option.map_eq_some_iff.mp h
    exact Binary64.isNan_ofDecimal ..

end HashIf
