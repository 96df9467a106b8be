import HashIf.Value

/-! Texts of the shape of an integer. Such a text denotes an integer unless it is a decimal numeral
with more digits than the limit. -/

namespace HashIf

/-- A decimal numeral, with or without a sign, of more digits than an integer is read from. -/
def LongInteger (cs : List Char) : Prop :=
  isDigitRun 10 (splitSign cs).2 = true ∧ decimalDigitLimit < decimalCount cs

/-! ## Digits -/

abbrev withoutMarks (cs : List Char) : List Char := cs.filter (· != '_')

theorem of_isDigitOf (h : isDigitOf base c = true) :
    ('0' ≤ c ∧ c ≤ '9') ∨ ('a' ≤ c ∧ c ≤ 'z') ∨ ('A' ≤ c ∧ c ≤ 'Z') := by
  unfold isDigitOf asciiDigitValue? at h
  split at h
  · next d hd =>
    split at hd
    · next hc => exact .inl (by simpa using hc)
    split at hd
    · next hc => exact .inr (.inl (by simpa using hc))
    split at hd
    · next hc => exact .inr (.inr (by simpa using hc))
    · cases hd
  · cases h

theorem toNat_of_isDigitOf (h : isDigitOf base c = true) :
    48 ≤ c.toNat ∧ c.toNat < 128 ∧ c ≠ '_' := by
  have range : 48 ≤ c.toNat ∧ c.toNat < 128 ∧ c.toNat ≠ 95 := by
    rcases of_isDigitOf h with ⟨hl, hu⟩ | ⟨hl, hu⟩ | ⟨hl, hu⟩
    · change 48 ≤ c.toNat at hl
      change c.toNat ≤ 57 at hu
      omega
    · change 97 ≤ c.toNat at hl
      change c.toNat ≤ 122 at hu
      omega
    · change 65 ≤ c.toNat at hl
      change c.toNat ≤ 90 at hu
      omega
  refine ⟨range.1, range.2.1, ?_⟩
  rintro rfl
  exact range.2.2 rfl

theorem markedBase?_of_decimal (h : isDecimal m = true) : markedBase? m = none := by
  unfold markedBase?
  split
  case h_7 => rfl
  all_goals cases h

/-- A digit of a base does not mark that base. -/
theorem markedBase?_of_isDigitOf (h : isDigitOf base m = true) : markedBase? m ≠ some base := by
  intro hm
  unfold markedBase? at hm
  split at hm
  all_goals cases hm
  all_goals cases h

/-! ## Plain digits -/

theorem trimBy_eq_self {p : α → Bool} (h : ∀ x ∈ xs, p x = false) : trimBy p xs = xs := by
  have drop (ys : List α) (hy : ∀ y ∈ ys, p y = false) : ys.dropWhile p = ys := by
    cases ys with
    | nil => rfl
    | cons y ys => rw [List.dropWhile_cons, hy y List.mem_cons_self, if_neg Bool.false_ne_true]
  rw [trimBy, drop xs h, drop xs.reverse fun y hy => h y (List.mem_reverse.mp hy),
    List.reverse_reverse]

theorem isNumeralSpace_of_visible (h : 33 ≤ c.toNat) : isNumeralSpace c = false := by
  simp only [isNumeralSpace, Bool.or_eq_false_iff, beq_eq_false_iff_ne, Bool.and_eq_false_iff,
    decide_eq_false_iff_not]
  refine ⟨?_, .inr fun hr => ?_⟩
  · rintro rfl
    exact absurd h (by decide)
  · change c.toNat ≤ 13 at hr
    omega

/-- Visible ASCII characters are plain, and there is no white space around them. -/
theorem plainNumeral_visible (h : ∀ c ∈ cs, 33 ≤ c.toNat ∧ c.toNat < 128) :
    plainNumeral cs = cs := by
  have hmap : cs.map plainNumeralChar = cs :=
    calc cs.map plainNumeralChar = cs.map id := List.map_congr_left fun c hc => if_pos (h c hc).2
      _ = cs := List.map_id cs
  rw [plainNumeral, hmap]
  exact trimBy_eq_self fun c hc => isNumeralSpace_of_visible (h c hc).1

section
variable {base : Nat} {ds : List Char} (h : ∀ d ∈ ds, isDigitOf base d = true)

include h

theorem plainNumeral_digits : plainNumeral ds = ds := by
  refine plainNumeral_visible fun d hd => ?_
  have hd := toNat_of_isDigitOf (h d hd)
  omega

theorem splitSign_digits : splitSign ds = (false, ds) := by
  unfold splitSign
  split
  · cases h '-' List.mem_cons_self
  · cases h '+' List.mem_cons_self
  · rfl

theorem dropOwnMark_digits : dropOwnMark base ds = ds := by
  unfold dropOwnMark
  split
  · next m cs => exact if_neg (markedBase?_of_isDigitOf (h m (by simp)))
  · rfl

/-- Digits of a base denote what they come to, if they are not too many. -/
theorem integerInBase?_digits :
    integerInBase? base ds = (magnitude? base ds).map (signed false) := by
  simp only [integerInBase?, plainNumeral_digits h, splitSign_digits h, dropOwnMark_digits h]

theorem magnitude?_eq_none_iff (hne : ds ≠ []) :
    magnitude? base ds = none ↔ base = 10 ∧ decimalDigitLimit < ds.length := by
  have hall : ds.all (isDigitOf base) = true := List.all_eq_true.mpr h
  simp [magnitude?, hall, hne]

end

/-! ## Shapes -/

theorem withoutMarks_cons (h : d ≠ '_') : withoutMarks (d :: ds) = d :: withoutMarks ds :=
  List.filter_cons_of_pos (bne_iff_ne.mpr h)

theorem ne_mark (h : isDigitOf base d = true) : d ≠ '_' := (toNat_of_isDigitOf h).2.2

theorem isDigitRun_cons (h : isDigitRun base ds = true) :
    ∃ d ds', ds = d :: ds' ∧ isDigitOf base d = true ∧
      ∀ c ∈ ds', isDigitOf base c = true ∨ c = '_' := by
  cases ds with
  | nil => cases h
  | cons d ds =>
    simp only [isDigitRun, Bool.and_eq_true, List.all_eq_true, Bool.or_eq_true, beq_iff_eq] at h
    exact ⟨d, ds, rfl, h⟩

theorem withoutMarks_ne_nil (h : isDigitRun base ds = true) : withoutMarks ds ≠ [] := by
  obtain ⟨d, ds, rfl, hd, -⟩ := isDigitRun_cons h
  rw [withoutMarks_cons (ne_mark hd)]
  exact List.cons_ne_nil _ _

theorem digits_withoutMarks (h : isDigitRun base ds = true) :
    ∀ d ∈ withoutMarks ds, isDigitOf base d = true := by
  obtain ⟨d, ds, rfl, hd, hds⟩ := isDigitRun_cons h
  rw [withoutMarks_cons (ne_mark hd)]
  refine List.forall_mem_cons.mpr ⟨hd, fun c hc => ?_⟩
  obtain ⟨hc, hm⟩ := List.mem_filter.mp hc
  exact (hds c hc).resolve_right (bne_iff_ne.mp hm)

theorem splitBase_cases (cs : List Char) :
    (∃ m ds base, cs = '0' :: m :: ds ∧ markedBase? m = some base ∧ splitBase cs = (base, ds)) ∨
      splitBase cs = (10, cs) := by
  unfold splitBase
  split
  · next m ds =>
    split
    · next base hm => exact .inl ⟨m, ds, base, rfl, hm, rfl⟩
    · exact .inr rfl
  · exact .inr rfl

theorem splitBase_ten (h : (splitBase cs).1 = 10) : splitBase cs = (10, cs) := by
  rcases splitBase_cases cs with ⟨m, ds, base, rfl, hm, hs⟩ | hs
  · obtain rfl : base = 10 := by rw [hs] at h; exact h
    unfold markedBase? at hm
    split at hm <;> cases hm
  · exact hs

theorem splitBase_decimal (h : isDigitRun 10 cs = true) : splitBase cs = (10, cs) := by
  rcases splitBase_cases cs with ⟨m, ds, base, rfl, hm, -⟩ | h
  · obtain ⟨d, ds', hd, -, hds⟩ := isDigitRun_cons h
    obtain ⟨-, rfl⟩ := List.cons.inj hd
    rcases hds m List.mem_cons_self with hdec | rfl
    · rw [markedBase?_of_decimal hdec] at hm
      cases hm
    · cases hm
  · exact h

/-- Underscores hide no base mark of a text of integer shape. -/
theorem splitBase_withoutMarks (h : isDigitRun (splitBase cs).1 (splitBase cs).2 = true) :
    splitBase (withoutMarks cs) = ((splitBase cs).1, withoutMarks (splitBase cs).2) := by
  rcases splitBase_cases cs with ⟨m, ds, base, rfl, hm, hs⟩ | hs
  · have hm' : m ≠ '_' := by
      rintro rfl
      cases hm
    have hc : withoutMarks ('0' :: m :: ds) = '0' :: m :: withoutMarks ds := by
      rw [withoutMarks_cons (by decide), withoutMarks_cons hm']
    rw [hs, hc, splitBase, hm]
  · rw [hs] at h ⊢
    have hd := digits_withoutMarks h
    obtain ⟨d, ds, hc⟩ := List.exists_cons_of_ne_nil (withoutMarks_ne_nil h)
    rw [hc] at hd ⊢
    refine splitBase_decimal ?_
    simp only [isDigitRun, Bool.and_eq_true, List.all_eq_true, Bool.or_eq_true]
    exact ⟨hd d List.mem_cons_self, fun c hc => .inl (hd c (List.mem_cons_of_mem _ hc))⟩

theorem splitSign_cases (cs : List Char) :
    (∃ c ds, cs = c :: ds ∧ (c = '-' ∨ c = '+') ∧ splitSign cs = (decide (c = '-'), ds)) ∨
      splitSign cs = (false, cs) := by
  unfold splitSign
  split
  · exact .inl ⟨_, _, rfl, .inl rfl, rfl⟩
  · exact .inl ⟨_, _, rfl, .inr rfl, rfl⟩
  · exact .inr rfl

/-- A text of integer shape has a decimal digit behind its sign. -/
theorem digit_of_shape (h : isDigitRun (splitBase cs).1 (splitBase cs).2 = true) :
    ∃ d ds, cs = d :: ds ∧ isDecimal d = true := by
  rcases splitBase_cases cs with ⟨m, ds, base, rfl, -⟩ | hs
  · exact ⟨'0', _, rfl, rfl⟩
  · rw [hs] at h
    obtain ⟨d, ds, rfl, hd, -⟩ := isDigitRun_cons h
    exact ⟨d, ds, rfl, hd⟩

theorem splitSign_withoutMarks (h : (splitSign cs).2 = d :: ds) (hd : isDecimal d = true) :
    splitSign (withoutMarks cs) = ((splitSign cs).1, withoutMarks (splitSign cs).2) := by
  rcases splitSign_cases cs with ⟨c, ds', rfl, hc, hs⟩ | hs
  · rw [hs]
    rcases hc with rfl | rfl <;> rfl
  · rw [hs] at h ⊢
    subst h
    rw [withoutMarks_cons (ne_mark hd)]
    unfold splitSign
    split
    · next he => cases (List.cons.inj he).1; cases hd
    · next he => cases (List.cons.inj he).1; cases hd
    · rfl

theorem decimalCount_splitSign (cs : List Char) :
    decimalCount (splitSign cs).2 = decimalCount cs := by
  rcases splitSign_cases cs with ⟨c, ds, rfl, hc, hs⟩ | hs
  · rw [hs]
    rcases hc with rfl | rfl <;> rfl
  · rw [hs]

theorem decimalCount_run (h : isDigitRun 10 ds = true) :
    decimalCount ds = (withoutMarks ds).length := by
  obtain ⟨d, ds, rfl, hd, hds⟩ := isDigitRun_cons h
  refine congrArg List.length (List.filter_congr fun c hc => ?_)
  have hc : isDecimal c = true ∨ c = '_' := by
    rcases List.mem_cons.mp hc with rfl | hc
    · exact .inl hd
    · exact hds c hc
  rcases hc with hc | rfl
  · rw [hc, bne_iff_ne.mpr (ne_mark hc)]
  · rfl

/-- A text of integer shape denotes no integer only if it is a long decimal numeral. -/
theorem integerOfNumeral?_eq_none_iff (h : isIntegerShape s.toList = true) :
    integerOfNumeral? s = none ↔ LongInteger s.toList := by
  have hrun : isDigitRun (splitBase (splitSign s.toList).2).1
      (splitBase (splitSign s.toList).2).2 = true := h
  obtain ⟨d, ds, hcs, hd⟩ := digit_of_shape hrun
  have hdigits := digits_withoutMarks hrun
  simp only [integerOfNumeral?]
  rw [splitSign_withoutMarks hcs hd]
  simp only [splitBase_withoutMarks hrun, integerInBase?_digits hdigits, Option.map_eq_none_iff,
    magnitude?_eq_none_iff hdigits (withoutMarks_ne_nil hrun)]
  rw [LongInteger, ← decimalCount_splitSign]
  constructor
  · rintro ⟨hten, hlen⟩
    have hs := splitBase_ten hten
    rw [hs] at hrun hlen
    rw [decimalCount_run hrun]
    exact ⟨hrun, hlen⟩
  · rintro ⟨hten, hlen⟩
    rw [splitBase_decimal hten]
    rw [decimalCount_run hten] at hlen
    exact ⟨rfl, hlen⟩

theorem not_longInteger (h : cs.length ≤ decimalDigitLimit) : ¬LongInteger cs := by
  rintro ⟨-, hlen⟩
  have hcount : decimalCount cs ≤ cs.length := List.length_filter_le ..
  omega

theorem isIntegerShape_of_long (h : LongInteger cs) : isIntegerShape cs = true := by
  rw [isIntegerShape, splitBase_decimal h.1]
  exact h.1

/-- A raw text stands for no datum only if it is a long decimal numeral. -/
theorem Datum.ofString_error_iff : Datum.ofString s = .error x ↔
    x = .numeral (decimalCount s.toList) ∧ LongInteger s.toList := by
  constructor
  · intro h
    unfold Datum.ofString at h
    split at h
    · cases h
    split at h
    · cases h
    split at h
    · next hs =>
      split at h
      · cases h
      · next hn =>
        cases h
        exact ⟨rfl, (integerOfNumeral?_eq_none_iff hs).mp hn⟩
    split at h
    · split at h <;> cases h
    · cases h
  · rintro ⟨rfl, hl⟩
    have hs := isIntegerShape_of_long hl
    have ht : s ≠ "true" := by
      rintro rfl
      cases hs
    have hf : s ≠ "false" := by
      rintro rfl
      cases hs
    rw [Datum.ofString, if_neg ht, if_neg hf, if_pos hs, (integerOfNumeral?_eq_none_iff hs).mpr hl]

end HashIf
