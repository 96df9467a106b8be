import HashIf.Proofs.Number.IntegerShape
import HashIf.Proofs.Number.Numeral

/-! The grammar of integer numerals. The texts that it derives are those of the shape of an integer,
and each is read as its digits in its base, unless they are too many. -/

namespace HashIf

/-! ## The grammar -/

inductive SignForm : List Char → (negative : Bool) → Prop
  | none : SignForm [] false
  | plus : SignForm ['+'] false
  | minus : SignForm ['-'] true

/-- A mark of the base in which digits are read; without one they are decimal. -/
inductive BaseForm : List Char → (base : Nat) → Prop
  | decimal : BaseForm [] 10
  | hexadecimal (h : m = 'x' ∨ m = 'X') : BaseForm ['0', m] 16
  | octal (h : m = 'o' ∨ m = 'O') : BaseForm ['0', m] 8
  | binary (h : m = 'b' ∨ m = 'B') : BaseForm ['0', m] 2

/-- A digit of a base, and digits and underscores behind it. -/
inductive RunForm (base : Nat) : List Char → Prop
  | mk (hd : isDigitOf base d = true) (hds : ∀ c ∈ ds, isDigitOf base c = true ∨ c = '_') :
    RunForm base (d :: ds)

/-- An integer numeral with its sign, its base and its digits. -/
inductive IntegerForm : List Char → (negative : Bool) → (base : Nat) → (digits : List Char) → Prop
  | mk (hs : SignForm sign negative) (hb : BaseForm mark base) (hr : RunForm base run) :
    IntegerForm (sign ++ (mark ++ run)) negative base (withoutMarks run)

def IsIntegerNumeral (cs : List Char) : Prop :=
  ∃ negative base digits, IntegerForm cs negative base digits

/-! ## Parts of numerals -/

theorem isDigitRun_iff : isDigitRun base cs = true ↔ RunForm base cs := by
  constructor
  · intro h
    obtain ⟨d, ds, rfl, hd, hds⟩ := isDigitRun_cons h
    exact .mk hd hds
  · rintro ⟨hd, hds⟩
    simp only [isDigitRun, Bool.and_eq_true, List.all_eq_true, Bool.or_eq_true, beq_iff_eq]
    exact ⟨hd, hds⟩

theorem signForm_splitSign (cs : List Char) :
    ∃ sign, SignForm sign (splitSign cs).1 ∧ cs = sign ++ (splitSign cs).2 := by
  rcases splitSign_cases cs with ⟨c, ds, rfl, rfl | rfl, hs⟩ | hs
  · rw [hs]
    exact ⟨['-'], .minus, rfl⟩
  · rw [hs]
    exact ⟨['+'], .plus, rfl⟩
  · rw [hs]
    exact ⟨[], .none, rfl⟩

theorem SignForm.splitSign (h : SignForm sign negative) (hd : isDecimal d = true)
    (ds : List Char) : splitSign (sign ++ d :: ds) = (negative, d :: ds) := by
  cases h with
  | plus | minus => rfl
  | none =>
    rcases splitSign_cases (d :: ds) with ⟨c, cs, he, hc, -⟩ | hs
    · obtain ⟨rfl, -⟩ := List.cons.inj he
      rcases hc with rfl | rfl <;> cases hd
    · exact hs

theorem SignForm.withoutMarks (h : SignForm sign negative) : withoutMarks sign = sign := by
  cases h <;> rfl

theorem baseForm_iff : BaseForm ['0', m] base ↔ markedBase? m = some base := by
  constructor
  · intro h
    cases h with
    | hexadecimal h | octal h | binary h => rcases h with rfl | rfl <;> rfl
  · intro h
    unfold markedBase? at h
    split at h <;> cases h
    · exact .hexadecimal (.inl rfl)
    · exact .hexadecimal (.inr rfl)
    · exact .octal (.inl rfl)
    · exact .octal (.inr rfl)
    · exact .binary (.inl rfl)
    · exact .binary (.inr rfl)

theorem baseForm_splitBase (cs : List Char) :
    ∃ mark, BaseForm mark (splitBase cs).1 ∧ cs = mark ++ (splitBase cs).2 := by
  rcases splitBase_cases cs with ⟨m, ds, base, rfl, hm, hs⟩ | hs
  · rw [hs]
    exact ⟨['0', m], baseForm_iff.mpr hm, rfl⟩
  · rw [hs]
    exact ⟨[], .decimal, rfl⟩

theorem BaseForm.splitBase (h : BaseForm mark base) (hr : RunForm base run) :
    splitBase (mark ++ run) = (base, run) := by
  have marked {m : Char} (hm : BaseForm ['0', m] base) :
      HashIf.splitBase ('0' :: m :: run) = (base, run) := by
    rw [HashIf.splitBase, baseForm_iff.mp hm]
  cases h with
  | decimal => exact splitBase_decimal (isDigitRun_iff.mpr hr)
  | hexadecimal h => exact marked (.hexadecimal h)
  | octal h => exact marked (.octal h)
  | binary h => exact marked (.binary h)

/-- Behind the sign of an integer numeral stands a decimal digit. -/
theorem BaseForm.head (h : BaseForm mark base) (hr : RunForm base run) :
    ∃ d ds, mark ++ run = d :: ds ∧ isDecimal d = true := by
  cases h with
  | decimal =>
    obtain ⟨hd, -⟩ := hr
    exact ⟨_, _, rfl, hd⟩
  | hexadecimal | octal | binary => exact ⟨'0', _, rfl, rfl⟩

theorem withoutMarks_append (cs ds : List Char) :
    withoutMarks (cs ++ ds) = withoutMarks cs ++ withoutMarks ds := List.filter_append ..

/-! ## Integers -/

theorem IntegerForm.isIntegerShape (h : IntegerForm cs negative base digits) :
    isIntegerShape cs = true := by
  obtain ⟨hs, hb, hr⟩ := h
  obtain ⟨d, ds, hc, hd⟩ := hb.head hr
  rw [HashIf.isIntegerShape, hc, hs.splitSign hd ds, ← hc, hb.splitBase hr]
  exact isDigitRun_iff.mpr hr

theorem isIntegerShape_iff : isIntegerShape cs = true ↔ IsIntegerNumeral cs := by
  constructor
  · intro h
    obtain ⟨sign, hs, hcs⟩ := signForm_splitSign cs
    obtain ⟨mark, hb, hmark⟩ := baseForm_splitBase (splitSign cs).2
    have hr : RunForm (splitBase (splitSign cs).2).1 (splitBase (splitSign cs).2).2 :=
      isDigitRun_iff.mp h
    have hform := IntegerForm.mk hs hb hr
    rw [← hmark, ← hcs] at hform
    exact ⟨_, _, _, hform⟩
  · rintro ⟨negative, base, ds, h⟩
    exact h.isIntegerShape

/-- The digits of an integer numeral are digits of its base. -/
theorem IntegerForm.isDigitOf (h : IntegerForm cs negative base ds) :
    ds ≠ [] ∧ ∀ d ∈ ds, isDigitOf base d = true := by
  obtain ⟨-, -, hr⟩ := h
  exact ⟨withoutMarks_ne_nil (isDigitRun_iff.mpr hr), digits_withoutMarks (isDigitRun_iff.mpr hr)⟩

/-- The digits of a decimal numeral are all the decimal digits that are in it. -/
theorem IntegerForm.decimalCount_eq (h : IntegerForm cs negative 10 ds) :
    decimalCount cs = ds.length := by
  obtain @⟨sign, _, mark, _, run, hs, hb, hr⟩ := h
  obtain ⟨d, ds, hd, hdec⟩ := hb.head hr
  have hrun : (splitSign (sign ++ (mark ++ run))).2 = run := by
    rw [hd, hs.splitSign hdec, ← hd]
    cases hb
    rfl
  rw [← decimalCount_splitSign, hrun, decimalCount_run (isDigitRun_iff.mpr hr)]

theorem IntegerForm.integerOfNumeral?_eq (h : IntegerForm s.toList negative base ds) :
    integerOfNumeral? s = (magnitude? base ds).map (signed negative) := by
  have hdigits := h.isDigitOf.2
  have hshape := h.isIntegerShape
  generalize hc : s.toList = cs at h hshape
  obtain ⟨hs, hb, hr⟩ := h
  obtain ⟨d, ds, hd, hdec⟩ := hb.head hr
  have hsign := hs.splitSign hdec ds
  rw [← hd] at hsign
  have hmarks := splitBase_withoutMarks hshape
  rw [hsign, hb.splitBase hr] at hmarks
  have hsplit := splitSign_withoutMarks (congrArg Prod.snd hsign |>.trans hd) hdec
  simp only [integerOfNumeral?, hc, hsplit, hsign, hmarks, integerInBase?_digits hdigits,
    Option.map_map]
  rfl

theorem magnitude?_eq_some_iff (h : ∀ d ∈ ds, isDigitOf base d = true) (hne : ds ≠ []) :
    magnitude? base ds = some n ↔
      (base = 10 → ds.length ≤ decimalDigitLimit) ∧ numeral? base asciiDigitValue? ds = some n := by
  have hall : ds.all (isDigitOf base) = true := List.all_eq_true.mpr h
  simp [magnitude?, hall, hne, numeral?_of_isDigitOf h]

/-- An integer numeral is read as the number that its digits stand for in its base, unless it has
too many. -/
theorem IntegerForm.integerOfNumeral?_eq_some_iff (h : IntegerForm s.toList negative base ds) :
    integerOfNumeral? s = some v ↔ ∃ n, (base = 10 → ds.length ≤ decimalDigitLimit) ∧
      numeral? base asciiDigitValue? ds = some n ∧ signed negative n = v := by
  obtain ⟨hne, hd⟩ := h.isDigitOf
  simp only [h.integerOfNumeral?_eq, Option.map_eq_some_iff, magnitude?_eq_some_iff hd hne,
    and_assoc]

theorem IntegerForm.integerOfNumeral?_eq_none_iff (h : IntegerForm s.toList negative base ds) :
    integerOfNumeral? s = none ↔ base = 10 ∧ decimalDigitLimit < ds.length := by
  obtain ⟨hne, hd⟩ := h.isDigitOf
  rw [h.integerOfNumeral?_eq, Option.map_eq_none_iff, magnitude?_eq_none_iff hd hne]

end HashIf
