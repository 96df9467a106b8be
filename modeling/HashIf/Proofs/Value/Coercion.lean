import HashIf.Proofs.Number.FloatForm
import HashIf.Value

/-! What raw texts stand for: the two words for truth values, then integer numerals, then float
numerals, and all other texts for themselves. Only a decimal numeral can be too long. -/

namespace HashIf

/-- The datum that a raw text denotes. -/
inductive Denotes (s : String) : Datum → Prop
  | trueWord (h : s = "true") : Denotes s (.bool true)
  | falseWord (h : s = "false") : Denotes s (.bool false)
  | integer (h : IntegerForm s.toList negative base digits)
    (hl : base = 10 → digits.length ≤ decimalDigitLimit)
    (hn : numeral? base asciiDigitValue? digits = some n) : Denotes s (.int (signed negative n))
  | float (hi : ¬IsIntegerNumeral s.toList) (h : FloatForm s.toList x) : Denotes s (.float x)
  | string (ht : s ≠ "true") (hf : s ≠ "false") (hi : ¬IsIntegerNumeral s.toList)
    (hx : ¬IsFloatNumeral s.toList) : Denotes s (.string (Text.ofString s))

theorem numeral_ne_words (h : IsIntegerNumeral s.toList ∨ IsFloatNumeral s.toList) :
    s ≠ "true" ∧ s ≠ "false" := by
  rw [← isIntegerShape_iff, ← isFloatShape_iff] at h
  constructor
  · rintro rfl
    rcases h with h | h <;> cases h
  · rintro rfl
    rcases h with h | h <;> cases h

namespace Datum

theorem ofString_of_integer (h : IsIntegerNumeral s.toList) :
    ofString s = match integerOfNumeral? s with
      | some v => .ok (.int v)
      | none => .error (.numeral (decimalCount s.toList)) := by
  obtain ⟨ht, hf⟩ := numeral_ne_words (.inl h)
  refine (if_neg ht).trans ((if_neg hf).trans ((if_pos (isIntegerShape_iff.mpr h)).trans ?_))
  cases integerOfNumeral? s <;> rfl

theorem ofString_of_float (hi : ¬IsIntegerNumeral s.toList) (h : FloatForm s.toList x) :
    ofString s = .ok (.float x) := by
  obtain ⟨ht, hf⟩ := numeral_ne_words (.inr ⟨x, h⟩)
  rw [ofString, if_neg ht, if_neg hf, if_neg (mt isIntegerShape_iff.mp hi), if_pos h.isFloatShape,
    h.binary64OfNumeral?]

/-- A raw text is read as the datum that it denotes. -/
theorem ofString_eq_ok_iff : ofString s = .ok d ↔ Denotes s d := by
  constructor
  · intro h
    by_cases hi : IsIntegerNumeral s.toList
    · rw [ofString_of_integer hi] at h
      obtain ⟨negative, base, digits, hform⟩ := hi
      split at h
      · next v hv =>
        cases h
        obtain ⟨n, hl, hn, rfl⟩ := hform.integerOfNumeral?_eq_some_iff.mp hv
        exact .integer hform hl hn
      · cases h
    by_cases hx : IsFloatNumeral s.toList
    · obtain ⟨x, hx⟩ := hx
      rw [ofString_of_float hi hx] at h
      cases h
      exact .float hi hx
    rw [ofString] at h
    split at h
    · next ht =>
      cases h
      exact .trueWord ht
    split at h
    · next hf =>
      cases h
      exact .falseWord hf
    · next ht hf =>
      rw [if_neg (mt isIntegerShape_iff.mp hi), if_neg (mt isFloatShape_iff.mp hx)] at h
      cases h
      exact .string ht hf hi hx
  · intro h
    cases h with
    | trueWord h => exact if_pos h
    | falseWord h =>
      subst h
      rfl
    | integer h hl hn =>
      rw [ofString_of_integer ⟨_, _, _, h⟩, h.integerOfNumeral?_eq_some_iff.mpr ⟨_, hl, hn, rfl⟩]
    | float hi h => exact ofString_of_float hi h
    | string ht hf hi hx =>
      rw [ofString, if_neg ht, if_neg hf, if_neg (mt isIntegerShape_iff.mp hi),
        if_neg (mt isFloatShape_iff.mp hx)]

/-- A raw text is read as no datum if it is a decimal numeral of too many digits, and their number
is reported. -/
theorem ofString_eq_error_iff : ofString s = .error x ↔
    ∃ negative digits, x = .numeral digits.length ∧ IntegerForm s.toList negative 10 digits ∧
      decimalDigitLimit < digits.length := by
  rw [ofString_error_iff]
  constructor
  · rintro ⟨rfl, hl⟩
    have hs := isIntegerShape_of_long hl
    obtain ⟨negative, base, digits, h⟩ := isIntegerShape_iff.mp hs
    obtain ⟨rfl, hlen⟩ :=
      h.integerOfNumeral?_eq_none_iff.mp ((integerOfNumeral?_eq_none_iff hs).mpr hl)
    exact ⟨negative, digits, by rw [h.decimalCount_eq], h, hlen⟩
  · rintro ⟨negative, digits, rfl, h, hlen⟩
    refine ⟨by rw [h.decimalCount_eq], ?_⟩
    exact (integerOfNumeral?_eq_none_iff h.isIntegerShape).mp
      (h.integerOfNumeral?_eq_none_iff.mpr ⟨rfl, hlen⟩)

end Datum

/-- Coercion gives the raw text with the datum that it denotes, unless the text is a decimal numeral
of too many digits. Then the number of digits is reported. -/
theorem Value.ofString_denotes (s : String) :
    (∀ v, Value.ofString s = .ok v ↔ v.raw = Text.ofString s ∧ Denotes s v.datum) ∧
    ∀ x, Value.ofString s = .error x ↔
      ∃ negative digits, x = .numeral digits.length ∧ IntegerForm s.toList negative 10 digits ∧
        decimalDigitLimit < digits.length := by
  refine ⟨fun v => ?_, fun x => ?_⟩
  · rw [← Datum.ofString_eq_ok_iff, Value.ofString]
    cases Datum.ofString s with
    | error x => simp
    | ok d =>
      obtain ⟨datum, raw⟩ := v
      simp [and_comm, eq_comm]
  · rw [← Datum.ofString_eq_error_iff, Value.ofString]
    cases Datum.ofString s <;> simp

end HashIf
