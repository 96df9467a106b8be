import HashIf.Proofs.Number.FloatForm
import HashIf.Proofs.Source.Standalone

/-! The parts of number tokens: digits behind a base mark, or digits, a fraction and an exponent.
Digits of other scripts may stand among them; in ASCII such a token is a numeral of its kind, also
behind a sign. -/

namespace HashIf

/-! ## Parts -/

/-- A point with digits and underscores behind it, or nothing. -/
inductive FractionPart : List Char → Prop
  | none : FractionPart []
  | point (h : ∀ c ∈ run, isNumberPart c = true) : FractionPart ('.' :: run)

/-- A letter with a sign and digits behind it, or nothing. -/
inductive ExponentPart : List Char → Prop
  | none : ExponentPart []
  | marked (hm : mark = 'e' ∨ mark = 'E') (hs : SignForm sign negative) (hn : ds ≠ [])
    (hd : ∀ d ∈ ds, isDigit d = true) : ExponentPart (mark :: (sign ++ ds))

/-- What stands behind the first digit of a number token. -/
inductive NumberParts (first : Char) : List Char → Kind → Prop
  | based (hm : markAfterZero? first [mark] = some base) (hr : RunForm base run) :
    NumberParts first (mark :: run) .integer
  | decimal (hm : markAfterZero? first (run ++ (fraction ++ power)) = none)
    (hr : ∀ c ∈ run, isNumberPart c = true) (hf : FractionPart fraction) (he : ExponentPart power) :
    NumberParts first (run ++ (fraction ++ power))
      (if fraction ++ power = [] then .integer else .float)

theorem mem_of_takeWhile_length {p : α → Bool} {xs : List α}
    (h : (xs.takeWhile p).length = xs.length) : ∀ x ∈ xs, p x = true := by
  intro x hx
  rw [← (List.takeWhile_sublist p).eq_of_length h] at hx
  exact List.mem_takeWhile_imp hx

theorem exists_digitExtent (cs : List Char) : ∃ run rest, cs = run ++ rest ∧
    digitExtent cs = run.length ∧ ∀ c ∈ run, isNumberPart c = true :=
  ⟨cs.takeWhile isNumberPart, cs.dropWhile isNumberPart, List.takeWhile_append_dropWhile.symm, rfl,
    fun _ => List.mem_takeWhile_imp⟩

theorem exists_fractionExtent (cs : List Char) : ∃ fraction rest, cs = fraction ++ rest ∧
    fractionExtent cs = fraction.length ∧ FractionPart fraction := by
  cases cs with
  | nil => exact ⟨[], [], rfl, rfl, .none⟩
  | cons c cs =>
    by_cases hc : c = '.'
    · subst hc
      rw [fractionExtent]
      split
      · exact ⟨[], _, rfl, rfl, .none⟩
      · obtain ⟨run, rest, hcs, hlen, hrun⟩ := exists_digitExtent cs
        refine ⟨'.' :: run, rest, by rw [hcs, List.cons_append], ?_, .point hrun⟩
        rw [hlen, List.length_cons, Nat.add_comm]
    · exact ⟨[], _, rfl, fractionExtent_of_ne hc, .none⟩

theorem exists_signExtent (cs : List Char) : ∃ sign negative rest, cs = sign ++ rest ∧
    signExtent cs = sign.length ∧ SignForm sign negative := by
  cases cs with
  | nil => exact ⟨[], false, [], rfl, rfl, .none⟩
  | cons c cs =>
    by_cases hp : c = '+'
    · subst hp
      exact ⟨['+'], false, cs, rfl, rfl, .plus⟩
    by_cases hm : c = '-'
    · subst hm
      exact ⟨['-'], true, cs, rfl, rfl, .minus⟩
    · refine ⟨[], false, _, rfl, ?_, .none⟩
      have hc : ¬(firstOrNul (c :: cs) == '+' || firstOrNul (c :: cs) == '-') = true := by
        simp [firstOrNul, hp, hm]
      rw [signExtent, if_neg hc, List.length_nil]

theorem exponentPart_of_extent (h : exponentExtent cs = .ok cs.length) : ExponentPart cs := by
  rcases exponentExtent_spec h with hn | ⟨mark, ds, rfl, hm, hn, hlen⟩
  · rw [List.eq_nil_of_length_eq_zero hn]
    exact .none
  · obtain ⟨sign, negative, rest, rfl, hs, hsign⟩ := exists_signExtent ds
    rw [hs, List.drop_left] at hn hlen
    rw [List.length_cons, List.length_append] at hlen
    have hrest : ∀ d ∈ rest, isDigit d = true := mem_of_takeWhile_length (by omega)
    simp only [Bool.or_eq_true, beq_iff_eq] at hm
    refine .marked hm hsign ?_ hrest
    rintro rfl
    exact hn rfl

theorem numberParts_of_extent (h : numberExtent first cs = .ok (kind, cs.length)) :
    NumberParts first cs kind := by
  rcases numberExtent_cases h with
    ⟨base, mark, ds, k, rfl, hm, hk, rfl, hlen⟩ | ⟨x, hm, hx, hlen, rfl⟩
  · obtain ⟨hd, rfl⟩ := basedExtent_spec hk
    rw [List.length_cons] at hlen
    have hall : ∀ c ∈ ds, (isDigitOf base c || c == '_') = true :=
      mem_of_takeWhile_length (by omega)
    obtain ⟨d, ds, rfl, hd⟩ := of_firstOrNul hd rfl
    refine .based hm (.mk hd fun c hc => ?_)
    simpa using hall c (List.mem_cons_of_mem _ hc)
  · obtain ⟨run, rest, rfl, hw, hr⟩ := exists_digitExtent cs
    rw [hw, ← List.drop_drop, List.drop_left] at hx
    rw [hw, List.drop_left] at hlen ⊢
    obtain ⟨fraction, power, rfl, hf, hfraction⟩ := exists_fractionExtent rest
    rw [hf] at hlen hx ⊢
    rw [List.drop_left] at hx
    obtain rfl : x = power.length := by
      simp only [List.length_append] at hlen
      omega
    have hkind : fraction.length + power.length = 0 ↔ fraction ++ power = [] := by
      rw [← List.length_append, List.length_eq_zero_iff]
    simp only [hkind]
    exact .decimal hm hr hfraction (exponentPart_of_extent hx)

/-- Number tokens have the parts of numbers. -/
theorem Standalone.numberParts (h : Standalone kind cs) (hk : kind = .integer ∨ kind = .float) :
    ∃ c ds, cs = c :: ds ∧ isDigit c = true ∧ NumberParts c ds kind := by
  obtain ⟨h⟩ := h
  obtain ⟨-, -, hx, -⟩ := nextPiece_token_iff.mp h
  obtain ⟨hd, hn⟩ := (lexemeExtent_iff.mp hx).numberExtent hk
  exact ⟨_, _, rfl, hd, numberParts_of_extent hn⟩

/-! ## Letters of numbers -/

theorem unnamed_of_isDigit (h : isDigit c = true) : c ≠ 'n' ∧ c ≠ 'N' := by
  constructor
  · rintro rfl
    cases h
  · rintro rfl
    cases h

theorem unnamed_of_isNumberPart (h : isNumberPart c = true) : c ≠ 'n' ∧ c ≠ 'N' := by
  rw [isNumberPart, Bool.or_eq_true, beq_iff_eq] at h
  rcases h with h | rfl
  · exact unnamed_of_isDigit h
  · decide

theorem FractionPart.unnamed (h : FractionPart fraction) : ∀ c ∈ fraction, c ≠ 'n' ∧ c ≠ 'N' := by
  cases h with
  | none => exact nofun
  | point h =>
    refine List.forall_mem_cons.mpr ⟨⟨nofun, nofun⟩, ?_⟩
    intro c hc
    exact unnamed_of_isNumberPart (h c hc)

theorem ExponentPart.unnamed (h : ExponentPart power) : ∀ c ∈ power, c ≠ 'n' ∧ c ≠ 'N' := by
  cases h with
  | none => exact nofun
  | marked hm hs _ hd =>
    refine List.forall_mem_cons.mpr ⟨?_, List.forall_mem_append.mpr ⟨?_, ?_⟩⟩
    · rcases hm with rfl | rfl <;> exact ⟨nofun, nofun⟩
    · intro c hc
      exact (hs.isFloatChar c hc).unnamed
    · intro c hc
      exact unnamed_of_isDigit (hd c hc)

/-- The only letters of a float token are those of its exponent. -/
theorem NumberParts.unnamed (h : NumberParts c cs .float) (hd : isDigit c = true) :
    ∀ d ∈ c :: cs, d ≠ 'n' ∧ d ≠ 'N' := by
  generalize hk : Kind.float = kind at h
  cases h with
  | based => cases hk
  | decimal hm hr hf he =>
    simp only [List.forall_mem_cons, List.forall_mem_append]
    exact ⟨unnamed_of_isDigit hd, fun d hd => unnamed_of_isNumberPart (hr d hd), hf.unnamed,
      he.unnamed⟩

/-! ## Numbers in ASCII -/

theorem isDecimal_of_isDigit (h : isDigit c = true) (hc : c.toNat < 128) : isDecimal c = true := by
  have hv : (decide ('0' ≤ c) && decide (c ≤ '9')) = true := by
    have hn : ¬128 ≤ c.toNat := by omega
    simpa [isDigit, decimalValue?, hc, hn] using h
  rw [isDecimal, isDigitOf, asciiDigitValue?, if_pos hv]
  have hle : c.toNat ≤ 57 := of_decide_eq_true (Bool.and_eq_true_iff.mp hv).2
  exact decide_eq_true (by omega)

theorem isDecimal_or_of_isNumberPart (h : isNumberPart c = true) (hc : c.toNat < 128) :
    isDecimal c = true ∨ c = '_' := by
  rw [isNumberPart, Bool.or_eq_true, beq_iff_eq] at h
  exact h.imp_left fun h => isDecimal_of_isDigit h hc

theorem FractionPart.fractionForm (h : FractionPart fraction) (ha : ∀ c ∈ fraction, c.toNat < 128) :
    ∃ ds, FractionForm fraction ds := by
  cases h with
  | none => exact ⟨[], .none⟩
  | point h =>
    obtain ⟨-, ha⟩ := List.forall_mem_cons.mp ha
    exact ⟨_, .point fun c hc => isDecimal_or_of_isNumberPart (h c hc) (ha c hc)⟩

theorem ExponentPart.exponentForm (h : ExponentPart power) (ha : ∀ c ∈ power, c.toNat < 128) :
    ∃ e, ExponentForm power e := by
  cases h with
  | none => exact ⟨0, .none⟩
  | marked hm hs hn hd =>
    obtain ⟨-, ha⟩ := List.forall_mem_cons.mp ha
    obtain ⟨-, ha⟩ := List.forall_mem_append.mp ha
    have hdec := fun d hm => isDecimal_of_isDigit (hd d hm) (ha d hm)
    obtain ⟨d, ds, rfl⟩ := List.exists_cons_of_ne_nil hn
    obtain ⟨hd, hds⟩ := List.forall_mem_cons.mp hdec
    have hr : RunForm 10 (d :: ds) := .mk hd fun c hc => .inl (hds c hc)
    exact ⟨_, .marked hm hs hr hr.numeral?⟩

section

variable {c : Char} {cs : List Char} (hd : isDigit c = true) (ha : ∀ d ∈ c :: cs, d.toNat < 128)

include hd ha

theorem runForm_of_isDigit {run : List Char} (hr : ∀ d ∈ run, isNumberPart d = true)
    (hs : run <+: cs) : RunForm 10 (c :: run) := by
  obtain ⟨hc, ha⟩ := List.forall_mem_cons.mp ha
  exact .mk (isDecimal_of_isDigit hd hc) fun d hm =>
    isDecimal_or_of_isNumberPart (hr d hm) (ha d (hs.subset hm))

/-- An integer token in ASCII is an integer numeral behind any sign. -/
theorem NumberParts.integerForm (h : NumberParts c cs .integer) : ∃ base ds, ∀ sign negative,
    SignForm sign negative → IntegerForm (sign ++ c :: cs) negative base ds := by
  generalize hk : Kind.integer = kind at h
  cases h with
  | @based mark base run hm hr =>
    rw [markAfterZero?] at hm
    split at hm
    · next hc =>
      rw [eq_of_beq hc]
      exact ⟨base, _, fun sign negative hs => .mk hs (baseForm_iff.mpr hm) hr⟩
    · cases hm
  | @decimal run fraction power hm hr hf he =>
    split at hk
    · next hn =>
      rw [hn, List.append_nil] at ha ⊢
      exact ⟨10, _, fun sign negative hs =>
        .mk hs .decimal (runForm_of_isDigit hd ha hr (List.prefix_refl run))⟩
    · cases hk

omit ha in
/-- What goes on behind decimal digits with a point or an exponent is no integer numeral. -/
theorem not_isIntegerNumeral (hm : markAfterZero? c cs = none) (hc : c.toNat < 128)
    (hs : SignForm sign negative) (hp : d ∈ cs) (hdp : isDecimalPart d = false) :
    ¬IsIntegerNumeral (sign ++ c :: cs) := by
  intro hi
  have hbase : splitBase (c :: cs) = (10, c :: cs) := by
    rcases splitBase_cases (c :: cs) with ⟨m, ds, base, he, hb, -⟩ | hb
    · obtain ⟨rfl, rfl⟩ := List.cons.inj he
      rw [markAfterZero?, hb] at hm
      cases hm
    · exact hb
  rw [← isIntegerShape_iff, isIntegerShape, hs.splitSign (isDecimal_of_isDigit hd hc), hbase] at hi
  have hall := (isDigitRun_iff.mp hi).isDecimalPart d (List.mem_cons_of_mem c hp)
  rw [hdp] at hall
  cases hall

/-- A float token in ASCII is a float numeral behind any sign, and no integer numeral. -/
theorem NumberParts.floatForm (h : NumberParts c cs .float) : ∃ count m e, ∀ sign negative,
    SignForm sign negative → ¬IsIntegerNumeral (sign ++ c :: cs) ∧
      FloatForm (sign ++ c :: cs) (.ofDecimal negative count m e) := by
  generalize hk : Kind.float = kind at h
  cases h with
  | based => cases hk
  | @decimal run fraction power hm hr hf he =>
    split at hk
    · cases hk
    next hn =>
    have hrun := runForm_of_isDigit hd ha hr (List.prefix_append _ _)
    obtain ⟨hc, ha⟩ := List.forall_mem_cons.mp ha
    obtain ⟨hfa, hea⟩ := List.forall_mem_append.mp (List.forall_mem_append.mp ha).2
    obtain ⟨ds, hf⟩ := hf.fractionForm hfa
    obtain ⟨e, he⟩ := he.exponentForm hea
    obtain ⟨d, rest, hrest⟩ := List.exists_cons_of_ne_nil hn
    have hpart : isDecimalPart d = false := not_isDecimalPart (hf.head he d (by rw [hrest]; rfl))
    have hmem : d ∈ run ++ (fraction ++ power) := by simp [hrest]
    exact ⟨_, _, _, fun sign negative hs => ⟨not_isIntegerNumeral hd hm hc hs hmem hpart,
      .mk hs hrun hf he (numeral?_of_isDigitOf (hf.isDigitOf_append hrun))⟩⟩

end

end HashIf
