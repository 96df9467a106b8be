import HashIf.Proofs.Source.Lookahead

/-! The tokens at the head of a text. A token is read in front of a break as at the end of the text,
a single quote aside, which a blank and another quote make a literal; and its characters are a token
of the same kind by themselves. -/

namespace HashIf

/-! ## Numbers by themselves -/

theorem takeWhile_take {p : Char → Bool} {cs : List Char} {n : Nat}
    (h : (cs.takeWhile p).length ≤ n) :
    (cs.take n).takeWhile p = cs.takeWhile p := by
  induction cs generalizing n with
  | nil => rw [List.take_nil]
  | cons c cs ih =>
    by_cases hc : p c = true
    · rw [List.takeWhile_cons_of_pos hc, List.length_cons] at h
      obtain ⟨n, rfl⟩ : ∃ m, n = m + 1 := ⟨n - 1, by omega⟩
      rw [List.take_succ_cons, List.takeWhile_cons_of_pos hc, List.takeWhile_cons_of_pos hc,
        ih (by omega)]
    · cases n with
      | zero => rw [List.take_zero, List.takeWhile_nil, List.takeWhile_cons_of_neg hc]
      | succ n =>
        rw [List.take_succ_cons, List.takeWhile_cons_of_neg hc, List.takeWhile_cons_of_neg hc]

theorem digitExtent_take {n : Nat} (h : digitExtent cs ≤ n) :
    digitExtent (cs.take n) = digitExtent cs := by
  rw [digitExtent, takeWhile_take h, digitExtent]

theorem firstOrNul_take {n : Nat} (h : n ≠ 0) : firstOrNul (cs.take n) = firstOrNul cs := by
  obtain ⟨n, rfl⟩ := Nat.exists_eq_succ_of_ne_zero h
  cases cs <;> rfl

/-- What an exponent takes is nothing, or a letter, a sign and digits. -/
theorem exponentExtent_spec (h : exponentExtent cs = .ok n) :
    n = 0 ∨ ∃ e ds, cs = e :: ds ∧ (e == 'e' || e == 'E') = true ∧
      ((ds.drop (signExtent ds)).takeWhile isDigit).length ≠ 0 ∧
      n = 1 + signExtent ds + ((ds.drop (signExtent ds)).takeWhile isDigit).length := by
  cases cs with
  | nil =>
    cases h
    exact .inl rfl
  | cons e ds =>
    rw [exponentExtent] at h
    split at h
    · next he =>
      dsimp only at h
      split at h
      · cases h
      · next hn =>
        cases h
        exact .inr ⟨e, ds, rfl, he, hn, rfl⟩
    · cases h
      exact .inl rfl

theorem exponentExtent_le (h : exponentExtent cs = .ok n) : n ≤ cs.length := by
  rcases exponentExtent_spec h with rfl | ⟨e, ds, rfl, -, -, rfl⟩
  · exact Nat.zero_le _
  · have hs := signExtent_le ds
    have hd := length_takeWhile_le isDigit (ds.drop (signExtent ds))
    rw [List.length_drop] at hd
    rw [List.length_cons]
    omega

theorem exponentExtent_take (h : exponentExtent cs = .ok n) :
    exponentExtent (cs.take n) = .ok n := by
  rcases exponentExtent_spec h with rfl | ⟨e, ds, rfl, he, hn, hk⟩
  · rfl
  · have htake : (e :: ds).take n = e :: ds.take (n - 1) := by
      rw [hk, Nat.add_assoc, Nat.add_comm 1, List.take_succ_cons, Nat.add_sub_cancel]
    have hsign : signExtent (ds.take (n - 1)) = signExtent ds := by
      rw [signExtent, firstOrNul_take (by omega), signExtent]
    have hdigits : ((ds.take (n - 1)).drop (signExtent ds)).takeWhile isDigit =
        (ds.drop (signExtent ds)).takeWhile isDigit := by
      rw [List.drop_take]
      exact takeWhile_take (by omega)
    simp only [htake, exponentExtent, if_pos he, hsign, hdigits, if_neg hn, ← hk]

/-- A fraction is read as such from the characters that it and the exponent behind it take. -/
theorem fractionExtent_take (h : exponentExtent (cs.drop (fractionExtent cs)) = .ok n) :
    fractionExtent (cs.take (fractionExtent cs + n)) = fractionExtent cs := by
  cases cs with
  | nil => rw [List.take_nil]
  | cons c cs =>
    by_cases hc : c = '.'
    · subst hc
      by_cases hp : (firstOrNul cs == '.' || isWordStart (firstOrNul cs)) = true
      · have hf : fractionExtent ('.' :: cs) = 0 := if_pos hp
        rw [hf, List.drop_zero] at h
        cases h
        rw [hf]
        rfl
      · have hf : fractionExtent ('.' :: cs) = 1 + digitExtent cs := if_neg hp
        have ht : ('.' :: cs).take (1 + digitExtent cs + n) =
            '.' :: cs.take (digitExtent cs + n) := by
          rw [Nat.add_assoc, Nat.add_comm 1, List.take_succ_cons]
        have hp' : ¬(firstOrNul (cs.take (digitExtent cs + n)) == '.' ||
            isWordStart (firstOrNul (cs.take (digitExtent cs + n)))) = true := by
          by_cases hz : digitExtent cs + n = 0
          · rw [hz, List.take_zero]
            decide
          · rwa [firstOrNul_take hz]
        rw [hf, ht, fractionExtent, if_neg hp', digitExtent_take (Nat.le_add_right _ _)]
    · have hf : fractionExtent (c :: cs) = 0 := fractionExtent_of_ne hc
      rw [hf, Nat.zero_add]
      cases n with
      | zero => rfl
      | succ n => exact fractionExtent_of_ne hc

/-- How a number is read: with a base mark, or with a fraction and an exponent. -/
theorem numberExtent_cases (h : numberExtent c cs = .ok (kind, n)) :
    (∃ base m ds k, cs = m :: ds ∧ markAfterZero? c (m :: ds) = some base ∧
      basedExtent base ds = .ok k ∧ kind = .integer ∧ n = 1 + k) ∨
    ∃ x, markAfterZero? c cs = none ∧
      exponentExtent (cs.drop (digitExtent cs + fractionExtent (cs.drop (digitExtent cs)))) =
        .ok x ∧
      n = digitExtent cs + fractionExtent (cs.drop (digitExtent cs)) + x ∧
      kind = if fractionExtent (cs.drop (digitExtent cs)) + x = 0 then .integer else .float := by
  simp only [numberExtent] at h
  split at h
  · next base hm =>
    cases cs with
    | nil => cases hm
    | cons m ds =>
      split at h
      · next k hk =>
        cases h
        exact .inl ⟨base, m, ds, k, rfl, hm, hk, rfl, rfl⟩
      · cases h
  · next hm =>
    split at h
    · next x hx =>
      cases h
      exact .inr ⟨x, hm, hx, rfl, rfl⟩
    · cases h

theorem basedExtent_spec (h : basedExtent base cs = .ok n) :
    isDigitOf base (firstOrNul cs) = true ∧
      n = (cs.takeWhile fun c => isDigitOf base c || c == '_').length := by
  rw [basedExtent] at h
  split at h
  · next hd =>
    cases h
    exact ⟨hd, rfl⟩
  · cases h

theorem basedExtent_take (h : basedExtent base cs = .ok n) :
    basedExtent base (cs.take n) = .ok n := by
  obtain ⟨hd, hn⟩ := basedExtent_spec h
  obtain ⟨d, ds, rfl, hd'⟩ := of_firstOrNul hd rfl
  have hz : n ≠ 0 := by
    rw [hn, List.takeWhile_cons_of_pos (by rw [hd']; rfl)]
    exact Nat.succ_ne_zero _
  rw [basedExtent, firstOrNul_take hz, if_pos hd, takeWhile_take hn.ge, ← hn]

theorem numberExtent_le (h : numberExtent c cs = .ok (kind, n)) : n ≤ cs.length := by
  rcases numberExtent_cases h with ⟨base, m, ds, k, rfl, -, hk, -, rfl⟩ | ⟨x, -, hx, rfl, -⟩
  · have := length_takeWhile_le (fun c => isDigitOf base c || c == '_') ds
    rw [(basedExtent_spec hk).2, List.length_cons]
    omega
  · have hw : digitExtent cs ≤ cs.length := length_takeWhile_le isNumberPart cs
    have hf := fractionExtent_le (cs.drop (digitExtent cs))
    have hx := exponentExtent_le hx
    rw [List.length_drop] at hf hx
    omega

theorem numberExtent_take (h : numberExtent c cs = .ok (kind, n)) :
    numberExtent c (cs.take n) = .ok (kind, n) := by
  rcases numberExtent_cases h with ⟨base, m, ds, k, rfl, hm, hk, rfl, rfl⟩ | ⟨x, hm, hx, hn, rfl⟩
  · have ht : (m :: ds).take (1 + k) = m :: ds.take k := by rw [Nat.add_comm, List.take_succ_cons]
    have hm' : markAfterZero? c (m :: ds.take k) = some base := hm
    simp only [numberExtent, ht, hm', List.drop_succ_cons, List.drop_zero, basedExtent_take hk]
  · rw [← List.drop_drop] at hx
    have hm' : markAfterZero? c (cs.take n) = none := by
      cases cs with
      | nil => rw [List.take_nil]; rfl
      | cons m ds =>
        cases n with
        | zero => rfl
        | succ => exact hm
    have hw : digitExtent (cs.take n) = digitExtent cs := digitExtent_take (by omega)
    have hd : (cs.take n).drop (digitExtent cs) = (cs.drop (digitExtent cs)).take
        (fractionExtent (cs.drop (digitExtent cs)) + x) := by
      rw [List.drop_take]
      congr 1
      omega
    have hf := fractionExtent_take hx
    have he : (cs.take n).drop (digitExtent cs + fractionExtent (cs.drop (digitExtent cs))) =
        ((cs.drop (digitExtent cs)).drop (fractionExtent (cs.drop (digitExtent cs)))).take x := by
      rw [← List.drop_drop, hd, List.drop_take, Nat.add_sub_cancel_left]
    simp only [numberExtent, hm', hw, hd, hf, he, exponentExtent_take hx, ← hn]

/-! ## Lexemes -/

/-- How the token that begins with `c` is read, by what it begins with. -/
inductive LexemeAt (c : Char) (cs : List Char) : Kind → Nat → Prop
  | word (h : isWordStart c = true) :
    LexemeAt c cs (.ofWord (String.ofList (c :: cs.take (wordExtent cs)))) (wordExtent cs)
  | number (hw : ¬isWordStart c = true) (hd : isDigit c = true)
    (h : numberExtent c cs = .ok (kind, n)) : LexemeAt c cs kind n
  | hashWord (hc : c = '#') (h : isWordStart (firstOrNul cs) = true) :
    LexemeAt c cs .hashWord (wordExtent cs)
  | string (hc : c = '"') (h : stringExtent cs = .ok n) : LexemeAt c cs .string n
  | character (hc : c = '\'') (h : characterExtent? cs = some n) : LexemeAt c cs .character n
  | quote (hc : c = '\'') (h : characterExtent? cs = none) : LexemeAt c cs (.ofSymbol ['\'']) 0
  | symbol (hw : ¬isWordStart c = true) (hd : ¬isDigit c = true)
    (hh : ¬(decide (c = '#') && isWordStart (firstOrNul cs)) = true) (hs : c ≠ '"') (hq : c ≠ '\'')
    (h : symbolExtent c cs = .ok n) : LexemeAt c cs (.ofSymbol (c :: cs.take n)) n

theorem lexemeExtent_iff : lexemeExtent c cs = .ok (kind, n) ↔ LexemeAt c cs kind n := by
  constructor
  · intro h
    simp only [lexemeExtent] at h
    split at h
    · next hw =>
      cases h
      exact .word hw
    split at h
    · next hw hd => exact .number hw hd h
    split at h
    · next hh =>
      cases h
      simp only [Bool.and_eq_true, decide_eq_true_eq] at hh
      exact .hashWord hh.1 hh.2
    split at h
    · next hc =>
      split at h <;> cases h
      next hs => exact .string hc hs
    split at h
    · next hc =>
      split at h <;> cases h
      · next hs => exact .character hc hs
      · next hs => exact .quote hc hs
    · next hw hd hh hs hq =>
      split at h <;> cases h
      next hn => exact .symbol hw hd hh hs hq hn
  · intro h
    cases h with
    | word h => exact if_pos h
    | number hw hd h => rw [lexemeExtent, if_neg hw, if_pos hd, h]
    | hashWord hc h =>
      subst hc
      rw [lexemeExtent, if_neg (by decide), if_neg (by decide), h]
      rfl
    | string hc h =>
      subst hc
      rw [lexemeExtent, if_neg (by decide), if_neg (by decide), if_neg (by simp), if_pos rfl, h]
    | character hc h | quote hc h =>
      subst hc
      rw [lexemeExtent, if_neg (by decide), if_neg (by decide), if_neg (by simp),
        if_neg (by decide), if_pos rfl, h]
    | symbol hw hd hh hs hq h =>
      rw [lexemeExtent, if_neg hw, if_neg hd, if_neg hh, if_neg hs, if_neg hq, h]

theorem symbolExtent_spec (h : symbolExtent c cs = .ok n) :
    pairSymbols.contains (c, firstOrNul cs) = true ∧ n = 1 ∨
      pairSymbols.contains (c, firstOrNul cs) = false ∧ n = 0 ∧
        singleSymbols.contains c = true := by
  rw [symbolExtent] at h
  split at h
  · next hp =>
    cases h
    exact .inl ⟨hp, rfl⟩
  split at h
  · next hp hs =>
    cases h
    exact .inr ⟨Bool.eq_false_iff.mpr hp, rfl, hs⟩
  · cases h

theorem symbolExtent_le (h : symbolExtent c cs = .ok n) : n ≤ cs.length := by
  rcases symbolExtent_spec h with ⟨hp, rfl⟩ | ⟨-, rfl, -⟩
  · obtain ⟨d, cs, rfl, -⟩ := of_firstOrNul (p := fun d => pairSymbols.contains (c, d)) hp
      (not_pair_nul c)
    simp
  · exact Nat.zero_le _

theorem lexemeExtent_le (h : lexemeExtent c cs = .ok (kind, n)) : n ≤ cs.length := by
  rw [lexemeExtent_iff] at h
  cases h with
  | word | hashWord => exact wordExtent_le cs
  | number _ _ h => exact numberExtent_le h
  | string _ h => exact stringExtent_le h
  | character _ h => exact characterExtent?_le h
  | quote => exact Nat.zero_le _
  | symbol hw hd hh hs hq h => exact symbolExtent_le h

/-- In front of such a character a token is read as at the end of the text, if a single quote is. -/
theorem lexemeExtent_append (hb : Ends b) (h : lexemeExtent c cs = .ok (kind, n))
    (hq : c = '\'' → characterExtent? (cs ++ b :: ds) = characterExtent? cs) :
    lexemeExtent c (cs ++ b :: ds) = .ok (kind, n) := by
  have start : isWordStart (firstOrNul (cs ++ b :: ds)) = isWordStart (firstOrNul cs) :=
    firstOrNul_append_break hb.isWordStart
  have take : (cs ++ b :: ds).take n = cs.take n :=
    List.take_append_of_le_length (lexemeExtent_le h)
  rw [lexemeExtent_iff] at h ⊢
  cases h with
  | word h =>
    rw [← take, ← wordExtent_append hb]
    exact .word h
  | number hw hd h => exact .number hw hd ((numberExtent_append hb c).trans h)
  | hashWord hc h =>
    rw [← wordExtent_append hb]
    exact .hashWord hc (start.trans h)
  | string hc h => exact .string hc (stringExtent_append h)
  | character hc h => exact .character hc ((hq hc).trans h)
  | quote hc h => exact .quote hc ((hq hc).trans h)
  | symbol hw hd hh hs hq h =>
    rw [← take]
    exact .symbol hw hd (start ▸ hh) hs hq ((symbolExtent_append hb c).trans h)

/-- A token that ends in front of such a character is read there as at the end of the text. -/
theorem lexemeExtent_of_append (hb : Ends b) (h : lexemeExtent c (cs ++ b :: ds) = .ok (kind, n))
    (hn : n ≤ cs.length)
    (hq : c = '\'' → characterExtent? (cs ++ b :: ds) = characterExtent? cs) :
    lexemeExtent c cs = .ok (kind, n) := by
  have start : isWordStart (firstOrNul (cs ++ b :: ds)) = isWordStart (firstOrNul cs) :=
    firstOrNul_append_break hb.isWordStart
  have take : (cs ++ b :: ds).take n = cs.take n := List.take_append_of_le_length hn
  rw [lexemeExtent_iff] at h ⊢
  cases h with
  | word h =>
    rw [take, wordExtent_append hb]
    exact .word h
  | number hw hd h => exact .number hw hd ((numberExtent_append hb c).symm.trans h)
  | hashWord hc h =>
    rw [wordExtent_append hb]
    exact .hashWord hc (start.symm.trans h)
  | string hc h =>
    refine .string hc ?_
    have ht : stringExtent (cs.take n) = .ok n := take ▸ stringExtent_take h
    have hcs : stringExtent (cs.take n ++ cs.drop n) = .ok n := stringExtent_append ht
    rwa [List.take_append_drop] at hcs
  | character hc h => exact .character hc ((hq hc).symm.trans h)
  | quote hc h => exact .quote hc ((hq hc).symm.trans h)
  | symbol hw hd hh hs hq h =>
    rw [take]
    exact .symbol hw hd (start ▸ hh) hs hq ((symbolExtent_append hb c).symm.trans h)

theorem wordExtent_take (cs : List Char) : wordExtent (cs.take (wordExtent cs)) = wordExtent cs :=
  congrArg List.length (takeWhile_take (Nat.le_refl _))

theorem wordExtent_ne_zero (h : isWordStart (firstOrNul cs) = true) : wordExtent cs ≠ 0 := by
  obtain ⟨d, ds, rfl, hd⟩ := of_firstOrNul h (by decide)
  rw [wordExtent, List.takeWhile_cons_of_pos (isWordPart_of_isWordStart hd)]
  exact Nat.succ_ne_zero _

/-- The characters of a token are a token by themselves, and of the same kind, except for the quote
that is taken of the literal of NUL. -/
theorem lexemeExtent_take (h : lexemeExtent c cs = .ok (kind, n)) (hn : kind = .character → n ≠ 0) :
    lexemeExtent c (cs.take n) = .ok (kind, n) := by
  rw [lexemeExtent_iff] at h ⊢
  cases h with
  | word h =>
    have hw : LexemeAt c (cs.take (wordExtent cs)) _ _ := .word h
    rwa [wordExtent_take, List.take_take, Nat.min_self] at hw
  | number hw hd h => exact .number hw hd (numberExtent_take h)
  | hashWord hc h =>
    have hf := h
    rw [← firstOrNul_take (wordExtent_ne_zero h)] at hf
    have hw : LexemeAt c (cs.take (wordExtent cs)) _ _ := .hashWord hc hf
    rwa [wordExtent_take] at hw
  | string hc h => exact .string hc (stringExtent_take h)
  | character hc h =>
    obtain ⟨e, rest, rfl, hl, rfl⟩ := characterExtent?_eq h (hn rfl)
    have hx : characterExtent? (e ++ []) = some e.length := hl.extent
    rw [List.append_nil] at hx
    rw [List.take_left]
    exact .character hc hx
  | quote hc => exact .quote hc rfl
  | symbol hw hd hh hs hq h =>
    rcases symbolExtent_spec h with ⟨hp, rfl⟩ | ⟨hp, rfl, hsingle⟩
    · obtain ⟨d, ds, rfl, -⟩ := of_firstOrNul (p := fun d => pairSymbols.contains (c, d)) hp
        (not_pair_nul c)
      show LexemeAt c [d] (.ofSymbol (c :: [d].take 1)) 1
      exact .symbol hw hd hh hs hq (if_pos hp)
    · have hp' : ¬pairSymbols.contains (c, firstOrNul []) = true := by
        rw [show firstOrNul [] = '\x00' from rfl, not_pair_nul]
        decide
      refine .symbol hw hd ?_ hs hq ((if_neg hp').trans (if_pos hsingle))
      rw [Bool.and_eq_true]
      exact fun hh => absurd hh.2 (by decide)

end HashIf
