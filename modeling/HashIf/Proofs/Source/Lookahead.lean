import HashIf.Proofs.Source.CommentGrammar
import HashIf.Source.Piece

/-! Lookahead. Words, numbers and symbols are read in the same way whatever stands behind a blank, a
line feed or an opening parenthesis that follows them, and so are literals and comments in front of
a line feed. -/

namespace HashIf

/-! ## Breaks -/

/-- A character that goes on with no token but a literal. -/
def Breaks (b : Char) : Prop := b = ' ' ∨ b = '\n'

/-- A character that goes on with no token but a literal, though it may begin one. -/
def Ends (b : Char) : Prop := Breaks b ∨ b = '('

theorem Breaks.ends (h : Breaks b) : Ends b := .inl h

theorem Ends.cases (h : Ends b) : b = ' ' ∨ b = '\n' ∨ b = '(' := or_assoc.mp h

section

variable {b : Char} {cs ds : List Char} (hb : Ends b)

theorem takeWhile_append_break {p : Char → Bool} (h : p b = false) :
    (cs ++ b :: ds).takeWhile p = cs.takeWhile p := by
  induction cs with
  | nil => rw [List.nil_append, List.takeWhile_cons_of_neg (by simp [h]), List.takeWhile_nil]
  | cons c cs ih =>
    rw [List.cons_append, List.takeWhile_cons, List.takeWhile_cons, ih]

/-- What does not tell a break from the end of the text depends on no more than the next
character. -/
theorem firstOrNul_append_break {p : Char → α} (h : p b = p '\x00') :
    p (firstOrNul (cs ++ b :: ds)) = p (firstOrNul cs) := by
  cases cs with
  | nil => exact h
  | cons => rfl

theorem length_takeWhile_le (p : Char → Bool) (cs : List Char) :
    (cs.takeWhile p).length ≤ cs.length := (List.takeWhile_sublist p).length_le

theorem not_pair_of_fst (h : ∀ q ∈ pairSymbols, q.1 ≠ c) : pairSymbols.contains (c, d) = false := by
  rw [List.contains_eq_mem, decide_eq_false_iff_not]
  exact fun hq => h _ hq rfl

theorem not_pair_of_snd (h : ∀ q ∈ pairSymbols, q.2 ≠ d) : pairSymbols.contains (c, d) = false := by
  rw [List.contains_eq_mem, decide_eq_false_iff_not]
  exact fun hq => h _ hq rfl

theorem not_pair_nul (c : Char) : pairSymbols.contains (c, '\x00') = false :=
  not_pair_of_snd (by decide)

include hb

theorem Ends.isWordPart : isWordPart b = false := by
  rcases hb.cases with rfl | rfl | rfl <;> decide

theorem Ends.isWordStart : isWordStart b = false := by
  rcases hb.cases with rfl | rfl | rfl <;> decide

theorem Ends.isDigit : isDigit b = false := by
  rcases hb.cases with rfl | rfl | rfl <;> decide

theorem Ends.isNumberPart : isNumberPart b = false := by
  rcases hb.cases with rfl | rfl | rfl <;> decide

theorem Ends.isDigitOf (base : Nat) : isDigitOf base b = false := by
  rcases hb.cases with rfl | rfl | rfl <;> rfl

/-! ## Words and numbers in front of a break -/

theorem wordExtent_append : wordExtent (cs ++ b :: ds) = wordExtent cs := by
  rw [wordExtent, takeWhile_append_break hb.isWordPart, wordExtent]

theorem digitExtent_append : digitExtent (cs ++ b :: ds) = digitExtent cs := by
  rw [digitExtent, takeWhile_append_break hb.isNumberPart, digitExtent]

omit hb in
theorem fractionExtent_of_ne (h : c ≠ '.') : fractionExtent (c :: cs) = 0 := by
  unfold fractionExtent
  split
  · next he => exact (h (List.cons.inj he).1).elim
  · rfl

theorem fractionExtent_append : fractionExtent (cs ++ b :: ds) = fractionExtent cs := by
  cases cs with
  | nil => exact fractionExtent_of_ne (by rcases hb.cases with rfl | rfl | rfl <;> decide)
  | cons c cs =>
    by_cases hc : c = '.'
    · subst hc
      have hp : (b == '.' || HashIf.isWordStart b) =
          ('\x00' == '.' || HashIf.isWordStart '\x00') := by
        rcases hb.cases with rfl | rfl | rfl <;> decide
      have hf : (firstOrNul (cs ++ b :: ds) == '.' ||
          HashIf.isWordStart (firstOrNul (cs ++ b :: ds))) =
          (firstOrNul cs == '.' || HashIf.isWordStart (firstOrNul cs)) :=
        firstOrNul_append_break (p := fun c => c == '.' || HashIf.isWordStart c) hp
      rw [List.cons_append, fractionExtent, fractionExtent, digitExtent_append hb]
      exact congrArg (fun t : Bool => if t then 0 else 1 + digitExtent cs) hf
    · rw [List.cons_append, fractionExtent_of_ne hc, fractionExtent_of_ne hc]

theorem signExtent_append : signExtent (cs ++ b :: ds) = signExtent cs :=
  firstOrNul_append_break (p := fun c => if c == '+' || c == '-' then 1 else 0)
    (by rcases hb.cases with rfl | rfl | rfl <;> decide)

omit hb in
theorem signExtent_le (cs : List Char) : signExtent cs ≤ cs.length := by
  cases cs with
  | nil => exact Nat.le_refl 0
  | cons c cs =>
    rw [signExtent, List.length_cons]
    split <;> omega

omit hb in
theorem fractionExtent_le (cs : List Char) : fractionExtent cs ≤ cs.length := by
  unfold fractionExtent
  split
  · next cs =>
    have := length_takeWhile_le isNumberPart cs
    rw [List.length_cons, digitExtent]
    split <;> omega
  · exact Nat.zero_le _

theorem exponentExtent_append : exponentExtent (cs ++ b :: ds) = exponentExtent cs := by
  cases cs with
  | nil => rcases hb.cases with rfl | rfl | rfl <;> rfl
  | cons e cs =>
    have ht : ((cs ++ b :: ds).drop (signExtent cs)).takeWhile HashIf.isDigit =
        (cs.drop (signExtent cs)).takeWhile HashIf.isDigit := by
      rw [List.drop_append_of_le_length (signExtent_le cs), takeWhile_append_break hb.isDigit]
    simp only [List.cons_append, exponentExtent, signExtent_append hb, ht]

theorem markAfterZero?_append : markAfterZero? c (cs ++ b :: ds) = markAfterZero? c cs := by
  cases cs with
  | nil =>
    have hm : markedBase? b = none := by rcases hb.cases with rfl | rfl | rfl <;> rfl
    rw [List.nil_append, markAfterZero?, markAfterZero?, hm, ite_self]
  | cons => rfl

theorem basedExtent_append (base : Nat) :
    basedExtent base (cs ++ b :: ds) = basedExtent base cs := by
  have hd : (HashIf.isDigitOf base b || b == '_') = false := by
    rw [hb.isDigitOf]
    rcases hb.cases with rfl | rfl | rfl <;> rfl
  have hf : HashIf.isDigitOf base (firstOrNul (cs ++ b :: ds)) =
      HashIf.isDigitOf base (firstOrNul cs) :=
    firstOrNul_append_break (hb.isDigitOf base)
  have ht : (cs ++ b :: ds).takeWhile (fun c => HashIf.isDigitOf base c || c == '_') =
      cs.takeWhile fun c => HashIf.isDigitOf base c || c == '_' := takeWhile_append_break hd
  rw [basedExtent, basedExtent, hf, ht]

theorem numberExtent_append (c : Char) : numberExtent c (cs ++ b :: ds) = numberExtent c cs := by
  have hw : digitExtent cs ≤ cs.length := length_takeWhile_le isNumberPart cs
  have hf : digitExtent cs + fractionExtent (cs.drop (digitExtent cs)) ≤ cs.length := by
    have := fractionExtent_le (cs.drop (digitExtent cs))
    rw [List.length_drop] at this
    omega
  unfold numberExtent
  rw [markAfterZero?_append hb]
  cases hm : markAfterZero? c cs with
  | none =>
    simp only [digitExtent_append hb, List.drop_append_of_le_length hw, fractionExtent_append hb,
      List.drop_append_of_le_length hf, exponentExtent_append hb]
  | some base =>
    cases cs with
    | nil => cases hm
    | cons m cs =>
      simp only [List.cons_append, List.drop_succ_cons, List.drop_zero, basedExtent_append hb]

theorem symbolExtent_append (c : Char) : symbolExtent c (cs ++ b :: ds) = symbolExtent c cs := by
  have hp : pairSymbols.contains (c, firstOrNul (cs ++ b :: ds)) =
      pairSymbols.contains (c, firstOrNul cs) := by
    refine firstOrNul_append_break (p := fun d => pairSymbols.contains (c, d)) ?_
    have hb' : pairSymbols.contains (c, b) = false :=
      not_pair_of_snd (by rcases hb.cases with rfl | rfl | rfl <;> decide)
    rw [hb', not_pair_nul]
  rw [symbolExtent, symbolExtent, hp]

end

/-! ## Literals and comments in front of a line feed -/

theorem stringExtent_append (h : stringExtent cs = .ok n) : stringExtent (cs ++ ds) = .ok n := by
  obtain ⟨body, rest, rfl, hb, rfl⟩ := stringFrom_ok h
  rw [List.append_assoc]
  exact hb.extent 1

theorem stringExtent_le (h : stringExtent cs = .ok n) : n ≤ cs.length := by
  obtain ⟨body, rest, rfl, -, rfl⟩ := stringFrom_ok h
  simp only [List.length_append, List.length_cons]
  omega

theorem stringExtent_take (h : stringExtent cs = .ok n) : stringExtent (cs.take n) = .ok n := by
  obtain ⟨body, rest, rfl, hb, rfl⟩ := stringFrom_ok h
  have ht : (body ++ '"' :: rest).take (1 + body.length) = body ++ ['"'] := by
    rw [Nat.add_comm, List.take_length_add_append]
    rfl
  rw [ht]
  exact hb.extent 1

theorem matchClasses_append {classes : List (Char → Bool)}
    (h : ∀ p ∈ classes, p b = false ∧ p '\x00' = false) :
    matchClasses classes (cs ++ b :: ds) = matchClasses classes cs := by
  induction classes generalizing cs with
  | nil => rfl
  | cons p ps ih =>
    obtain ⟨⟨hb, h0⟩, hps⟩ := List.forall_mem_cons.mp h
    cases cs with
    | nil =>
      have hf : p (firstOrNul (b :: ds)) = false := hb
      have h0' : p (firstOrNul []) = false := h0
      rw [List.nil_append, matchClasses, matchClasses, hf, h0']
      rfl
    | cons c cs =>
      have hc : firstOrNul (c :: (cs ++ b :: ds)) = firstOrNul (c :: cs) := rfl
      simp only [List.cons_append, matchClasses, List.drop_succ_cons, List.drop_zero, ih hps, hc]

theorem characterEscape?_append (hb : Ends b) (hcs : cs ≠ []) :
    characterEscape? (cs ++ b :: ds) = characterEscape? cs := by
  obtain ⟨c, cs, rfl⟩ := List.exists_cons_of_ne_nil hcs
  have digits {p : Char → Bool}
      (h : p ' ' = false ∧ p '\n' = false ∧ p '(' = false ∧ p '\x00' = false) :
      p b = false ∧ p '\x00' = false := by
    obtain ⟨hspace, hfeed, hparenthesis, hnul⟩ := h
    refine ⟨?_, hnul⟩
    rcases hb.cases with rfl | rfl | rfl <;> assumption
  have hdecimal : matchClasses [isDecimal, isDecimal, isDecimal] (c :: (cs ++ b :: ds)) =
      matchClasses [isDecimal, isDecimal, isDecimal] (c :: cs) := by
    rw [← List.cons_append, matchClasses_append]
    exact fun p hp => digits (by revert p; decide)
  have hhex : matchClasses [isHex, isHex] (cs ++ b :: ds) = matchClasses [isHex, isHex] cs := by
    rw [matchClasses_append]
    exact fun p hp => digits (by revert p; decide)
  have hoctal : matchClasses octalClasses (cs ++ b :: ds) = matchClasses octalClasses cs := by
    rw [matchClasses_append]
    exact fun p hp => digits (by revert p; decide)
  have hc : firstOrNul (c :: (cs ++ b :: ds)) = firstOrNul (c :: cs) := rfl
  simp only [characterEscape?, hc, List.drop_zero, hdecimal, List.cons_append, List.drop_succ_cons,
    hhex, hoctal]

/-- No literal goes on past the character, unless it is the one between the quotes. -/
theorem characterExtent?_append_of (hb : Ends b) (hd : b = '\n' ∨ firstOrNul ds ≠ '\'')
    (cs : List Char) : characterExtent? (cs ++ b :: ds) = characterExtent? cs := by
  have quote (cs : List Char) : (firstOrNul (cs ++ b :: ds) == '\'') = (firstOrNul cs == '\'') :=
    firstOrNul_append_break (p := (· == '\'')) (by rcases hb.cases with rfl | rfl | rfl <;> rfl)
  have alone : characterExtent? (b :: ds) = none ∧ characterExtent? ('\\' :: b :: ds) = none := by
    rcases hd with rfl | hd
    · exact ⟨rfl, rfl⟩
    have hd : ¬(firstOrNul ds == '\'') = true := by simpa using hd
    rcases hb.cases with rfl | rfl | rfl
    · exact ⟨if_neg hd, if_neg hd⟩
    · exact ⟨rfl, rfl⟩
    · exact ⟨if_neg hd, rfl⟩
  cases cs with
  | nil => exact alone.1
  | cons c cs =>
    by_cases hcs : c = '\\' ∧ cs = []
    · obtain ⟨rfl, rfl⟩ := hcs
      exact alone.2
    rw [List.cons_append, characterExtent?, characterExtent?, quote cs]
    by_cases hc : c = '\\'
    · rw [if_pos hc, if_pos hc, characterEscape?_append hb fun h => hcs ⟨hc, h⟩]
      cases he : characterEscape? cs with
      | none => rfl
      | some k =>
        obtain ⟨e, rest, rfl, -, rfl⟩ := characterEscape?_eq he
        have hq := quote rest
        simp only [List.append_assoc, List.drop_left, hq]
    · rw [if_neg hc, if_neg hc]

theorem characterExtent?_append (cs : List Char) :
    characterExtent? (cs ++ '\n' :: ds) = characterExtent? cs :=
  characterExtent?_append_of (.inl (.inr rfl)) (.inl rfl) cs

theorem characterExtent?_le (h : characterExtent? cs = some n) : n ≤ cs.length := by
  by_cases hn : n = 0
  · exact hn ▸ Nat.zero_le _
  · obtain ⟨e, rest, rfl, -, rfl⟩ := characterExtent?_eq h hn
    simp

theorem commentFrom_append {n k : Nat} (h : commentFrom 0 n cs = .ok k) :
    commentFrom 0 n (cs ++ ds) = .ok k := by
  obtain ⟨body, rest, rfl, hb, rfl⟩ := commentFrom_ok_iff.mp h
  exact commentFrom_ok_iff.mpr ⟨body, rest ++ ds, by simp, hb, rfl⟩

theorem commentExtent_spec (h : commentExtent cs = .ok n) :
    ∃ c cs', cs = c :: cs' ∧ commentFrom 0 2 cs' = .ok (n + 1) ∧ n ≤ cs.length := by
  cases cs with
  | nil =>
    rw [commentExtent, List.drop_nil, commentFrom] at h
    cases h
  | cons c cs =>
    rw [commentExtent, List.drop_succ_cons, List.drop_zero] at h
    split at h
    · next m hm =>
      cases h
      obtain ⟨body, rest, rfl, -, rfl⟩ := commentFrom_ok_iff.mp hm
      refine ⟨c, _, rfl, hm, ?_⟩
      simp only [List.length_cons, List.length_append]
      omega
    · cases h

theorem commentExtent_append (h : commentExtent cs = .ok n) :
    commentExtent (cs ++ '\n' :: ds) = .ok n := by
  obtain ⟨c, cs, rfl, hc, -⟩ := commentExtent_spec h
  rw [commentExtent, List.cons_append, List.drop_succ_cons, List.drop_zero, commentFrom_append hc]
  rfl

end HashIf
