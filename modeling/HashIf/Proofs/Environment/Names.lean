import HashIf.Environment.Bindings
import HashIf.Proofs.Number.IntegerShape
import HashIf.Proofs.Number.Numeral
import HashIf.Proofs.Source.Standalone

/-! The names of variables as words of a source text. Every character of a name is one that a word
may have in its place, so a name by itself is a single token; but the words of conditions have the
form of names too, and are no identifiers. -/

namespace HashIf

/-! ## Characters -/

theorem isLetter_of_ascii (h : ('a' ≤ c && c ≤ 'z' || 'A' ≤ c && c ≤ 'Z') = true) :
    isLetter c = true := by
  have hc : c.toNat < 128 := by
    simp only [Bool.or_eq_true, Bool.and_eq_true, decide_eq_true_eq] at h
    rcases h with ⟨-, hz⟩ | ⟨-, hz⟩
    · exact Nat.lt_of_le_of_lt (show c.toNat ≤ 122 from hz) (by decide)
    · exact Nat.lt_of_le_of_lt (show c.toNat ≤ 90 from hz) (by decide)
  rw [isLetter, if_pos hc]
  exact h

theorem isWordStart_of_isNameStart (h : isNameStart c = true) : isWordStart c = true := by
  rw [isNameStart, Bool.or_eq_true] at h
  rw [isWordStart, Bool.or_eq_true]
  exact h.imp_left isLetter_of_ascii

theorem isNumeric_of_isDecimal (h : isDecimal c = true) : isNumeric c = true := by
  obtain ⟨v, -, hv⟩ := isDigitOf_iff.mp h
  rw [isNumeric, isDigit, decimalValue?_of_isDecimal h, hv]
  rfl

theorem isWordPart_of_isNamePart (h : isNamePart c = true) : isWordPart c = true := by
  simp only [isNamePart, Bool.or_eq_true] at h
  rcases h with (h | h) | h
  · exact isWordPart_of_isWordStart (isWordStart_of_isNameStart h)
  · simp [isWordPart, isNumeric_of_isDecimal h]
  · simp [isWordPart, h]

theorem exists_of_isName (h : isName name = true) :
    ∃ c cs, name.toList = c :: cs ∧ isNameStart c = true ∧ ∀ d ∈ cs, isNamePart d = true := by
  rw [isName] at h
  split at h
  · cases h
  · next c cs hcs =>
    obtain ⟨hc, hall⟩ := Bool.and_eq_true_iff.mp h
    exact ⟨c, cs, hcs, hc, List.all_eq_true.mp hall⟩

theorem isNamePart_of_isName (h : isName name = true) : ∀ c ∈ name.toList, isNamePart c = true := by
  obtain ⟨c, cs, hcs, hc, hall⟩ := exists_of_isName h
  rw [hcs]
  refine List.forall_mem_cons.mpr ⟨?_, hall⟩
  rw [isNamePart, hc]
  rfl

theorem lineFeed_not_mem_of_isName (h : isName name = true) : '\n' ∉ name.toList := by
  intro hm
  cases isNamePart_of_isName h _ hm

/-- The words that have a meaning of their own in conditions. -/
def reservedWords : List String := ["then", "true", "false", "defined", "undefined"]

theorem Kind.ofWord_eq_identifier_iff : ofWord word = .identifier ↔ word ∉ reservedWords := by
  unfold ofWord
  split
  case h_6 hthen htrue hfalse hdefined hundefined =>
    simp only [reservedWords, List.mem_cons, List.not_mem_nil, or_false, not_or, true_iff]
    exact ⟨hthen, htrue, hfalse, hdefined, hundefined⟩
  all_goals
    apply iff_of_false
    · exact nofun
    · decide

/-- A name by itself is a token of the kind of its word. -/
theorem standalone_of_isName (h : isName name = true) :
    Standalone (.ofWord name) name.toList := by
  obtain ⟨c, cs, hcs, hc, hall⟩ := exists_of_isName h
  have hword : isWordStart c = true := isWordStart_of_isNameStart hc
  have hextent : wordExtent cs = cs.length := by
    rw [wordExtent, List.takeWhile_eq_self_iff.mpr fun d hd => isWordPart_of_isNamePart (hall d hd)]
  have hlex : LexemeAt c cs (.ofWord name) cs.length := by
    have hw : LexemeAt c cs _ _ := .word hword
    rwa [hextent, List.take_length, ← hcs, String.ofList_toList] at hw
  rw [hcs]
  refine .mk (nextPiece_token_iff.mpr ⟨?_, ?_, lexemeExtent_iff.mpr hlex, ?_⟩)
  · intro hb
    have hpart := isWordPart_of_isWordStart hword
    simp only [isSourceBlank, Bool.or_eq_true, beq_iff_eq] at hb
    rcases hb with (((rfl | rfl) | rfl) | rfl) | rfl <;> cases hpart
  · intro ho
    simp only [opensComment, Bool.and_eq_true, beq_iff_eq] at ho
    obtain ⟨⟨rfl, -⟩, -⟩ := ho
    cases hword
  · rw [List.take_length]

end HashIf
