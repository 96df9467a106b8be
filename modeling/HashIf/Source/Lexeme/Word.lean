import HashIf.Text.Digit
import HashIf.Text.Letter

/-! Words: a letter or an underscore, then letters, numeric characters, underscores and single
quotes. -/

namespace HashIf

def isWordStart (c : Char) : Bool := isLetter c || c == '_'

def isWordPart (c : Char) : Bool := isLetter c || isNumeric c || c == '_' || c == '\''

/-- The number of characters at the head of a text that continue a word. -/
def wordExtent (cs : List Char) : Nat := (cs.takeWhile isWordPart).length

/-- The first character, or NUL where there is none. No token but a character literal can go on
past a NUL, so the end of the text needs no case of its own. -/
def firstOrNul (cs : List Char) : Char := cs.headD '\x00'

theorem isWordPart_of_isWordStart (h : isWordStart c = true) : isWordPart c = true := by
  simp only [isWordStart, isWordPart, Bool.or_eq_true] at *
  rcases h with h | h <;> simp [h]

theorem wordExtent_le (cs : List Char) : wordExtent cs ≤ cs.length :=
  (List.takeWhile_sublist _).length_le

end HashIf
