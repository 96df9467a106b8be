/-! White space, and its removal from both ends of a text. -/

namespace HashIf

/-- White space within ASCII that numerals may be surrounded by. -/
def isNumeralSpace (c : Char) : Bool := c == ' ' || ('\t' ≤ c && c ≤ '\r')

/-- White space of any script, the four ASCII separators included. -/
def isSpace (c : Char) : Bool :=
  isNumeralSpace c || ('\x1c' ≤ c && c ≤ '\x1f') || c == '\x85' || c == '\xa0' ||
    c == '\u1680' || ('\u2000' ≤ c && c ≤ '\u200a') || c == '\u2028' || c == '\u2029' ||
    c == '\u202f' || c == '\u205f' || c == '\u3000'

/-- The list without the elements satisfying `p` at its two ends. -/
def trimBy (p : α → Bool) (xs : List α) : List α :=
  ((xs.dropWhile p).reverse.dropWhile p).reverse

end HashIf
