import HashIf.Text.CodePoint
import HashIf.Text.Printable

/-! Quoted texts as messages show them: between single quotes, unless the text has a single quote
and no double quote, and with escapes for the quote, the backslash and what does not print. -/

namespace HashIf.Text

/-- The last `width` hexadecimal digits of a number, in lower case. -/
def hexDigits : (width : Nat) → Nat → List Char
  | 0, _ => []
  | width + 1, n => hexDigits width (n / 16) ++ [Nat.digitChar (n % 16)]

/-- The escape of a code point by its number, of the least of three widths that holds it. -/
def numericEscape (n : Nat) : List Char :=
  if n < 0x100 then '\\' :: 'x' :: hexDigits 2 n
  else if n < 0x10000 then '\\' :: 'u' :: hexDigits 4 n
  else '\\' :: 'U' :: hexDigits 8 n

/-- A code point as it stands between two marks. -/
def quoteOne (mark : Char) (p : CodePoint) : List Char :=
  match p.toChar? with
  | none => numericEscape p.val
  | some '\\' => ['\\', '\\']
  | some '\n' => ['\\', 'n']
  | some '\r' => ['\\', 'r']
  | some '\t' => ['\\', 't']
  | some c => if c = mark then ['\\', c] else if isPrintable c then [c] else numericEscape p.val

def quotationMark (t : Text) : Char :=
  if t.any (·.isChar '\'') && !t.any (·.isChar '"') then '"' else '\''

/-- The text between quotation marks, on one line and with printable characters only. -/
def quoted (t : Text) : String :=
  let mark := t.quotationMark
  String.ofList (mark :: t.flatMap (quoteOne mark) ++ [mark])

end HashIf.Text

namespace HashIf

/-- The string between quotation marks, as messages show it. -/
def quoted (s : String) : String := (Text.ofString s).quoted

end HashIf
