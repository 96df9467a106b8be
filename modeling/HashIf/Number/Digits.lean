import HashIf.Text.Digit
import HashIf.Text.Space

/-! Digits as numbers: the value of a run of digits in a base, and the plain form of a numeral, in
which the digits of every script are written `0` to `9`. -/

namespace HashIf

/-- The value of an ASCII digit or letter as a digit of base 36. -/
def asciiDigitValue? (c : Char) : Option Nat :=
  if '0' ≤ c && c ≤ '9' then some (c.toNat - 48)
  else if 'a' ≤ c && c ≤ 'z' then some (c.toNat - 87)
  else if 'A' ≤ c && c ≤ 'Z' then some (c.toNat - 55)
  else none

/-- An ASCII digit of a base up to 36. -/
def isDigitOf (base : Nat) (c : Char) : Bool :=
  match asciiDigitValue? c with
  | some d => d < base
  | none => false

def isDecimal (c : Char) : Bool := isDigitOf 10 c

def isHex (c : Char) : Bool := isDigitOf 16 c

/-- The positional value of a run of digits; what is no digit counts as zero. -/
def digitsValue (base : Nat) (cs : List Char) : Nat :=
  cs.foldl (fun n c => n * base + (asciiDigitValue? c).getD 0) 0

/-- The most decimal digits that an integer is read from or written with. -/
def decimalDigitLimit : Nat := 4300

/-- The plain form of a character of a numeral: a decimal digit of any script becomes the ASCII
digit of its value, and white space beyond ASCII a space. -/
def plainNumeralChar (c : Char) : Char :=
  if c.toNat < 128 then c
  else match decimalValue? c with
    | some d => Nat.digitChar d
    | none => if isSpace c then ' ' else c

/-- The plain form of a numeral, without white space around it. -/
def plainNumeral (cs : List Char) : List Char :=
  trimBy isNumeralSpace (cs.map plainNumeralChar)

theorem digitsValue_append (base : Nat) (cs : List Char) (c : Char) :
    digitsValue base (cs ++ [c]) = digitsValue base cs * base + (asciiDigitValue? c).getD 0 := by
  simp [digitsValue]

end HashIf
