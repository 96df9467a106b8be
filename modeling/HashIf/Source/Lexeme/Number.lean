import HashIf.Number.Digits
import HashIf.Number.Integer
import HashIf.Source.Fault
import HashIf.Source.Lexeme.Word
import HashIf.Source.Token

/-! Number tokens. A number begins with a digit; it is an integer in base sixteen, eight or two if
a base mark follows a leading zero, and otherwise an integer or, with a point or an exponent, a
float. -/

namespace HashIf

def isNumberPart (c : Char) : Bool := isDigit c || c == '_'

/-- The number of digits and underscores at the head of a text. -/
def digitExtent (cs : List Char) : Nat := (cs.takeWhile isNumberPart).length

/-- The extent of a fraction. A point begins one unless another point or a word follows it. -/
def fractionExtent : List Char → Nat
  | '.' :: cs =>
    if firstOrNul cs == '.' || isWordStart (firstOrNul cs) then 0 else 1 + digitExtent cs
  | _ => 0

def signExtent (cs : List Char) : Nat :=
  if firstOrNul cs == '+' || firstOrNul cs == '-' then 1 else 0

/-- The extent of an exponent, which needs a digit after its letter and sign. -/
def exponentExtent : List Char → Except Fault Nat
  | e :: cs =>
    if e == 'e' || e == 'E' then
      let sign := signExtent cs
      let digits := ((cs.drop sign).takeWhile isDigit).length
      if digits = 0 then .error (.single 0 .exponent) else .ok (1 + sign + digits)
    else .ok 0
  | [] => .ok 0

/-- The base of a number that begins with `c`, if a base mark heads the text after it. -/
def markAfterZero? (c : Char) : List Char → Option Nat
  | m :: _ => if c == '0' then markedBase? m else none
  | [] => none

/-- The extent of the digits of a base and underscores, of which a digit is the first. -/
def basedExtent (base : Nat) (cs : List Char) : Except Fault Nat :=
  if isDigitOf base (firstOrNul cs) then
    .ok (cs.takeWhile fun c => isDigitOf base c || c == '_').length
  else .error (.single 0 .digitAfterBase)

/-- Kind and further extent of the number that begins with the digit `c` in front of a text. -/
def numberExtent (c : Char) (cs : List Char) : Except Fault (Kind × Nat) :=
  match markAfterZero? c cs with
  | some base =>
    match basedExtent base (cs.drop 1) with
    | .ok n => .ok (.integer, 1 + n)
    | .error f => .error (f.shift 2)
  | none =>
    let whole := digitExtent cs
    let fraction := fractionExtent (cs.drop whole)
    match exponentExtent (cs.drop (whole + fraction)) with
    | .ok n => .ok (if fraction + n = 0 then .integer else .float, whole + fraction + n)
    | .error f => .error (f.shift (1 + whole + fraction))

end HashIf
