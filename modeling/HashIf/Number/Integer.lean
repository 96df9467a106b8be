import HashIf.Number.Digits

/-! Integer numerals. A numeral is an optional sign, an optional base mark and digits, with
underscores anywhere; a numeral in base ten has at most `decimalDigitLimit` digits. -/

namespace HashIf

/-- Takes one sign off a numeral: `true` for a minus. -/
def splitSign : List Char → Bool × List Char
  | '-' :: cs => (true, cs)
  | '+' :: cs => (false, cs)
  | cs => (false, cs)

def signed (negative : Bool) (n : Nat) : Int := if negative then -n else n

/-- The base that a letter after a leading zero marks. -/
def markedBase? : Char → Option Nat
  | 'x' | 'X' => some 16
  | 'o' | 'O' => some 8
  | 'b' | 'B' => some 2
  | _ => none

/-- Takes a base mark off a numeral; without one the base is ten. -/
def splitBase : List Char → Nat × List Char
  | '0' :: m :: cs =>
    match markedBase? m with
    | some base => (base, cs)
    | none => (10, '0' :: m :: cs)
  | cs => (10, cs)

/-- The value of a nonempty run of digits of a base. -/
def magnitude? (base : Nat) (cs : List Char) : Option Nat :=
  if cs.isEmpty || !cs.all (isDigitOf base) then none
  else if base = 10 && decimalDigitLimit < cs.length then none
  else some (digitsValue base cs)

/-- Takes off the mark of the base in which a numeral is read anyway. -/
def dropOwnMark (base : Nat) : List Char → List Char
  | '0' :: m :: cs => if markedBase? m = some base then cs else '0' :: m :: cs
  | cs => cs

/-- The integer that a text denotes in a base: white space around it is ignored, and it may have a
sign and the mark of that base. -/
def integerInBase? (base : Nat) (cs : List Char) : Option Int :=
  let (negative, digits) := splitSign (plainNumeral cs)
  (magnitude? base (dropOwnMark base digits)).map (signed negative)

/-- The integer that a numeral denotes: sign and base mark come off first, and what they leave is
read in that base. -/
def integerOfNumeral? (s : String) : Option Int :=
  let (negative, cs) := splitSign (s.toList.filter (· != '_'))
  let (base, digits) := splitBase cs
  (integerInBase? base digits).map fun v => if negative then -v else v

/-- The decimal numeral of an integer, if it has no more digits than the limit. -/
def decimalNumeral? (v : Int) : Option String :=
  if v.natAbs < Nat.pow 10 decimalDigitLimit then some (toString v) else none

end HashIf
