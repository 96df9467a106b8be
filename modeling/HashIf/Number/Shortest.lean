import HashIf.Number.Binary64

/-! The decimal text of a binary64 number: the fewest digits that read back as the number, and of
those with so few digits the nearest. -/

namespace HashIf.Binary64

/-! ## Digits -/

/-- The magnitude of a finite pattern in units of the least positive magnitude. -/
def units (pattern : Nat) : Nat :=
  if pattern < Nat.pow 2 52 then pattern
  else (Nat.pow 2 52 + pattern % Nat.pow 2 52) * Nat.pow 2 (pattern / Nat.pow 2 52 - 1)

/-- The number of decimal digits of a positive integer. -/
def decimalLength (n : Nat) : Nat := (Nat.toDigits 10 n).length

/-- The exponent of the leading decimal digit of a positive magnitude in units. -/
def leadingExponent (u : Nat) : Int :=
  if Nat.pow 2 1074 ≤ u then (decimalLength (u / Nat.pow 2 1074) : Int) - 1
  else
    -- a power of ten that brings every smaller magnitude above one
    (decimalLength (u * Nat.pow 10 330 / Nat.pow 2 1074) : Int) - 1 - 330

/-- The quotient of a magnitude in units by a power of ten, as numerator and denominator. -/
def quotientByPower (u : Nat) (e : Int) : Nat × Nat :=
  if 0 ≤ e then (u, Nat.pow 2 1074 * Nat.pow 10 e.toNat)
  else (u * Nat.pow 10 (-e).toNat, Nat.pow 2 1074)

/-- The multiple of `10 ^ e` that reads back as the pattern, if there is one: of two the nearer,
and of two equally near the even one. -/
def readsBackAt? (pattern : Nat) (e : Int) : Option Nat :=
  let (num, den) := quotientByPower (units pattern) e
  let nearest := roundQuotient num den
  let farther := if nearest = num / den then nearest + 1 else num / den
  let reads (n : Nat) : Bool := decimalPattern 18 n e == pattern
  if reads nearest then some nearest else if reads farther then some farther else none

/-- Tries from `count` digits on, with `fuel` counts to go. -/
def shortestFrom (pattern : Nat) (leading : Int) : (fuel count : Nat) → Nat × Int
  | 0, _ => (0, 0)
  | fuel + 1, count =>
    let e := leading + 1 - count
    match readsBackAt? pattern e with
    | some n => (n, e)
    | none => shortestFrom pattern leading fuel (count + 1)

/-- The shortest decimal `(n, e)`, meaning `n * 10 ^ e`, that reads back as a finite positive
pattern; seventeen digits always do. -/
def shortest (pattern : Nat) : Nat × Int :=
  shortestFrom pattern (leadingExponent (units pattern)) 17 1

/-! ## Text -/

/-- Digits with a point behind the first `n` of them, `n` being positive. -/
def withPoint (digits : List Char) (n : Nat) : List Char :=
  let whole := digits.take n ++ List.replicate (n - digits.length) '0'
  let fraction := digits.drop n
  whole ++ '.' :: (if fraction.isEmpty then ['0'] else fraction)

/-- An exponent with its sign and at least two digits. -/
def exponentText (e : Int) : List Char :=
  let digits := Nat.toDigits 10 e.natAbs
  'e' :: (if e < 0 then '-' else '+') :: (if digits.length < 2 then '0' :: digits else digits)

/-- The text of the digits without trailing zeros of a number whose leading digit has exponent `e`:
positional from `1e-4` on and below `1e16`, and with an exponent otherwise. -/
def layout (digits : List Char) (e : Int) : List Char :=
  if e < -4 ∨ 16 ≤ e then
    let mantissa := match digits with
      | d :: d' :: ds => d :: '.' :: d' :: ds
      | ds => ds
    mantissa ++ exponentText e
  else if e < 0 then '0' :: '.' :: List.replicate (-e - 1).toNat '0' ++ digits
  else withPoint digits (e + 1).toNat

def magnitudeText (pattern : Nat) : List Char :=
  if infinityPattern < pattern then ['n', 'a', 'n']
  else if pattern = infinityPattern then ['i', 'n', 'f']
  else if pattern = 0 then ['0', '.', '0']
  else
    let (n, e) := shortest pattern
    let digits := Nat.toDigits 10 n
    let significant := (digits.reverse.dropWhile (· == '0')).reverse
    layout significant (e + digits.length - 1)

def text (x : Binary64) : String :=
  String.ofList (if x.negative && !x.isNan then '-' :: magnitudeText x.pattern
    else magnitudeText x.pattern)

end HashIf.Binary64
