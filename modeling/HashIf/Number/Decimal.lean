import HashIf.Number.Binary64

/-! Decimal numerals of binary64 numbers: a sign, digits with at most one point among them, and an
exponent; or a name of infinity or of no number. Underscores may stand anywhere. -/

namespace HashIf

/-- The power of ten of an exponent part; the empty part has power zero. -/
def exponentValue? : List Char → Option Int
  | [] => some 0
  | e :: cs =>
    let (negative, digits) := splitSign cs
    if (e == 'e' || e == 'E') && !digits.isEmpty && digits.all isDecimal then
      some (signed negative (digitsValue 10 digits))
    else none

/-- Splits the fraction off a numeral whose whole part has been read. -/
def splitFraction : List Char → List Char × List Char
  | '.' :: cs => cs.span isDecimal
  | cs => ([], cs)

/-- The names of infinity and of no number, in lower case. -/
def namedMagnitude? (cs : List Char) : Option (Bool → Binary64) :=
  match String.ofList (cs.map Char.toLower) with
  | "inf" | "infinity" => some Binary64.infinity
  | "nan" => some Binary64.nan
  | _ => none

/-- The number that a decimal numeral denotes, rounded to nearest. -/
def binary64OfNumeral? (s : String) : Option Binary64 :=
  let (negative, cs) := splitSign (plainNumeral (s.toList.filter (· != '_')))
  match namedMagnitude? cs with
  | some magnitude => some (magnitude negative)
  | none =>
    let (whole, rest) := cs.span isDecimal
    let (fraction, rest) := splitFraction rest
    let digits := whole ++ fraction
    if digits.isEmpty then none
    else (exponentValue? rest).map fun e =>
      .ofDecimal negative digits.length (digitsValue 10 digits) (e - fraction.length)

end HashIf
