import HashIf.Limit
import HashIf.Number.Decimal
import HashIf.Text.CodePoint

/-! Typed values, and the type that the raw text of a binding has by its shape. -/

namespace HashIf

/-! ## Types and values -/

inductive ValueType
  | bool
  | int
  | float
  | string
  deriving DecidableEq

/-- The name of a type, as messages and listings show it. -/
def ValueType.name : ValueType → String
  | bool => "bool"
  | int => "int"
  | float => "float"
  | string => "string"

/-- A datum of one of the types. -/
inductive Datum
  | bool (b : Bool)
  | int (v : Int)
  | float (x : Binary64)
  | string (t : Text)
  deriving DecidableEq

namespace Datum

def type : Datum → ValueType
  | bool _ => .bool
  | int _ => .int
  | float _ => .float
  | string _ => .string

/-- The order of two data of one type: false before true, numbers by value and strings by code
point. Data of two types have none. -/
def order? : Datum → Datum → Option Ordering
  | bool a, bool b => some (compare a b)
  | int a, int b => some (compare a b)
  | float a, float b => a.order? b
  | string a, string b => some (a.order b)
  | _, _ => none

end Datum

structure Value where
  datum : Datum
  raw : Text
  deriving DecidableEq

def Value.type (v : Value) : ValueType := v.datum.type

/-! ## Shapes of numerals -/

/-- The number of decimal digits in a text. -/
def decimalCount (cs : List Char) : Nat := (cs.filter isDecimal).length

def isDecimalPart (c : Char) : Bool := isDecimal c || c == '_'

/-- A digit of a base, then digits of it and underscores. -/
def isDigitRun (base : Nat) : List Char → Bool
  | [] => false
  | c :: cs => isDigitOf base c && cs.all fun d => isDigitOf base d || d == '_'

/-- A sign if need be, and digits behind a base mark or decimal digits. -/
def isIntegerShape (cs : List Char) : Bool :=
  let (base, digits) := splitBase (splitSign cs).2
  isDigitRun base digits

/-- The text after a run of decimal digits and underscores that a digit begins. -/
def afterDecimalRun? : List Char → Option (List Char)
  | [] => none
  | c :: cs => if isDecimal c then some (cs.dropWhile isDecimalPart) else none

/-- The text after a point with the digits and underscores behind it, if one is there. -/
def afterFraction : List Char → List Char
  | '.' :: cs => cs.dropWhile isDecimalPart
  | cs => cs

def isExponentShape : List Char → Bool
  | [] => true
  | e :: cs => (e == 'e' || e == 'E') && afterDecimalRun? (splitSign cs).2 == some []

/-- A sign if need be, decimal digits, and if need be a fraction and an exponent. -/
def isFloatShape (cs : List Char) : Bool :=
  match afterDecimalRun? (splitSign cs).2 with
  | some rest => isExponentShape (afterFraction rest)
  | none => false

/-! ## Coercion -/

/-- The datum that a raw text stands for: a truth value, an integer or a float by its shape, and
otherwise the text itself. -/
def Datum.ofString (s : String) : Except Excess Datum :=
  if s = "true" then .ok (.bool true)
  else if s = "false" then .ok (.bool false)
  else if isIntegerShape s.toList then
    match integerOfNumeral? s with
    | some v => .ok (.int v)
    | none => .error (.numeral (decimalCount s.toList))
  else if isFloatShape s.toList then
    match binary64OfNumeral? s with
    | some x => .ok (.float x)
    | none => .ok (.string (Text.ofString s))
  else .ok (.string (Text.ofString s))

def Value.ofString (s : String) : Except Excess Value :=
  match Datum.ofString s with
  | .ok d => .ok ⟨d, Text.ofString s⟩
  | .error l => .error l

end HashIf
