import HashIf.Number.Digits

/-! Limits on the size of numbers. Going beyond one is no fault of the source text, so it has no
place: the run breaks off with a report of the limit, and of the digits if it was a numeral. -/

namespace HashIf

/-- A limit that a number can go beyond. -/
inductive Limit
  /-- The number of decimal digits of an integer. -/
  | digits
  /-- The last code point. -/
  | codePoint
  /-- The numbers of 32 bits with a sign, among which a code point is looked for. -/
  | word
  deriving DecidableEq

/-- The kind of the error with which a run breaks off. -/
def Limit.error : Limit → String
  | digits | codePoint => "ValueError"
  | word => "OverflowError"

/-- What goes beyond a limit. -/
inductive Excess
  /-- A decimal numeral, with the number of its digits. -/
  | numeral (digits : Nat)
  /-- An integer for which a decimal numeral is asked. -/
  | integer
  | codePoint
  | word
  deriving DecidableEq

namespace Excess

def limit : Excess → Limit
  | numeral _ | integer => .digits
  | codePoint => .codePoint
  | word => .word

instance : Coe Excess Limit := ⟨limit⟩

def message : Excess → String
  | numeral digits =>
    "Exceeds the limit (" ++ toString decimalDigitLimit ++ " digits) for integer string " ++
      "conversion: value has " ++ toString digits ++ " digits; use " ++
      "sys.set_int_max_str_digits() to increase the limit"
  | integer =>
    "Exceeds the limit (" ++ toString decimalDigitLimit ++ " digits) for integer string " ++
      "conversion; use sys.set_int_max_str_digits() to increase the limit"
  | codePoint => "chr() arg not in range(0x110000)"
  | word => "Python int too large to convert to C int"

/-- The last line of the error output of a run that breaks off. -/
def report (x : Excess) : String := Limit.error x ++ ": " ++ x.message ++ "\n"

end Excess

end HashIf
