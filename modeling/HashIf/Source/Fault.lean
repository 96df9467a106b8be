import HashIf.Text.Quoted

/-! Faults of a source text: what keeps it from being read as tokens, and where. -/

namespace HashIf

inductive FaultCause
  | openComment
  | openString
  | digitAfterBase
  | exponent
  | decimalEscape
  | hexEscape
  | octalEscape
  | unicodeDigits
  | unicodeClose
  | unknownEscape (c : Char)
  | unexpected (c : Char)
  deriving DecidableEq

def FaultCause.message : FaultCause → String
  | openComment => "unterminated comment"
  | openString => "unterminated string literal"
  | digitAfterBase => "expected digit after integer prefix"
  | exponent => "malformed float exponent"
  | decimalEscape => "expected three decimal digits in escape"
  | hexEscape => "expected two hex digits after '\\x'"
  | octalEscape => "expected octal escape '\\o000'..'\\o377'"
  | unicodeDigits => "expected hex digits in '\\u\x7b...\x7d'"
  | unicodeClose => "expected '\x7d' to close '\\u\x7b...\x7d'"
  | unknownEscape c => "unknown escape '\\" ++ String.singleton c ++ "'"
  | unexpected c => "unexpected character " ++ quoted (String.singleton c)

/-- A fault: the number of characters in front of it and the number of characters blamed. -/
structure Fault where
  offset : Nat
  length : Nat
  cause : FaultCause
  deriving DecidableEq

namespace Fault

def single (offset : Nat) (cause : FaultCause) : Fault := ⟨offset, 1, cause⟩

/-- The fault as seen from `n` characters before. -/
def shift (n : Nat) (f : Fault) : Fault := { f with offset := n + f.offset }

@[simp] theorem shift_shift (n m : Nat) (f : Fault) : (f.shift m).shift n = f.shift (n + m) := by
  simp [shift, Nat.add_assoc]

end Fault

end HashIf
