import HashIf.Condition.Basic
import HashIf.Source.Token

/-! The values of literals in headers. A string literal is read in segments: characters that stand
for themselves, escapes, and continuations of a line, which stand for nothing. -/

namespace HashIf

/-! ## Segments of string literals -/

/-- A segment of the body of a string literal. -/
inductive Segment
  | plain (c : Char)
  | escape (code : Nat)
  | continuation
  deriving DecidableEq

namespace Segment

/-- The code of the character that a simple escape stands for. -/
def simpleCode? : Char → Option Nat
  | 'n' => some 10
  | 't' => some 9
  | 'r' => some 13
  | 'b' => some 8
  | '\\' => some 92
  | '"' => some 34
  | '\'' => some 39
  | ' ' => some 32
  | _ => none

/-- An escape of exactly `width` digits of a base, and the number of those digits. -/
def fixedEscape? (base width : Nat) (cs : List Char) : Option (Segment × Nat) :=
  let digits := cs.take width
  if digits.length = width && digits.all (isDigitOf base) then
    some (.escape (digitsValue base digits), width)
  else none

/-- An escape by number after its opening brace, and its extent up to the closing one. -/
def bracedEscape? (cs : List Char) : Option (Segment × Nat) :=
  let (digits, rest) := cs.span isHex
  match rest with
  | '\x7d' :: _ =>
    if digits.isEmpty then none else some (.escape (digitsValue 16 digits), digits.length + 1)
  | _ => none

def blankCount (cs : List Char) : Nat := (cs.takeWhile fun c => c == ' ' || c == '\t').length

/-- The segment that a backslash in front of the text begins, and its further extent. A backslash
that begins none stands for itself. -/
def ofBackslash? (cs : List Char) : Option (Segment × Nat) :=
  match cs with
  | [] => none
  | c :: rest =>
    match simpleCode? c with
    | some code => some (.escape code, 1)
    | none =>
      if isDecimal c then fixedEscape? 10 3 cs
      else match c, rest with
        | 'x', rest => (fixedEscape? 16 2 rest).map fun (s, n) => (s, n + 1)
        | 'o', rest => (fixedEscape? 8 3 rest).map fun (s, n) => (s, n + 1)
        | 'u', '\x7b' :: rest => (bracedEscape? rest).map fun (s, n) => (s, n + 2)
        | '\n', rest => some (.continuation, 1 + blankCount rest)
        | '\r', '\n' :: rest => some (.continuation, 2 + blankCount rest)
        | _, _ => none

/-- The code point that a segment stands for, if it stands for one. -/
def codePoint? : Segment → Except Excess (Option CodePoint)
  | plain c => .ok (some (.ofChar c))
  | continuation => .ok none
  | escape code =>
    match CodePoint.ofNat? code with
    | some p => .ok (some p)
    | none => .error (if code < 0x80000000 then .codePoint else .word)

end Segment

def segments : List Char → List Segment
  | [] => []
  | c :: cs =>
    if c = '\\' then
      match Segment.ofBackslash? cs with
      | some (segment, n) => segment :: segments (cs.drop n)
      | none => .plain c :: segments cs
    else .plain c :: segments cs
  termination_by cs => cs.length
  decreasing_by all_goals simp only [List.length_cons, List.length_drop]; omega

/-- The text of segments; the first escape beyond a limit counts. -/
def textOfSegments : List Segment → Except Excess Text
  | [] => .ok []
  | s :: ss =>
    match s.codePoint? with
    | .error l => .error l
    | .ok p =>
      match textOfSegments ss with
      | .error l => .error l
      | .ok t => .ok (p.toList ++ t)

/-- The text that a string literal denotes. Its first and last characters are its quotes. -/
def unescape (lexeme : String) : Except Excess Text :=
  textOfSegments (segments (lexeme.toList.drop 1).dropLast)

end HashIf
