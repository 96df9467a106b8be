import HashIf.Number.Digits
import HashIf.Source.Fault
import HashIf.Source.Lexeme.Word

/-! String and character literals. A string runs to the next double quote outside an escape, over
line ends if need be; a single quote begins a character literal only if one character or escape
and another quote follow. -/

namespace HashIf

/-! ## Escapes -/

/-- A character that a backslash may stand in front of by itself. -/
def isSimpleEscape (c : Char) : Bool :=
  c == '\\' || c == '"' || c == '\'' || c == 'n' || c == 't' || c == 'b' || c == 'r' || c == ' '

def isBlank (c : Char) : Bool := c == ' ' || c == '\t'

/-- Checks that the text begins with one character of each class; otherwise gives the number of
characters that do. -/
def matchClasses : List (Char → Bool) → List Char → Except Nat Unit
  | [], _ => .ok ()
  | p :: ps, cs =>
    if p (firstOrNul cs) then
      match matchClasses ps (cs.drop 1) with
      | .ok () => .ok ()
      | .error n => .error (n + 1)
    else .error 0

def octalClasses : List (Char → Bool) := [isDigitOf 4, isDigitOf 8, isDigitOf 8]

/-- The extent of an escape with a fixed number of digits behind `lead` characters. -/
def fixedEscape (lead : Nat) (classes : List (Char → Bool)) (cause : FaultCause)
    (cs : List Char) : Except Fault Nat :=
  match matchClasses classes (cs.drop lead) with
  | .ok () => .ok (lead + classes.length)
  | .error n => .error (.single (lead + n) cause)

/-- The extent of an escape by number, after the letter and the opening brace. -/
def unicodeEscape (cs : List Char) : Except Fault Nat :=
  let digits := (cs.takeWhile isHex).length
  if digits = 0 then .error (.single 0 .unicodeDigits)
  else if firstOrNul (cs.drop digits) == '\x7d' then .ok (digits + 1)
  else .error (.single digits .unicodeClose)

/-- The extent of the blanks at the head of a line that a continuation joins on. -/
def blankExtent (cs : List Char) : Nat := (cs.takeWhile isBlank).length

/-- The extent of the escape that a backslash in front of the text begins. -/
def escapeExtent (cs : List Char) : Except Fault Nat :=
  let c := firstOrNul cs
  if isSimpleEscape c then .ok 1
  else if isDigit c then fixedEscape 0 [isDigit, isDigit, isDigit] .decimalEscape cs
  else match cs with
    | 'x' :: _ => fixedEscape 1 [isHex, isHex] .hexEscape cs
    | 'o' :: _ => fixedEscape 1 octalClasses .octalEscape cs
    | 'u' :: '\x7b' :: cs =>
      match unicodeEscape cs with
      | .ok n => .ok (2 + n)
      | .error f => .error (f.shift 2)
    | '\n' :: cs => .ok (1 + blankExtent cs)
    | '\r' :: '\n' :: cs => .ok (2 + blankExtent cs)
    | _ => .error (.single 0 (.unknownEscape c))

/-! ## Strings -/

/-- The extent, up to and with the closing quote, of a string of which `n` characters have been
read, the opening quote included. -/
def stringFrom (n : Nat) : List Char → Except Fault Nat
  | [] => .error ⟨0, n, .openString⟩
  | c :: cs =>
    if c = '\x00' then .error ⟨0, n, .openString⟩
    else if c = '"' then .ok n
    else if c = '\\' then
      match escapeExtent cs with
      | .ok k => stringFrom (n + 1 + k) (cs.drop k)
      | .error f => .error (f.shift (n + 1))
    else stringFrom (n + 1) cs
  termination_by cs => cs.length
  decreasing_by all_goals simp only [List.length_cons, List.length_drop]; omega

/-- The extent of the string that an opening quote in front of the text begins. -/
def stringExtent (cs : List Char) : Except Fault Nat := stringFrom 1 cs

/-! ## Characters -/

/-- The extent of an escape in a character literal, after its backslash. -/
def characterEscape? (cs : List Char) : Option Nat :=
  let fixed (lead : Nat) (classes : List (Char → Bool)) : Option Nat :=
    match matchClasses classes (cs.drop lead) with
    | .ok () => some (lead + classes.length)
    | .error _ => none
  if isSimpleEscape (firstOrNul cs) then some 1
  else if isDecimal (firstOrNul cs) then fixed 0 [isDecimal, isDecimal, isDecimal]
  else if firstOrNul cs == 'x' then fixed 1 [isHex, isHex]
  else if firstOrNul cs == 'o' then fixed 1 octalClasses
  else none

/-- The extent of the character literal that a single quote in front of the text begins, if it
begins one. A NUL is never passed, so of the literal of NUL only the quote in front is taken. -/
def characterExtent? : List Char → Option Nat
  | [] => none
  | c :: cs =>
    if c = '\\' then
      match characterEscape? cs with
      | some k => if firstOrNul (cs.drop k) == '\'' then some (k + 2) else none
      | none => none
    else if c = '\'' || c = '\n' then none
    else if firstOrNul cs == '\'' then some (if c = '\x00' then 0 else 2)
    else none

end HashIf
