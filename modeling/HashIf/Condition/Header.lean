import HashIf.Condition.Literal
import HashIf.Diagnostic

/-! Headers: the tokens behind `#if` or `#elif` on the line of the marker, and the condition that
they make up.

    condition   := conjunction ('||' conjunction)*
    conjunction := predicate ('&&' predicate)*
    predicate   := '(' condition ')' | 'defined' name | 'undefined' name
                 | operand (comparison operand)?
    operand     := name | ['-'] number | string | 'true' | 'false'

The condition ends at the word `then` or with the header. -/

namespace HashIf

/-! ## Headers -/

/-- The tokens up to the first that begins a line or stands for the end of the source. -/
def headerTokens (lastLine : Int) : List Token → List Token
  | [] => []
  | t :: ts =>
    if t.kind = .eof ∨ lastLine < t.loc.line then [] else t :: headerTokens t.lastLine ts

/-- A header: its tokens, and a token that stands for its end in diagnostics. -/
structure Header where
  tokens : List Token
  stop : Token

namespace Header

/-- The token for the end of a header in front of the remaining tokens of the stream. -/
def stopToken (directive : Token) : List Token → Token
  | [] => ⟨.eof, "", directive.loc⟩
  | t :: _ => if t.kind = .eof then t else ⟨.newline, "\n", t.loc⟩

/-- The header behind a directive token, from a cursor on. -/
def ofCursor (directive : Token) (c : Cursor) : Header :=
  let tokens := headerTokens c.lastLine c.unread
  ⟨tokens, stopToken directive (c.unread.drop tokens.length)⟩

end Header

/-- A step of parsing a header: what it gives, and the tokens that it leaves, which are the last of
those it was given. A step that fails leaves the tokens where it stopped. -/
structure Parsed (α : Type) (ts : List Token) where
  result : Except Failure α
  rest : List Token
  suffix : rest <:+ ts

namespace Parsed

variable {α β : Type} {ts : List Token}

def pure (a : α) (ts : List Token) : Parsed α ts := ⟨.ok a, ts, List.suffix_refl ts⟩

/-- A step that fails in front of the next token. -/
def fail (f : Failure) (ts : List Token) : Parsed α ts := ⟨.error f, ts, List.suffix_refl ts⟩

def demand (t : Token) (d : Demand) (ts : List Token) : Parsed α ts :=
  fail (.diagnostic (.header t d)) ts

/-- The same step seen from a token before. -/
def behind (t : Token) (p : Parsed α ts) : Parsed α (t :: ts) :=
  ⟨p.result, p.rest, p.suffix.trans (List.suffix_cons t ts)⟩

/-- Goes on with what a step gives on the tokens that it leaves. -/
def andThen (p : Parsed α ts) (k : α → (rest : List Token) → rest <:+ ts → Parsed β rest) :
    Parsed β ts :=
  match p with
  | ⟨.error f, rest, h⟩ => ⟨.error f, rest, h⟩
  | ⟨.ok a, rest, h⟩ =>
    let q := k a rest h
    ⟨q.result, q.rest, q.suffix.trans h⟩

def map (f : α → β) (p : Parsed α ts) : Parsed β ts :=
  ⟨p.result.map f, p.rest, p.suffix⟩

end Parsed

namespace Header

/-! ## Single tokens

`stop` is the token for the end of the header, and a step is given the tokens left of it. -/

section
variable (stop : Token)

def peek (ts : List Token) : Token := ts.headD stop

def advance : (ts : List Token) → Parsed Token ts
  | [] => .demand stop .moreTokens []
  | t :: ts => (Parsed.pure t ts).behind t

/-- Reads the next token if its kind is one of the given ones. -/
def accept (kinds : List Kind) (ts : List Token) : Parsed (Option Token) ts :=
  if (peek stop ts).kind ∈ kinds then (advance stop ts).map some else .pure none ts

/-- Reads the next token, which has to be of a kind. -/
def expect (kind : Kind) (d : Demand) (ts : List Token) : Parsed Token ts :=
  if (peek stop ts).kind = kind then advance stop ts else .demand (peek stop ts) d ts

/-! ## Operands -/

def numberTerm (negative : Bool) (t : Token) : Except Failure Term :=
  if t.kind = .integer then
    match integerOfNumeral? t.lexeme with
    | some v => .ok (.int (if negative then -v else v))
    | none => .error (.diagnostic (.header t .integerLiteral))
  else
    match binary64OfNumeral? t.lexeme with
    | some x => .ok (.float (if negative then x.neg else x))
    | none => .error (.diagnostic (.header t .floatLiteral))

def isNumber (t : Token) : Bool := t.kind = .integer || t.kind = .float

/-- The term of a token that is an operand by itself. -/
def operandTerm? (t : Token) : Option (Except Failure Term) :=
  match t.kind with
  | .integer | .float => some (numberTerm false t)
  | .string =>
    some (match unescape t.lexeme with
      | .ok text => .ok (.string text)
      | .error l => .error (.limit l))
  | .trueWord => some (.ok (.bool true))
  | .falseWord => some (.ok (.bool false))
  | .identifier => some (.ok (.reference t.lexeme))
  | _ => none

/-- Reads the number behind a minus sign, to which it has to be glued. -/
def negatedNumber (minus : Token) (ts : List Token) : Parsed Operand ts :=
  let t := peek stop ts
  if isNumber t && t.loc.index == minus.loc.index + 1 then
    (advance stop ts).andThen fun t rest _ =>
      ⟨(numberTerm true t).map (⟨minus.loc, ·⟩), rest, List.suffix_refl rest⟩
  else .demand t .number ts

def operand : (ts : List Token) → Parsed Operand ts
  | [] => .demand stop .operand []
  | t :: ts =>
    if t.kind = .symbol "-" then (negatedNumber stop t ts).behind t
    else match operandTerm? t with
      | some term => ⟨term.map (⟨t.loc, ·⟩), ts, List.suffix_cons t ts⟩
      | none => .demand t .operand (t :: ts)

/-! ## Conditions -/

/-- The comparison of which a token is the operator. -/
def comparison? (t : Token) : Option Comparison :=
  match t.kind with
  | .symbol s => Comparison.ofSymbol? s
  | _ => none

/-- Reads what may follow the left operand of a comparison. -/
def comparisonTail (lhs : Operand) : (ts : List Token) → Parsed Condition ts
  | [] => .pure (.ofOperand lhs) []
  | t :: ts =>
    match comparison? t with
    | some op => ((operand stop ts).map (.compare t.loc op lhs)).behind t
    | none => .pure (.ofOperand lhs) (t :: ts)

/-- Reads a predicate that no parenthesis begins. -/
def simplePredicate : (ts : List Token) → Parsed Condition ts
  | [] => .demand stop .operand []
  | t :: ts =>
    if t.kind = .definedWord then
      ((expect stop .identifier (.variableName t.lexeme) ts).map
        (Condition.defined t.loc ·.lexeme)).behind t
    else if t.kind = .undefinedWord then
      ((expect stop .identifier (.variableName t.lexeme) ts).map
        (Condition.undefined t.loc ·.lexeme)).behind t
    else (operand stop (t :: ts)).andThen fun lhs rest _ => comparisonTail stop lhs rest

mutual

def condition (ts : List Token) : Parsed Condition ts :=
  (conjunction ts).andThen fun lhs rest _ => conditionTail lhs rest
  termination_by ts.length * 5 + 4
  decreasing_by
  · omega
  · next h => have := h.length_le; omega

/-- Reads the alternatives that follow the condition read so far. -/
def conditionTail (lhs : Condition) : (ts : List Token) → Parsed Condition ts
  | [] => .pure lhs []
  | t :: ts =>
    if t.kind = .symbol "||" then
      ((conjunction ts).andThen fun rhs rest _ => conditionTail (.or t.loc lhs rhs) rest).behind t
    else .pure lhs (t :: ts)
  termination_by ts => ts.length * 5 + 3
  decreasing_by
  · simp only [List.length_cons]; omega
  · next h => have := h.length_le; simp only [List.length_cons]; omega

def conjunction (ts : List Token) : Parsed Condition ts :=
  (predicate ts).andThen fun lhs rest _ => conjunctionTail lhs rest
  termination_by ts.length * 5 + 2
  decreasing_by
  · omega
  · next h => have := h.length_le; omega

/-- Reads the conjuncts that follow the conjunction read so far. -/
def conjunctionTail (lhs : Condition) : (ts : List Token) → Parsed Condition ts
  | [] => .pure lhs []
  | t :: ts =>
    if t.kind = .symbol "&&" then
      ((predicate ts).andThen fun rhs rest _ => conjunctionTail (.and t.loc lhs rhs) rest).behind t
    else .pure lhs (t :: ts)
  termination_by ts => ts.length * 5 + 1
  decreasing_by
  · simp only [List.length_cons]; omega
  · next h => have := h.length_le; simp only [List.length_cons]; omega

def predicate : (ts : List Token) → Parsed Condition ts
  | [] => simplePredicate stop []
  | t :: ts =>
    if t.kind = .symbol "(" then
      ((condition ts).andThen fun inner rest _ =>
        (expect stop (.symbol ")") .closing rest).map fun _ => inner).behind t
    else simplePredicate stop (t :: ts)
  termination_by ts => ts.length * 5
  decreasing_by simp only [List.length_cons]; omega

end

/-! ## Whole headers -/

/-- Reads the condition of a header, up to and with `then` or the end. -/
def parse (directive : Token) (ts : List Token) : Parsed Condition ts :=
  if ts.isEmpty then .demand stop (.condition directive.lexeme) ts
  else (condition stop ts).andThen fun cond rest _ =>
    match rest with
    | [] => .pure cond []
    | t :: rest =>
      if t.kind = .thenWord then (Parsed.pure cond rest).behind t
      else .demand t .thenWord (t :: rest)

end

end Header

/-- Runs a step of parsing on the header behind a directive token, and gives the number of tokens
that it reads. -/
def Cursor.parseWith (c : Cursor) (directive : Token)
    (step : (stop : Token) → (ts : List Token) → Parsed α ts) : Except Failure α × Nat :=
  let h := Header.ofCursor directive c
  let p := step h.stop h.tokens
  (p.result, h.tokens.length - p.rest.length)

/-- Reads the condition behind a directive token, and gives the number of tokens read. -/
def Cursor.condition (c : Cursor) (directive : Token) : Except Failure Condition × Nat :=
  c.parseWith directive fun stop => Header.parse stop directive

end HashIf
