import HashIf.Source.Token

/-! Directive markers, and the cursor by which a token stream is read. A token is a marker if it is
one of the words `#if`, `#elif`, `#else` and `#end` and the first token on its line, whatever
surrounds it. -/

namespace HashIf

/-! ## Markers -/

/-- A directive marker. -/
inductive Marker
  | ifMarker
  | elifMarker
  | elseMarker
  | endMarker
  deriving DecidableEq

namespace Marker

def word : Marker → String
  | ifMarker => "#if"
  | elifMarker => "#elif"
  | elseMarker => "#else"
  | endMarker => "#end"

def ofWord? (s : String) : Option Marker :=
  match s with
  | "#if" => some ifMarker
  | "#elif" => some elifMarker
  | "#else" => some elseMarker
  | "#end" => some endMarker
  | _ => none

end Marker

/-- The marker that a token is if it is the first on its line. -/
def Token.directiveWord? (t : Token) : Option Marker :=
  if t.kind = .hashWord then Marker.ofWord? t.lexeme else none

/-! ## Cursors -/

/-- A place in a token stream: the tokens that have not been read and the last line of the token
before them, which is zero at the start. -/
structure Cursor where
  lastLine : Int
  unread : List Token

namespace Cursor

def start (ts : List Token) : Cursor := ⟨0, ts⟩

def next? (c : Cursor) : Option Token := c.unread.head?

def atEnd (c : Cursor) : Bool := c.unread.isEmpty

/-- No token but one for the end of the source is next. -/
def atEof (c : Cursor) : Bool :=
  match c.unread with
  | [] => true
  | t :: _ => t.kind = .eof

def startsLine (c : Cursor) : Bool :=
  match c.unread with
  | [] => false
  | t :: _ => c.lastLine < t.loc.line

def marker? (c : Cursor) : Option Marker :=
  match c.unread with
  | [] => none
  | t :: _ => if c.lastLine < t.loc.line then t.directiveWord? else none

/-- The cursor behind the next token; at the end there is nowhere to go. -/
def tail (c : Cursor) : Cursor :=
  match c.unread with
  | [] => c
  | t :: ts => ⟨t.lastLine, ts⟩

/-- The cursor behind the next `n` tokens. -/
def drop (c : Cursor) : Nat → Cursor
  | 0 => c
  | n + 1 => c.tail.drop n

/-- The number of tokens taken from a stream of `n` tokens when the cursor stands where it does:
those that have been read, and one of lookahead if there is one. -/
def pulled (c : Cursor) (n : Nat) : Nat := min (n - c.unread.length + 1) n

/-- The wording of the fault of reading on at the end. -/
def exhausted : String := "advance() past end of token stream"

def read? (c : Cursor) : Option (Token × Cursor) :=
  match c.unread with
  | [] => none
  | t :: _ => some (t, c.tail)

@[simp] theorem unread_tail (c : Cursor) : c.tail.unread = c.unread.tail := by
  unfold tail; split <;> simp_all

@[simp] theorem unread_drop (c : Cursor) (n : Nat) : (c.drop n).unread = c.unread.drop n := by
  induction n generalizing c with
  | zero => rfl
  | succ n ih => simp [drop, ih]

end Cursor

/-- The tokens of a stream from a cursor on, each with the marker that it is. -/
def classifyFrom (lastLine : Int) : List Token → List (Token × Option Marker)
  | [] => []
  | t :: ts => (t, Cursor.marker? ⟨lastLine, t :: ts⟩) :: classifyFrom t.lastLine ts

/-- The tokens of a stream, each with the marker that it is. -/
def classify (ts : List Token) : List (Token × Option Marker) := classifyFrom 0 ts

end HashIf
