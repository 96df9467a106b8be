/-! Positions in a source text and the locations that tokens and diagnostics carry. -/

namespace HashIf

/-! ## Positions -/

/-- A place in a source text: the number of characters before it, its line counted by line feeds,
and its column; line and column start at one. -/
structure Position where
  index : Nat
  line : Nat
  col : Nat
  deriving DecidableEq

namespace Position

def start : Position := ⟨0, 1, 1⟩

def step (p : Position) (c : Char) : Position :=
  if c = '\n' then ⟨p.index + 1, p.line + 1, 1⟩ else ⟨p.index + 1, p.line, p.col + 1⟩

def advance (p : Position) (cs : List Char) : Position := cs.foldl step p

@[simp] theorem index_step (p : Position) (c : Char) : (p.step c).index = p.index + 1 := by
  unfold step; split <;> rfl

theorem line_step (p : Position) (c : Char) :
    (p.step c).line = p.line + if c = '\n' then 1 else 0 := by
  unfold step; split <;> rfl

@[simp] theorem advance_nil (p : Position) : p.advance [] = p := rfl

@[simp] theorem advance_cons (p : Position) (c : Char) (cs : List Char) :
    p.advance (c :: cs) = (p.step c).advance cs := rfl

@[simp] theorem advance_append (p : Position) (cs ds : List Char) :
    p.advance (cs ++ ds) = (p.advance cs).advance ds := List.foldl_append

@[simp] theorem index_advance (p : Position) (cs : List Char) :
    (p.advance cs).index = p.index + cs.length := by
  induction cs generalizing p with
  | nil => rfl
  | cons c cs ih => simp only [advance_cons, ih, index_step, List.length_cons]; omega

theorem line_advance (p : Position) (cs : List Char) :
    (p.advance cs).line = p.line + cs.count '\n' := by
  induction cs generalizing p with
  | nil => rfl
  | cons c cs ih =>
    simp only [advance_cons, ih, line_step, List.count_cons, beq_iff_eq]
    omega

end Position

/-! ## Locations -/

/-- A stretch of a named source. The numbers are integers, since a token that was made by hand may
claim any place. -/
structure Location where
  file : String
  index : Int
  line : Int
  col : Int
  length : Int
  deriving DecidableEq

namespace Location

/-- The stretch of `length` characters at a position. -/
def ofPosition (file : String) (p : Position) (length : Nat) : Location :=
  ⟨file, p.index, p.line, p.col, length⟩

def label (l : Location) : String :=
  l.file ++ ":" ++ toString l.line ++ ":" ++ toString l.col

end Location

end HashIf
