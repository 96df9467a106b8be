import HashIf.Source.Token

/-! Layout: the text of tokens at their lines and columns. Where tokens have been dropped, blanks
and line feeds stand for them, so that the others keep their lines. -/

namespace HashIf

/-- The place behind the text laid out so far. -/
structure Pen where
  line : Int
  col : Int
  deriving DecidableEq

namespace Pen

def start : Pen := ⟨1, 1⟩

/-- The line feeds that lead to a line, and the place behind them. -/
def toLine (p : Pen) (line : Int) : List Char × Pen :=
  if p.line < line then (List.replicate (line - p.line).toNat '\n', ⟨line, 1⟩) else ([], p)

/-- The spaces that lead to a column, and the place behind them. Beyond that column, a single space
keeps the token apart from the one before it. -/
def toColumn (p : Pen) (col : Int) : List Char × Pen :=
  if p.col < col then (List.replicate (col - p.col).toNat ' ', ⟨p.line, col⟩)
  else if 1 < p.col then ([' '], ⟨p.line, p.col + 1⟩)
  else ([], p)

def behind (p : Pen) (cs : List Char) : Pen :=
  if cs.contains '\n' then
    ⟨p.line + cs.count '\n', (cs.reverse.takeWhile (· != '\n')).length + 1⟩
  else ⟨p.line, p.col + cs.length⟩

end Pen

/-- A token with the white space in front of it, and the place behind it. -/
def layToken (p : Pen) (t : Token) : List Char × Pen :=
  let (feeds, p) := p.toLine t.loc.line
  let (spaces, p) := p.toColumn t.loc.col
  let cs := t.lexeme.toList
  (feeds ++ spaces ++ cs, p.behind cs)

/-- Lays out tokens behind the text `laid`, up to the token for the end of the source. -/
def layoutFrom (laid : String) (p : Pen) : List Token → String
  | [] => laid
  | t :: ts =>
    if t.kind = .eof then laid
    else
      let (cs, p) := layToken p t
      layoutFrom (laid ++ String.ofList cs) p ts

/-- No token stands in front of the token for the end of the source. -/
def nothingToLay : List Token → Bool
  | [] => true
  | t :: _ => t.kind = .eof

/-- The text of tokens at their places; it ends with a line feed unless there is no token. -/
def layout (ts : List Token) : String :=
  if nothingToLay ts then "" else layoutFrom "" .start ts ++ "\n"

end HashIf
