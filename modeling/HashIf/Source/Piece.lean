import HashIf.Source.Comment
import HashIf.Source.Lexeme

/-! The pieces of a source text: blanks, comments and tokens, in order. Pieces know no positions;
together they make up the text. -/

namespace HashIf

inductive Piece
  | blank (c : Char)
  | comment (chars : List Char)
  | token (kind : Kind) (chars : List Char)
  deriving DecidableEq

namespace Piece

def chars : Piece → List Char
  | blank c => [c]
  | comment cs => cs
  | token _ cs => cs

end Piece

/-- White space between tokens. -/
def isSourceBlank (c : Char) : Bool :=
  c == ' ' || c == '\t' || c == '\r' || c == '\n' || c == '\x0c'

/-- The piece that begins with `c` in front of a text, and its further extent. -/
def nextPiece (c : Char) (cs : List Char) : Except Fault (Piece × Nat) :=
  if isSourceBlank c then .ok (.blank c, 0)
  else if opensComment c cs then
    match commentExtent cs with
    | .ok n => .ok (.comment (c :: cs.take n), n)
    | .error f => .error f
  else match lexemeExtent c cs with
    | .ok (kind, n) => .ok (.token kind (c :: cs.take n), n)
    | .error f => .error f

/-- The pieces of a text in front of which `offset` characters have been read as the pieces
`read`, the last one first. -/
def piecesFrom (offset : Nat) (read : List Piece) : List Char → Except Fault (List Piece)
  | [] => .ok read.reverse
  | c :: cs =>
    match nextPiece c cs with
    | .ok (piece, n) => piecesFrom (offset + 1 + n) (piece :: read) (cs.drop n)
    | .error f => .error (f.shift offset)
  termination_by cs => cs.length
  decreasing_by simp only [List.length_cons, List.length_drop]; omega

def pieces (cs : List Char) : Except Fault (List Piece) := piecesFrom 0 [] cs

/-! ## Laws -/

theorem chars_of_nextPiece (h : nextPiece c cs = .ok (piece, n)) :
    piece.chars = c :: cs.take n := by
  unfold nextPiece at h
  split at h
  · cases h; rfl
  split at h <;> split at h <;> cases h <;> rfl

theorem chars_piecesFrom {read : List Piece} (h : piecesFrom offset read cs = .ok ps) :
    ps.flatMap Piece.chars = read.reverse.flatMap Piece.chars ++ cs := by
  fun_induction piecesFrom offset read cs with
  | case1 => cases h; simp
  | case2 offset read c cs piece n hp ih =>
    rw [ih h, List.reverse_cons, List.flatMap_append, List.flatMap_singleton,
      chars_of_nextPiece hp, List.append_assoc, List.cons_append, List.take_append_drop]
  | case3 => cases h

/-- Nothing is lost: the pieces make up the text. -/
theorem chars_pieces (h : pieces cs = .ok ps) : ps.flatMap Piece.chars = cs :=
  chars_piecesFrom h

end HashIf
