import HashIf.Source.LexicalError
import HashIf.Source.Piece

/-! The tokens of a source text: its token pieces at their places, and a token for its end. -/

namespace HashIf

/-- The tokens of pieces that stand at a position, after the tokens `placed`, the last one first,
and the token for the end behind them. -/
def placeFrom (file : String) (p : Position) (placed : List Token) : List Piece → List Token
  | [] => (⟨.eof, "", .ofPosition file p 0⟩ :: placed).reverse
  | .token kind cs :: ps =>
    placeFrom file (p.advance cs)
      (⟨kind, String.ofList cs, .ofPosition file p cs.length⟩ :: placed) ps
  | piece :: ps => placeFrom file (p.advance piece.chars) placed ps

def placeTokens (file : String) (ps : List Piece) : List Token :=
  placeFrom file .start [] ps

/-- The tokens of a named source text. -/
def tokenize (file source : String) : Except LexicalError (List Token) :=
  match pieces source.toList with
  | .ok ps => .ok (placeTokens file ps)
  | .error f => .error (.ofFault file source.toList f)

end HashIf
