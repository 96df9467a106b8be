import HashIf.Source.Fault
import HashIf.Source.Location
import HashIf.Text.Lines

/-! Lexical errors: a fault at its place in a named source, with the line that it stands on. -/

namespace HashIf

structure LexicalError where
  loc : Location
  cause : FaultCause
  lineText : String
  deriving DecidableEq

namespace LexicalError

/-- The line of a text with a number, with its line end, or nothing beyond the last line. -/
def lineOf (cs : List Char) (line : Nat) : String :=
  String.ofList ((lines cs)[line - 1]?.getD [])

def ofFault (file : String) (cs : List Char) (f : Fault) : LexicalError :=
  let p := Position.start.advance (cs.take f.offset)
  ⟨.ofPosition file p f.length, f.cause, lineOf cs p.line⟩

/-- The quoted line without line feeds at its end, and a caret below the place of the error. -/
def excerpt (e : LexicalError) : String :=
  let line := String.ofList (e.lineText.toList.reverse.dropWhile (· == '\n')).reverse
  line ++ "\n" ++ String.ofList (List.replicate (e.loc.col - 1).toNat ' ') ++ "^"

end LexicalError

end HashIf
