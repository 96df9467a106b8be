import HashIf.Filter
import HashIf.Layout
import HashIf.Source.Tokenize

/-! Conditional compilation of a source text: its tokens are filtered in an environment, and laid
out again one by one as they are kept. -/

namespace HashIf

/-- The tokens of a named source text that survive in an environment. -/
def preprocess (env : Environment) (file source : String) : Except Failure (List Token) :=
  match tokenize file source with
  | .error e => .error (.diagnostic (.lexical e))
  | .ok ts => filterTokens env ts

/-- Runs a pass from a cursor on in open blocks and lays out each token as soon as it is kept,
behind the text `laid` if a token has been laid out before. The pass goes no further than to the
token for the end of the source, if it is kept. -/
def layoutPassFrom (env : Environment) (laid : Option String) (p : Pen) (c : Cursor)
    (blocks : List Block) : Except Failure (Option String) :=
  match _h : c.unread with
  | [] =>
    match blocks with
    | [] => .ok laid
    | b :: _ => .error (FilterStep.openAtEnd b)
  | t :: _ =>
    match FilterStep.next env t c blocks with
    | .keep =>
      if t.kind = .eof then .ok laid
      else
        let (cs, p) := layToken p t
        layoutPassFrom env (some (laid.getD "" ++ String.ofList cs)) p c.tail blocks
    | .drop skipped blocks => layoutPassFrom env laid p (c.tail.drop skipped) blocks
    | .fail f _ => .error f
  termination_by c.unread.length
  decreasing_by all_goals
    simp only [Cursor.unread_drop, Cursor.unread_tail, _h, List.tail_cons, List.length_drop,
      List.length_cons]
    omega

/-- The text of a source that survives in an environment. A pass that fails leaves none. -/
def preprocessText (env : Environment) (file source : String) : Except Failure String :=
  match tokenize file source with
  | .error e => .error (.diagnostic (.lexical e))
  | .ok ts =>
    match layoutPassFrom env none .start (.start ts) [] with
    | .error f => .error f
    | .ok none => .ok ""
    | .ok (some text) => .ok (text ++ "\n")

end HashIf
