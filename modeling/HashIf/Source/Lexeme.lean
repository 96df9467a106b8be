import HashIf.Source.Lexeme.Number
import HashIf.Source.Lexeme.Quoted
import HashIf.Source.Lexeme.Symbol

/-! The token at the head of a text: its kind and how far it goes. Both depend on the characters
alone, not on where they stand. -/

namespace HashIf

/-- The kind of the symbol with the given characters. -/
def Kind.ofSymbol (cs : List Char) : Kind := .symbol (String.ofList cs)

/-- Kind and further extent of the token that begins with `c` in front of a text. -/
def lexemeExtent (c : Char) (cs : List Char) : Except Fault (Kind × Nat) :=
  if isWordStart c then
    let n := wordExtent cs
    .ok (.ofWord (String.ofList (c :: cs.take n)), n)
  else if isDigit c then numberExtent c cs
  else if c = '#' && isWordStart (firstOrNul cs) then .ok (.hashWord, wordExtent cs)
  else if c = '"' then
    match stringExtent cs with
    | .ok n => .ok (.string, n)
    | .error f => .error f
  else if c = '\'' then
    match characterExtent? cs with
    | some n => .ok (.character, n)
    | none => .ok (.ofSymbol ['\''], 0)
  else match symbolExtent c cs with
    | .ok n => .ok (.ofSymbol (c :: cs.take n), n)
    | .error f => .error f

end HashIf
