import HashIf.Source.Fault
import HashIf.Source.Lexeme.Word

/-! Operators and punctuation: a few pairs of characters, and single characters. -/

namespace HashIf

def pairSymbols : List (Char × Char) :=
  [('=', '~'), ('<', '>'), ('<', '='), ('>', '='), ('=', '='), ('!', '='), ('&', '&'),
    ('|', '|'), ('-', '>'), ('<', '-'), (':', '='), (':', ':'), (';', ';'), ('|', '>'),
    ('@', '@')]

def singleSymbols : List Char :=
  ['(', ')', '[', ']', '\x7b', '\x7d', ',', ';', ':', '.', '=', '+', '-', '*', '/', '%', '<', '>',
    '&', '|', '^', '~', '!', '@', '?', '$', '\\', '\x60', '#']

/-- The further extent of the symbol that begins with `c` in front of a text. A pair is preferred,
and no two pairs agree in both characters. -/
def symbolExtent (c : Char) (cs : List Char) : Except Fault Nat :=
  if pairSymbols.contains (c, firstOrNul cs) then .ok 1
  else if singleSymbols.contains c then .ok 0
  else .error (.single 0 (.unexpected c))

end HashIf
