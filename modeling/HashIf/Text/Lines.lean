/-! The lines of a text, each with its line end. A carriage return, a form feed and the separators
beyond ASCII end a line here, though source lines are counted by line feeds alone. -/

namespace HashIf

def isLineEnd (c : Char) : Bool :=
  ('\n' ≤ c && c ≤ '\r') || ('\x1c' ≤ c && c ≤ '\x1e') || c == '\x85' || c == '\u2028' ||
    c == '\u2029'

/-- The lines of a text whose first line continues `current`, which is read backwards. -/
def linesFrom (current : List Char) : List Char → List (List Char)
  | [] => if current.isEmpty then [] else [current.reverse]
  | '\r' :: '\n' :: cs => ('\n' :: '\r' :: current).reverse :: linesFrom [] cs
  | c :: cs =>
    if isLineEnd c then (c :: current).reverse :: linesFrom [] cs else linesFrom (c :: current) cs

/-- The lines of a text, each with its line end; a carriage return and a line feed end it once. -/
def lines (cs : List Char) : List (List Char) := linesFrom [] cs

theorem flatten_linesFrom (current cs : List Char) :
    (linesFrom current cs).flatten = current.reverse ++ cs := by
  fun_induction linesFrom current cs with
  | case1 current h => simp_all
  | case2 => simp
  | case3 current cs ih => simp [ih]
  | case4 current c cs _ _ ih => simp [ih]
  | case5 current c cs _ _ ih => simp [ih]

/-- Nothing is lost: the lines make up the text. -/
theorem flatten_lines (cs : List Char) : (lines cs).flatten = cs := flatten_linesFrom [] cs

end HashIf
