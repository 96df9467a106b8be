import HashIf.Source.Lexeme.Quoted

/-! Comments, which nest. String and character literals in a comment are skipped whole, so that a
comment mark inside one neither opens nor closes anything. -/

namespace HashIf

/-- A comment begins with the opening parenthesis `c` in front of the text. -/
def opensComment (c : Char) (cs : List Char) : Bool :=
  c == '(' && firstOrNul cs == '*' && firstOrNul (cs.drop 1) != ')'

/-- The extent of a comment of which `n` characters have been read, in `depth` further comments
within it. -/
def commentFrom (depth n : Nat) : List Char → Except Fault Nat
  | [] => .error ⟨0, n, .openComment⟩
  | c :: cs =>
    if c = '\x00' then .error ⟨0, n, .openComment⟩
    else if c = '(' && firstOrNul cs == '*' then commentFrom (depth + 1) (n + 2) (cs.drop 1)
    else if c = '*' && firstOrNul cs == ')' then
      match depth with
      | 0 => .ok (n + 2)
      | depth + 1 => commentFrom depth (n + 2) (cs.drop 1)
    else if c = '"' then
      match stringExtent cs with
      | .ok k => commentFrom depth (n + 1 + k) (cs.drop k)
      | .error f => .error (f.shift n)
    else if c = '\'' then
      match characterExtent? cs with
      | some k => commentFrom depth (n + 1 + k) (cs.drop k)
      | none => commentFrom depth (n + 1) cs
    else commentFrom depth (n + 1) cs
  termination_by cs => cs.length
  decreasing_by all_goals simp only [List.length_cons, List.length_drop]; omega

/-- The further extent of the comment that an opening parenthesis in front of the text begins. -/
def commentExtent (cs : List Char) : Except Fault Nat :=
  match commentFrom 0 2 (cs.drop 1) with
  | .ok n => .ok (n - 1)
  | .error f => .error f

end HashIf
