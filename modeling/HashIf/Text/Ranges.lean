/-! Sets of code points given by closed ranges. -/

namespace HashIf

/-- Closed ranges of code points, in increasing order. -/
abbrev CodeRanges := List (Nat × Nat)

def CodeRanges.contains (rs : CodeRanges) (n : Nat) : Bool :=
  rs.any fun r => r.1 ≤ n && n ≤ r.2

theorem CodeRanges.contains_iff {rs : CodeRanges} :
    rs.contains n = true ↔ ∃ r ∈ rs, r.1 ≤ n ∧ n ≤ r.2 := by
  simp [contains]

end HashIf
