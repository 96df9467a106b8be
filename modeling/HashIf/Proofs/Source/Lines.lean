import HashIf.Proofs.Source.Tiling

/-! Lines of tokens. The tokens of a text stand on its lines, each on the line where the one before
it ends or on a later one. -/

namespace HashIf

/-- A token of a text begins and ends on lines of the text. -/
theorem line_of_token {text : List Char} {ps : List Piece} (hps : pieces text = .ok ps)
    (h : t ∈ bodyTokens file ps) : 1 ≤ t.loc.line ∧ t.lastLine ≤ 1 + text.count '\n' := by
  obtain ⟨front, kind, cs, back, -, -, -, rfl, rfl⟩ := place_of_token hps h
  simp only [Token.lastLine, Location.ofPosition, Position.line_start, String.toList_ofList,
    List.count_append]
  omega

theorem line_of_tokenize {source : String} (h : tokenize file source = .ok ts) :
    ∃ t us, ts = t :: us ∧ 1 ≤ t.loc.line := by
  obtain ⟨ps, hps, rfl⟩ := tokenize_eq h
  cases hb : bodyTokens file ps with
  | nil =>
    refine ⟨_, [], rfl, ?_⟩
    simp only [endToken, Location.ofPosition, Position.line_start]
    omega
  | cons t us =>
    refine ⟨t, us ++ [endToken file source.toList], rfl, ?_⟩
    exact (line_of_token hps (hb ▸ List.mem_cons_self)).1

theorem lines_placesFrom (p : Position) (ps : List Piece) : (placesFrom p ps).Pairwise
    fun x y => x.1.line + x.2.chars.count '\n' ≤ y.1.line := by
  induction ps generalizing p with
  | nil => exact .nil
  | cons piece ps ih =>
    refine .cons (fun ⟨q, other⟩ h => ?_) (ih _)
    obtain ⟨-, front, back, -, rfl⟩ := of_mem_placesFrom h
    rw [Position.line_advance, Position.line_advance]
    exact Nat.le_add_right _ _

/-- No token begins on a line before the one where an earlier token ends. -/
theorem bodyTokens_lines (file : String) (ps : List Piece) :
    (bodyTokens file ps).Pairwise fun t u => t.lastLine ≤ u.loc.line := by
  refine (lines_placesFrom .start ps).filterMap _ fun x y hxy t ht u hu => ?_
  obtain ⟨p, piece⟩ := x
  obtain ⟨q, other⟩ := y
  cases piece <;> cases ht
  cases other <;> cases hu
  rw [Token.lastLine, String.toList_ofList]
  exact Int.ofNat_le.mpr hxy

end HashIf
