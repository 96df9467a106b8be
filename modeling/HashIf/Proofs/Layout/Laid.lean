import HashIf.Layout
import HashIf.Proofs.Source.Lookahead

/-! Laid-out texts: each token behind the white space that leads to its place. The white space is
never empty behind another token, and it leads to the line of the token. -/

namespace HashIf

/-! ## Pens -/

namespace Pen

variable {p : Pen} {line col : Int}

theorem line_toLine (h : p.line ≤ line) : (p.toLine line).2.line = line := by
  unfold toLine
  split
  · rfl
  · exact Int.le_antisymm h (Int.not_lt.mp ‹_›)

/-- The line feeds that lead to a line are some unless the pen stands there or behind it. -/
theorem toLine_cases : (p.toLine line).1 = [] ∧ (p.toLine line).2 = p ∨
    ∃ n, (p.toLine line).1 = List.replicate (n + 1) '\n' := by
  unfold toLine
  split
  · exact .inr ⟨(line - p.line).toNat - 1, congrArg (List.replicate · '\n') (by omega)⟩
  · exact .inl ⟨rfl, rfl⟩

theorem count_toLine : (p.toLine line).1.count '\n' = (line - p.line).toNat := by
  unfold toLine
  split
  · exact List.count_replicate_self
  · rw [List.count_nil]
    omega

theorem col_toLine (h : 1 ≤ p.col) : 1 ≤ (p.toLine line).2.col := by
  unfold toLine
  split
  · exact Int.le_refl 1
  · exact h

theorem line_toColumn : (p.toColumn col).2.line = p.line := by
  unfold toColumn
  split
  · rfl
  split <;> rfl

theorem col_toColumn : p.col ≤ (p.toColumn col).2.col := by
  unfold toColumn
  split
  · next h => exact Int.le_of_lt h
  split
  · exact Int.le_add_one (Int.le_refl _)
  · exact Int.le_refl _

/-- The spaces that lead to a column are some unless the pen stands at the start of a line. -/
theorem toColumn_cases : (p.toColumn col).1 = [] ∧ p.col ≤ 1 ∨
    ∃ n, (p.toColumn col).1 = List.replicate (n + 1) ' ' := by
  unfold toColumn
  split
  · exact .inr ⟨(col - p.col).toNat - 1, congrArg (List.replicate · ' ') (by omega)⟩
  split
  · exact .inr ⟨0, rfl⟩
  · exact .inl ⟨rfl, Int.not_lt.mp ‹_›⟩

theorem line_behind (cs : List Char) : (p.behind cs).line = p.line + cs.count '\n' := by
  unfold behind
  split
  · rfl
  · next h =>
    rw [List.count_eq_zero.mpr (by simpa using h)]
    exact (Int.add_zero _).symm

theorem col_behind {cs : List Char} (hp : 1 ≤ p.col) (hn : cs ≠ [])
    (hl : cs.getLast? ≠ some '\n') : 1 < (p.behind cs).col := by
  obtain ⟨front, c, rfl⟩ := (List.eq_nil_or_concat' cs).resolve_left hn
  have hc : c ≠ '\n' := by simpa using hl
  have hrow : (front ++ [c]).reverse.takeWhile (· != '\n') =
      c :: front.reverse.takeWhile (· != '\n') := by
    rw [List.reverse_append, List.reverse_singleton, List.singleton_append,
      List.takeWhile_cons_of_pos (by simpa using hc)]
  unfold behind
  split
  · rw [hrow, List.length_cons]
    dsimp only
    omega
  · simp only [List.length_append, List.length_cons, List.length_nil]
    omega

/-- The white space that leads to a token. -/
def gap (p : Pen) (t : Token) : List Char :=
  (p.toLine t.loc.line).1 ++ ((p.toLine t.loc.line).2.toColumn t.loc.col).1

/-- The place behind a token. -/
def after (p : Pen) (t : Token) : Pen :=
  ((p.toLine t.loc.line).2.toColumn t.loc.col).2.behind t.lexeme.toList

theorem layToken_eq (p : Pen) (t : Token) :
    layToken p t = (p.gap t ++ t.lexeme.toList, p.after t) := rfl

variable {t : Token}

theorem gap_breaks : ∀ b ∈ p.gap t, Breaks b := by
  intro b hb
  rcases List.mem_append.mp hb with hb | hb
  · rcases toLine_cases with ⟨h, -⟩ | ⟨n, h⟩ <;> rw [h] at hb
    · cases hb
    · exact .inr (List.eq_of_mem_replicate hb)
  · rcases toColumn_cases with ⟨h, -⟩ | ⟨n, h⟩ <;> rw [h] at hb
    · cases hb
    · exact .inl (List.eq_of_mem_replicate hb)

/-- White space leads to every token behind another one. -/
theorem gap_ne_nil (hp : 1 < p.col) : p.gap t ≠ [] := by
  intro h
  obtain ⟨hl, hc⟩ := List.append_eq_nil_iff.mp h
  rcases toLine_cases with ⟨-, hline⟩ | ⟨n, hfeeds⟩
  · rw [hline] at hc
    rcases toColumn_cases with ⟨-, hcol⟩ | ⟨n, hspaces⟩
    · exact Int.not_lt.mpr hcol hp
    · cases hspaces.symm.trans hc
  · cases hfeeds.symm.trans hl

theorem count_gap (hp : p.line ≤ t.loc.line) : p.line + (p.gap t).count '\n' = t.loc.line := by
  have hc : ((p.toLine t.loc.line).2.toColumn t.loc.col).1.count '\n' = 0 := by
    rcases toColumn_cases with ⟨h, -⟩ | ⟨n, h⟩
    · rw [h, List.count_nil]
    · rw [h, List.count_replicate, if_neg (by decide)]
  rw [gap, List.count_append, count_toLine, hc]
  omega

theorem line_after (hp : p.line ≤ t.loc.line) : (p.after t).line = t.lastLine := by
  rw [after, line_behind, line_toColumn, line_toLine hp, Token.lastLine]

theorem col_after (hp : 1 ≤ p.col) (hn : t.lexeme.toList ≠ [])
    (hl : t.lexeme.toList.getLast? ≠ some '\n') : 1 < (p.after t).col :=
  col_behind (Int.le_trans (col_toLine hp) col_toColumn) hn hl

end Pen

/-! ## Texts -/

/-- The text of tokens behind the text in front of a pen. -/
def laidFrom (p : Pen) : List Token → List Char
  | [] => []
  | t :: ts => p.gap t ++ (t.lexeme.toList ++ laidFrom (p.after t) ts)

variable {e : Token} {ts : List Token}

theorem layoutFrom_eq (p : Pen) (laid : String) (ht : ∀ t ∈ ts, t.kind ≠ .eof)
    (he : e.kind = .eof) :
    (layoutFrom laid p (ts ++ [e])).toList = laid.toList ++ laidFrom p ts := by
  induction ts generalizing p laid with
  | nil => rw [List.nil_append, layoutFrom, if_pos he, laidFrom, List.append_nil]
  | cons t ts ih =>
    obtain ⟨h, hts⟩ := List.forall_mem_cons.mp ht
    rw [List.cons_append, layoutFrom, if_neg h, Pen.layToken_eq]
    dsimp only
    rw [ih _ _ hts, laidFrom, String.toList_append, String.toList_ofList, List.append_assoc,
      List.append_assoc]

theorem layout_nil (he : e.kind = .eof) : layout [e] = "" := if_pos (by simp [nothingToLay, he])

theorem layout_eq (hn : ts ≠ []) (ht : ∀ t ∈ ts, t.kind ≠ .eof) (he : e.kind = .eof) :
    (layout (ts ++ [e])).toList = laidFrom .start ts ++ ['\n'] := by
  have hlay : ¬nothingToLay (ts ++ [e]) = true := by
    obtain ⟨t, ts, rfl⟩ := List.exists_cons_of_ne_nil hn
    simpa [nothingToLay] using ht t List.mem_cons_self
  rw [layout, if_neg hlay, String.toList_append, layoutFrom_eq .start "" ht he]
  rfl

end HashIf
