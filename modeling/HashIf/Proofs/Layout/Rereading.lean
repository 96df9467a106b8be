import HashIf.Preprocess
import HashIf.Proofs.Filter.Seam
import HashIf.Proofs.Layout.Laid
import HashIf.Proofs.Source.Lines
import HashIf.Proofs.Source.Standalone

/-! Reading a laid-out text again. White space keeps the tokens of the text apart, so that they are
read again on their lines, unless it makes a character literal of two quotes. -/

namespace HashIf

/-! ## Quotes -/

/-- Behind a pen, a lone quote is laid one blank in front of a token that begins with a quote. The
three characters make a literal. -/
inductive Fuses : Pen → List Token → Prop
  | here (ht : t.lexeme = "'") (hg : (p.after t).gap u = [' '])
    (hu : u.lexeme.toList.head? = some '\'') : Fuses p (t :: u :: ts)
  | later (h : Fuses (p.after t) ts) : Fuses p (t :: ts)

theorem characterExtent?_blank (h : firstOrNul cs ≠ '\'') :
    characterExtent? (' ' :: cs) = none := by
  have hq : ¬(firstOrNul cs == '\'') = true := by simpa using h
  rw [characterExtent?, if_neg (by decide), if_neg (by decide), if_neg hq]

/-- Two quotes with a blank between them are no lone quote to begin with. -/
theorem not_reads_quote : ¬Reads ('\'' :: ' ' :: '\'' :: cs) (.token kind ['\''] :: ps) := by
  intro h
  have literal : nextPiece '\'' (' ' :: '\'' :: cs) =
      .ok (.token .character ['\'', ' ', '\''], 2) :=
    nextPiece_token_iff.mpr ⟨by decide, nofun, lexemeExtent_iff.mpr (.character rfl rfl), rfl⟩
  cases h with
  | cons hp => cases literal.symm.trans hp

/-! ## Pieces of laid-out texts -/

/-- The pieces of a laid-out text and the line feed at its end. -/
def laidPieces (p : Pen) : List Token → List Piece
  | [] => [.blank '\n']
  | t :: ts => (p.gap t).map .blank ++ .token t.kind t.lexeme.toList :: laidPieces (p.after t) ts

def Piece.lexeme? : Piece → Option (List Char)
  | token _ cs => some cs
  | _ => none

section

variable {p : Pen} {ts : List Token}

/-- White space or the last line feed follows every token. -/
theorem laidFrom_break (hp : 1 < p.col) :
    ∃ b ds, laidFrom p ts ++ ['\n'] = b :: ds ∧ Breaks b := by
  cases ts with
  | nil => exact ⟨'\n', [], rfl, .inr rfl⟩
  | cons t ts =>
    obtain ⟨b, bs, hb⟩ := List.exists_cons_of_ne_nil (Pen.gap_ne_nil hp : p.gap t ≠ [])
    rw [laidFrom, hb]
    exact ⟨b, _, rfl, Pen.gap_breaks b (hb ▸ List.mem_cons_self)⟩

variable (hs : ∀ t ∈ ts, Standalone t.kind t.lexeme.toList)

include hs

theorem characterExtent?_laidFrom (hp : 1 < p.col)
    (hf : ∀ u ∈ ts.head?, p.gap u = [' '] → u.lexeme.toList.head? ≠ some '\'') :
    characterExtent? (laidFrom p ts ++ ['\n']) = none := by
  cases ts with
  | nil => rfl
  | cons u ts =>
    have hbreaks : ∀ b ∈ p.gap u, Breaks b := Pen.gap_breaks
    have hne := (hs u List.mem_cons_self).ne_nil
    have hu := hf u rfl
    rw [laidFrom]
    cases hg : p.gap u with
    | nil => exact (Pen.gap_ne_nil hp hg).elim
    | cons b bs =>
      rw [hg] at hbreaks hu
      obtain ⟨hb, hbs⟩ := List.forall_mem_cons.mp hbreaks
      rcases hb with rfl | rfl
      · refine characterExtent?_blank ?_
        cases bs with
        | nil =>
          obtain ⟨c, cs, hc⟩ := List.exists_cons_of_ne_nil hne
          rw [hc] at hu ⊢
          exact fun h => hu rfl (congrArg some h)
        | cons b bs => rcases hbs b List.mem_cons_self with rfl | rfl <;> simp [firstOrNul]
      · rfl

/-- Without such quotes a laid-out text is read as its tokens and the white space between them. The
pen stands beyond the first column behind a token, so that white space follows. -/
theorem reads_laidFrom (hp : 1 ≤ p.col) (hf : ¬Fuses p ts) :
    Reads (laidFrom p ts ++ ['\n']) (laidPieces p ts) := by
  induction ts generalizing p with
  | nil => exact .cons rfl .nil
  | cons t ts ih =>
    obtain ⟨ht, hts⟩ := List.forall_mem_cons.mp hs
    have hcol : 1 < (p.after t).col := Pen.col_after hp ht.ne_nil ht.getLast_ne
    have hrest := ih hts (Int.le_of_lt hcol) fun h => hf (.later h)
    have hquote : t.lexeme.toList = ['\''] →
        characterExtent? (laidFrom (p.after t) ts ++ ['\n']) = none := by
      intro hq
      refine characterExtent?_laidFrom hts hcol fun u hu hg hh => hf ?_
      obtain ⟨us, rfl⟩ := List.head?_eq_some_iff.mp hu
      exact .here (String.toList_inj.mp hq) hg hh
    obtain ⟨b, ds, hd, hb⟩ := laidFrom_break hcol
    rw [laidFrom, List.append_assoc, List.append_assoc]
    rw [hd] at hrest hquote ⊢
    exact .blanks Pen.gap_breaks (.token ht hb hquote hrest)

/-- If a laid-out text is read as its lexemes, no quotes make a literal. -/
theorem not_fuses_of_reads (hp : 1 ≤ p.col) (h : Reads (laidFrom p ts ++ ['\n']) ps)
    (hw : ps.filterMap Piece.lexeme? = ts.map (·.lexeme.toList)) : ¬Fuses p ts := by
  induction ts generalizing p ps with
  | nil => exact nofun
  | cons t ts ih =>
    obtain ⟨ht, hts⟩ := List.forall_mem_cons.mp hs
    have hcol : 1 < (p.after t).col := Pen.col_after hp ht.ne_nil ht.getLast_ne
    obtain ⟨b, ds, hd, hb⟩ := laidFrom_break hcol
    rw [laidFrom, List.append_assoc, List.append_assoc] at h
    obtain ⟨qs, rfl, hq⟩ := h.of_blanks Pen.gap_breaks
    obtain ⟨kind, cs, qs, rfl, hrest⟩ := (hd ▸ hq).of_token ht hb
    have hblank : ((p.gap t).map Piece.blank).filterMap Piece.lexeme? = [] := by
      rw [List.filterMap_map]
      exact List.filterMap_eq_nil_iff.mpr fun _ _ => rfl
    rw [List.filterMap_append, hblank, List.nil_append,
      List.filterMap_cons_some (f := Piece.lexeme?) rfl, List.map_cons] at hw
    obtain ⟨rfl, hlexemes⟩ := List.cons.inj hw
    -- Had the quote here been fused, its piece would be the literal and no token of the list.
    intro hf
    cases hf with
    | later hf => exact ih hts (Int.le_of_lt hcol) (hd ▸ hrest rfl) hlexemes hf
    | @here _ _ u us htq hg hu =>
      obtain ⟨cs, hcs⟩ := List.head?_eq_some_iff.mp hu
      rw [laidFrom, hg, hcs, htq] at hq
      exact not_reads_quote hq

end

/-! ## Tokens of laid-out texts -/

/-- A token in its line, whatever its column. -/
def Token.inLine (t : Token) : Kind × String × Int := (t.kind, t.lexeme, t.loc.line)

/-- Read from the line of the pen, the tokens stand on their own lines. -/
theorem inLine_laidPieces {p : Pen} {q : Position} (file : String) (hq : q.line = p.line)
    (hp : ∀ t ∈ ts, p.line ≤ t.loc.line) (hts : ts.Pairwise fun t u => t.lastLine ≤ u.loc.line) :
    ((placesFrom q (laidPieces p ts)).filterMap (placed? file)).map Token.inLine =
      ts.map Token.inLine := by
  induction ts generalizing p q with
  | nil => rfl
  | cons t ts ih =>
    obtain ⟨ht, -⟩ := List.forall_mem_cons.mp hp
    obtain ⟨hlater, hts⟩ := List.pairwise_cons.mp hts
    have hline : (q.advance (p.gap t)).line = t.loc.line := by
      rw [Position.line_advance, ← Pen.count_gap ht, ← hq]
      rfl
    have hafter : ((q.advance (p.gap t)).advance t.lexeme.toList).line = (p.after t).line := by
      rw [Position.line_advance, Pen.line_after ht, Token.lastLine, ← hline]
      rfl
    have hfirst : Token.inLine ⟨t.kind, String.ofList t.lexeme.toList,
        .ofPosition file (q.advance (p.gap t)) t.lexeme.toList.length⟩ = t.inLine := by
      simp only [Token.inLine, String.ofList_toList, Location.ofPosition, hline]
    have hrest := ih hafter (Pen.line_after ht ▸ hlater) hts
    rw [laidPieces, placesFrom_append, List.filterMap_append, placed_blanks, chars_blanks,
      List.nil_append, placesFrom, List.filterMap_cons_some (f := placed? file) rfl, List.map_cons,
      List.map_cons]
    exact congrArg₂ List.cons hfirst hrest

/-- The tokens of a text are those that its pieces hold. -/
theorem lexemes_bodyTokens (file : String) (ps : List Piece) :
    (bodyTokens file ps).map (·.lexeme.toList) = ps.filterMap Piece.lexeme? := by
  unfold bodyTokens
  generalize Position.start = q
  induction ps generalizing q with
  | nil => rfl
  | cons piece ps ih =>
    rw [placesFrom]
    cases piece with
    | blank | comment => exact ih _
    | token kind cs =>
      rw [List.filterMap_cons_some (f := placed? file) rfl, List.map_cons, ih,
        List.filterMap_cons_some (f := Piece.lexeme?) rfl, String.toList_ofList]

/-- Tokens by themselves, on one line after another, are read again from their laid-out text if and
only if no quotes make a literal in it. -/
theorem tokenize_laid_iff {e : Token} (again : String) (he : e.kind = .eof)
    (hs : ∀ t ∈ ts, t.kind ≠ .eof ∧ Standalone t.kind t.lexeme.toList)
    (hp : ∀ t ∈ ts, 1 ≤ t.loc.line) (hts : ts.Pairwise fun t u => t.lastLine ≤ u.loc.line) :
    (∃ us last, tokenize again (layout (ts ++ [e])) = .ok (us ++ [last]) ∧ last.kind = .eof ∧
      us.map Token.inLine = ts.map Token.inLine) ↔ ¬Fuses .start ts := by
  by_cases hn : ts = []
  · subst hn
    refine ⟨fun _ => nofun, fun _ => ⟨[], endToken again [], ?_, rfl, rfl⟩⟩
    rw [List.nil_append, layout_nil he]
    exact tokenize_of_pieces (show pieces "".toList = .ok [] from pieces_nil)
  have hlay := layout_eq hn (fun t ht => (hs t ht).1) he
  have halone : ∀ t ∈ ts, Standalone t.kind t.lexeme.toList := fun t ht => (hs t ht).2
  have hcol : 1 ≤ Pen.start.col := Int.le_refl 1
  constructor
  · rintro ⟨us, last, hus, -, hmap⟩
    obtain ⟨ps, hps, hbody⟩ := tokenize_eq hus
    rw [hlay, pieces_iff] at hps
    obtain ⟨rfl, -⟩ := List.append_inj' hbody rfl
    refine not_fuses_of_reads halone hcol hps ?_
    rw [← lexemes_bodyTokens again]
    have := congrArg (List.map fun x : Kind × String × Int => x.2.1.toList) hmap
    rwa [List.map_map, List.map_map] at this
  · intro hf
    have hreads := pieces_iff.mpr (reads_laidFrom halone hcol hf)
    refine ⟨bodyTokens again (laidPieces .start ts), _, tokenize_of_pieces (hlay ▸ hreads), rfl, ?_⟩
    exact inLine_laidPieces again rfl hp hts

/-! ## Texts that come through -/

/-- The text of the tokens that a text keeps is read again as these tokens, on the same lines, if
and only if no lone quote is laid one blank in front of a token that begins with a quote. -/
theorem tokenize_layout_iff {env : Environment} {file source : String} (again : String)
    (h : preprocess env file source = .ok ts) :
    ∃ kept e, ts = kept ++ [e] ∧ e.kind = .eof ∧
      ((∃ us last, tokenize again (layout ts) = .ok (us ++ [last]) ∧ last.kind = .eof ∧
        us.map Token.inLine = kept.map Token.inLine) ↔ ¬Fuses .start kept) := by
  rw [preprocess] at h
  split at h
  · cases h
  next as ha =>
  obtain ⟨ps, hps, rfl⟩ := tokenize_eq ha
  obtain ⟨kept, rfl, hkept⟩ := filterTokens_ending rfl h
  refine ⟨kept, _, rfl, rfl, tokenize_laid_iff again rfl ?_ ?_ ?_⟩
  · exact fun t ht => standalone_of_token hps (hkept.subset ht)
  · exact fun t ht => (line_of_token hps (hkept.subset ht)).1
  · exact (bodyTokens_lines file ps).sublist hkept

/-- Two lone quotes that touch come through, but in the laid-out text they make a literal. -/
theorem tokenize_layout_twoQuotes :
    let kept := [Token.mk (.symbol "'") "'" ⟨"f", 0, 1, 1, 1⟩,
      .mk (.symbol "'") "'" ⟨"f", 1, 1, 2, 1⟩]
    let last := Token.mk .eof "" ⟨"f", 2, 1, 3, 0⟩
    preprocess .empty "f" "''" = .ok (kept ++ [last]) ∧ layout (kept ++ [last]) = "' '\n" ∧
      tokenize "f" "' '\n" =
        .ok [⟨.character, "' '", ⟨"f", 0, 1, 1, 3⟩⟩, ⟨.eof, "", ⟨"f", 4, 2, 1, 0⟩⟩] ∧
      ¬∃ us e, tokenize "f" (layout (kept ++ [last])) = .ok (us ++ [e]) ∧ e.kind = .eof ∧
        us.map Token.inLine = kept.map Token.inLine := by
  intro kept last
  have h : preprocess .empty "f" "''" = .ok (kept ++ [last]) := by cbv
  obtain ⟨front, e, hts, -, hiff⟩ := tokenize_layout_iff "f" h
  obtain ⟨rfl, -⟩ := List.append_inj' hts rfl
  refine ⟨h, by cbv, by cbv, fun hread => hiff.mp hread ?_⟩
  exact .here rfl (by decide) (by decide)

end HashIf
