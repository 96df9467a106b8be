import HashIf.Proofs.Source.Standalone

/-! Comments as blanks. A text has the same tokens, at the same places, when each comment in it is
overwritten with spaces and its line feeds are left. -/

namespace HashIf

/-! ## Overwritten comments -/

/-- What a character of a comment is overwritten with. -/
def blankOf (c : Char) : Char := if c = '\n' then '\n' else ' '

theorem breaks_blankOf (c : Char) : Breaks (blankOf c) := by
  unfold blankOf
  split
  · exact .inr rfl
  · exact .inl rfl

namespace Piece

/-- The characters of a piece, overwritten if it is a comment. -/
def blanked : Piece → List Char
  | comment cs => cs.map blankOf
  | piece => piece.chars

/-- The pieces that an overwritten piece is read as. -/
def blanks : Piece → List Piece
  | comment cs => (cs.map blankOf).map blank
  | piece => [piece]

end Piece

/-! ## Tokens in front of a comment -/

theorem not_opensComment_blanked (h : ¬opensComment c (cs ++ '(' :: '*' :: ds) = true) :
    ¬opensComment c (cs ++ ' ' :: ' ' :: es) = true := by
  match cs with
  | [] => simp [opensComment, firstOrNul]
  | [d] =>
    intro ho
    simp only [opensComment, Bool.and_eq_true, beq_iff_eq] at ho
    obtain ⟨⟨rfl, hd⟩, -⟩ := ho
    obtain rfl : d = '*' := hd
    exact h rfl
  | d :: e :: cs => exact h

/-- A token is read alike in front of a comment and of the blanks that the comment is overwritten
with, at whatever distance they follow. -/
theorem nextPiece_blanked (h : nextPiece c (cs ++ '(' :: '*' :: ds) = .ok (.token kind xs, n))
    (hn : n ≤ cs.length) : nextPiece c (cs ++ ' ' :: ' ' :: es) = .ok (.token kind xs, n) := by
  obtain ⟨hb, ho, hx, rfl⟩ := nextPiece_token_iff.mp h
  have hstar : firstOrNul ('*' :: ds) ≠ '\'' := show '*' ≠ '\'' by decide
  have hspace : firstOrNul (' ' :: es) ≠ '\'' := show ' ' ≠ '\'' by decide
  have hcs : lexemeExtent c cs = .ok (kind, n) := lexemeExtent_of_append (.inr rfl) hx hn
    fun _ => characterExtent?_append_of (.inr rfl) (.inr hstar) cs
  refine nextPiece_token_iff.mpr ⟨hb, not_opensComment_blanked ho, ?_, ?_⟩
  · exact lexemeExtent_append (.inl (.inl rfl)) hcs
      fun _ => characterExtent?_append_of (.inl (.inl rfl)) (.inr hspace) cs
  · rw [List.take_append_of_le_length hn, List.take_append_of_le_length hn]

/-! ## Texts -/

/-- The overwritten text differs from the text from the first comment on, if at all. -/
theorem Reads.blanked_cases (h : Reads cs ps) : ps.flatMap Piece.blanked = cs ∨
    ∃ xs ds es, cs = xs ++ '(' :: '*' :: ds ∧
      ps.flatMap Piece.blanked = xs ++ ' ' :: ' ' :: es := by
  induction h with
  | nil => exact .inl rfl
  | @cons c cs piece n ps hp hr ih =>
    have hchars := chars_of_nextPiece hp
    have htext : c :: cs = piece.chars ++ cs.drop n := by
      rw [hchars, List.cons_append, List.take_append_drop]
    have later (hpiece : piece.blanked = piece.chars) :
        piece.blanked ++ ps.flatMap Piece.blanked = c :: cs ∨
          ∃ xs ds es, c :: cs = xs ++ '(' :: '*' :: ds ∧
            piece.blanked ++ ps.flatMap Piece.blanked = xs ++ ' ' :: ' ' :: es := by
      rw [hpiece, htext]
      rcases ih with heq | ⟨xs, ds, es, hd, hblanked⟩
      · exact .inl (by rw [heq])
      · refine .inr ⟨piece.chars ++ xs, ds, es, ?_, ?_⟩
        · rw [hd, List.append_assoc]
        · rw [hblanked, List.append_assoc]
    rw [List.flatMap_cons]
    cases piece with
    | blank | token => exact later rfl
    | comment xs =>
      cases sound_of_nextPiece hp with
      | comment hc =>
        cases hc with
        | @mk body _ =>
          refine .inr ⟨[], body ++ ['*', ')'] ++ cs.drop n,
            (body ++ ['*', ')']).map blankOf ++ ps.flatMap Piece.blanked, ?_, rfl⟩
          exact htext

/-- The overwritten text is read as the pieces of the text, with blanks for the comments. -/
theorem Reads.blanked (h : Reads cs ps) :
    Reads (ps.flatMap Piece.blanked) (ps.flatMap Piece.blanks) := by
  induction h with
  | nil => exact .nil
  | @cons c cs piece n ps hp hr ih =>
    have hn := nextPiece_le hp
    have hlen : (cs.take n).length = n := by rw [List.length_take, Nat.min_eq_left hn]
    rw [List.flatMap_cons, List.flatMap_cons]
    cases piece with
    | comment xs =>
      refine .blanks (fun b hb => ?_) ih
      obtain ⟨x, -, rfl⟩ := List.mem_map.mp hb
      exact breaks_blankOf x
    | blank b =>
      have hchars : [b] = c :: cs.take n := chars_of_nextPiece hp
      cases sound_of_nextPiece hp with
      | blank hb => exact .cons (n := 0) (by rw [nextPiece, if_pos hb]) ih
    | token kind xs =>
      obtain rfl : xs = c :: cs.take n := chars_of_nextPiece hp
      have hnext : nextPiece c (cs.take n ++ ps.flatMap Piece.blanked) =
          .ok (.token kind (c :: cs.take n), n) := by
        rcases hr.blanked_cases with heq | ⟨xs, ds, es, hd, hblanked⟩
        · rwa [heq, List.take_append_drop]
        · rw [hblanked, ← List.append_assoc]
          have htext : nextPiece c (cs.take n ++ xs ++ '(' :: '*' :: ds) =
              .ok (.token kind (c :: cs.take n), n) := by
            rwa [List.append_assoc, ← hd, List.take_append_drop]
          exact nextPiece_blanked htext (by rw [List.length_append, hlen]; omega)
      have hdrop : (cs.take n ++ ps.flatMap Piece.blanked).drop n = ps.flatMap Piece.blanked :=
        List.drop_left' hlen
      rw [← hdrop] at ih
      exact .cons hnext ih

/-! ## Places -/

theorem Position.advance_blankOf (p : Position) (cs : List Char) :
    p.advance (cs.map blankOf) = p.advance cs := by
  induction cs generalizing p with
  | nil => rfl
  | cons c cs ih =>
    have hstep : p.step (blankOf c) = p.step c := by
      unfold blankOf step
      split
      · rfl
      · exact if_neg (by decide)
    rw [List.map_cons, advance_cons, advance_cons, hstep, ih]

theorem Piece.advance_blanked (p : Position) (piece : Piece) :
    p.advance piece.blanked = p.advance piece.chars := by
  cases piece with
  | blank | token => rfl
  | comment cs => exact p.advance_blankOf cs

theorem Position.advance_blanked (p : Position) (ps : List Piece) :
    p.advance (ps.flatMap Piece.blanked) = p.advance (ps.flatMap Piece.chars) := by
  induction ps generalizing p with
  | nil => rfl
  | cons piece ps ih =>
    rw [List.flatMap_cons, List.flatMap_cons, advance_append, advance_append, ih,
      Piece.advance_blanked]

/-- The tokens among the pieces of the overwritten text stand where they stood. -/
theorem placed_flatMap_blanks (file : String) (p : Position) (ps : List Piece) :
    (placesFrom p (ps.flatMap Piece.blanks)).filterMap (placed? file) =
      (placesFrom p ps).filterMap (placed? file) := by
  induction ps generalizing p with
  | nil => rfl
  | cons piece ps ih =>
    cases piece with
    | blank c => exact ih (p.advance [c])
    | token kind cs => exact congrArg (_ :: ·) (ih (p.advance cs))
    | comment cs =>
      rw [List.flatMap_cons, Piece.blanks, placesFrom_append, List.filterMap_append, placed_blanks,
        chars_blanks, p.advance_blankOf, List.nil_append, ih]
      rfl

/-- A text that can be read has the same tokens, at the same places, when its comments are
overwritten with spaces up to their line feeds; it has no comments then. -/
theorem tokenize_blanked (h : tokenize file source = .ok ts) :
    ∃ ps, pieces source.toList = .ok ps ∧ ps.flatMap Piece.chars = source.toList ∧
      (∀ cs, .comment cs ∈ ps → Comment cs) ∧
      pieces (ps.flatMap Piece.blanked) = .ok (ps.flatMap Piece.blanks) ∧
      tokenize file (String.ofList (ps.flatMap Piece.blanked)) = .ok ts := by
  obtain ⟨ps, hps, rfl⟩ := tokenize_eq h
  have hblanked : pieces (ps.flatMap Piece.blanked) = .ok (ps.flatMap Piece.blanks) :=
    pieces_iff.mpr (pieces_iff.mp hps).blanked
  refine ⟨ps, hps, chars_pieces hps, fun cs hcs => ?_, hblanked, ?_⟩
  · cases sound_piecesFrom hps (by simp) _ hcs with
    | comment hc => exact hc
  · have hlist : (String.ofList (ps.flatMap Piece.blanked)).toList = ps.flatMap Piece.blanked :=
      String.toList_ofList
    rw [tokenize_of_pieces (hlist.symm ▸ hblanked), hlist, bodyTokens, placed_flatMap_blanks,
      endToken, Position.advance_blanked, chars_pieces hps]
    rfl

/-- Behind a number and behind a lone quote stand comments. Strings and literals in them hide their
ends, and the quote would begin a literal in front of one blank and another quote. -/
theorem tokenize_blanked_hidden :
    let ts := [Token.mk .float "1." ⟨"f", 0, 1, 1, 2⟩, .mk (.symbol "'") "'" ⟨"f", 17, 2, 8, 1⟩,
      .mk .identifier "a" ⟨"f", 27, 2, 18, 1⟩, .mk .eof "" ⟨"f", 28, 2, 19, 0⟩]
    tokenize "f" "1.(* \"*)\"\n '\"' *)'(* 'a' *)a" = .ok ts ∧
      tokenize "f" "1.       \n       '         a" = .ok ts := by
  intro ts
  have h : tokenize "f" "1.(* \"*)\"\n '\"' *)'(* 'a' *)a" = .ok ts := by cbv
  obtain ⟨ps, hps, -, -, -, hts⟩ := tokenize_blanked h
  have hpieces : pieces "1.(* \"*)\"\n '\"' *)'(* 'a' *)a".toList = .ok
      [.token .float "1.".toList, .comment "(* \"*)\"\n '\"' *)".toList,
        .token (.symbol "'") "'".toList, .comment "(* 'a' *)".toList,
        .token .identifier "a".toList] := by cbv
  cases hpieces.symm.trans hps
  exact ⟨h, hts⟩

end HashIf
