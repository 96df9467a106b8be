import HashIf.Proofs.Source.Tiling

/-! Comments from their opening mark on. A text that begins with the mark is read in one of three
ways: as a comment of the grammar, as one that the end of the text or a NUL leaves open, or as one
that is open where a string in it does not close. The scan does what the reading says, wherever in a
source the text stands. -/

namespace HashIf

/-- A comment that no mark closes, from its opening mark to where the given characters follow. -/
inductive OpenComment (rest : List Char) : List Char → Prop
  | mk (h : OpenBody rest cs) : OpenComment rest ('(' :: '*' :: cs)

/-- What a text that begins with the mark of a comment is read as: the length of the comment, or
the fault that keeps it from being one. -/
inductive CommentReading : List Char → Except Fault Nat → Prop
  | closed (h : Comment cs) : CommentReading (cs ++ back) (.ok cs.length)
  | unterminated (h : OpenComment rest cs) (he : TextEnds rest) :
    CommentReading (cs ++ rest) (.error ⟨0, cs.length, .openComment⟩)
  | string (h : OpenComment ('"' :: literal) cs) (hs : StringFault literal f) :
    CommentReading (cs ++ '"' :: literal) (.error (f.shift cs.length))

theorem length_marked (cs : List Char) : ('(' :: '*' :: cs).length = 2 + cs.length := by
  simp only [List.length_cons]
  omega

namespace CommentReading

theorem commentFrom_eq (h : CommentReading ('(' :: '*' :: cs) r) : commentFrom 0 2 cs = r := by
  generalize ht : '(' :: '*' :: cs = text at h
  cases h with
  | @closed comment back h =>
    obtain ⟨hb⟩ := h
    obtain rfl : cs = _ ++ '*' :: ')' :: back := by simpa using ht
    refine commentFrom_ok_iff.mpr ⟨_, back, rfl, hb, ?_⟩
    rw [length_marked, List.length_append, Nat.add_assoc]
    rfl
  | @unterminated rest _ h he =>
    obtain ⟨ho⟩ := h
    obtain rfl : cs = _ ++ rest := (List.cons.inj (List.cons.inj ht).2).2
    rw [ho.unterminated he, length_marked]
  | @string literal _ _ h hs =>
    obtain ⟨ho⟩ := h
    obtain rfl : cs = _ ++ '"' :: literal := (List.cons.inj (List.cons.inj ht).2).2
    rw [ho.string hs, length_marked]

theorem of_commentFrom (h : commentFrom 0 2 cs = r) : CommentReading ('(' :: '*' :: cs) r := by
  subst h
  cases bodyReading cs with
  | @closed back body hb =>
    have hc : Comment ('(' :: '*' :: (body ++ ['*', ')'])) := .mk hb.body
    have hr : CommentReading ('(' :: '*' :: (body ++ ['*', ')']) ++ back) _ := .closed hc
    have ht : '(' :: '*' :: (body ++ ['*', ')']) ++ back =
        '(' :: '*' :: (body ++ '*' :: ')' :: back) := by simp
    rw [ht] at hr
    rwa [hr.commentFrom_eq]
  | @unfinished rest cs ho hs =>
    have ho : OpenComment rest ('(' :: '*' :: cs) := .mk ho
    cases hs with
    | ends he =>
      have hr : CommentReading ('(' :: '*' :: (cs ++ rest)) _ := .unterminated ho he
      rwa [hr.commentFrom_eq]
    | @string literal f hf =>
      have hr : CommentReading ('(' :: '*' :: (cs ++ '"' :: literal)) _ := .string ho hf
      rwa [hr.commentFrom_eq]

end CommentReading

/-- Unless a parenthesis follows it, the opening mark begins a comment, or the fault of one. -/
theorem nextPiece_comment (h : rest.head? ≠ some ')') : nextPiece '(' ('*' :: rest) =
    match commentFrom 0 2 rest with
    | .ok n => .ok (.comment (('(' :: '*' :: rest).take n), n - 1)
    | .error f => .error f := by
  have ho : opensComment '(' ('*' :: rest) = true := by
    have hf : firstOrNul rest ≠ ')' := by
      intro hf
      obtain ⟨rest, rfl⟩ := of_firstOrNul_eq (beq_of_eq hf) (by decide)
      exact h rfl
    simpa [opensComment, firstOrNul] using hf
  rw [nextPiece, if_neg (by decide), if_pos ho, commentExtent, List.drop_succ_cons, List.drop_zero]
  cases hc : commentFrom 0 2 rest with
  | error f => rfl
  | ok n =>
    obtain ⟨body, back, rfl, -, rfl⟩ := commentFrom_ok_iff.mp hc
    rfl

/-- A quote begins a string by itself as it does in a comment. -/
theorem nextPiece_quote (cs : List Char) : nextPiece '"' cs =
    match stringExtent cs with
    | .ok n => .ok (.token .string ('"' :: cs.take n), n)
    | .error f => .error f := by
  rw [nextPiece, if_neg (by decide), if_neg (by simp [opensComment]), lexemeExtent,
    if_neg (by decide), if_neg (by decide), if_neg (by simp), if_pos rfl]
  cases stringExtent cs <;> rfl

theorem piecesFrom_cons_ok (h : nextPiece c cs = .ok (piece, n)) (offset : Nat)
    (read : List Piece) :
    piecesFrom offset read (c :: cs) = piecesFrom (offset + 1 + n) (piece :: read) (cs.drop n) := by
  rw [piecesFrom, h]

theorem piecesFrom_cons_error (h : nextPiece c cs = .error f) (offset : Nat) (read : List Piece) :
    piecesFrom offset read (c :: cs) = .error (f.shift offset) := by
  rw [piecesFrom, h]

/-- A text that begins with the opening mark of a comment, and with no parenthesis behind it, is
read in one way, so that no more than one beginning of it is a comment. Wherever it stands in a
source, the pieces go on behind the comment that it begins with. If the text ends or a NUL comes
first, the comment is the fault, from its opening mark on; if a string in it does not close, then
the fault is the one of the string where it stands. -/
theorem comment_reading (file : String) (front : List Char) (read : List Piece)
    (h : rest.head? ≠ some ')') :
    let text := '(' :: '*' :: rest
    (∃! r, CommentReading text r) ∧
    (∀ cs back, text = cs ++ back → Comment cs →
      piecesFrom front.length read text =
        piecesFrom (front ++ cs).length (.comment cs :: read) back) ∧
    (∀ cs stop, text = cs ++ stop → OpenComment stop cs → TextEnds stop →
      let f : Fault := ⟨front.length, cs.length, .openComment⟩
      let e := LexicalError.ofFault file (front ++ text) f
      piecesFrom front.length read text = .error f ∧
        e.loc = .ofPosition file (Position.start.advance front) cs.length ∧
        e.cause.message = "unterminated comment") ∧
    ∀ cs literal f, text = cs ++ '"' :: literal → OpenComment ('"' :: literal) cs →
      StringFault literal f →
      piecesFrom front.length read text = .error (f.shift (front ++ cs).length) ∧
        piecesFrom (front ++ cs).length read ('"' :: literal) =
          .error (f.shift (front ++ cs).length) := by
  intro text
  have hpiece := nextPiece_comment h
  refine ⟨?_, ?_, ?_, ?_⟩
  · exact ⟨commentFrom 0 2 rest, .of_commentFrom rfl, fun r hr => hr.commentFrom_eq.symm⟩
  · intro cs back ht hc
    have hr : CommentReading text (.ok cs.length) := ht ▸ .closed hc
    rw [hr.commentFrom_eq] at hpiece
    obtain ⟨tail, rfl, htail⟩ : ∃ tail, cs = '(' :: tail ∧ '*' :: rest = tail ++ back := by
      obtain ⟨hb⟩ := hc
      exact ⟨_, rfl, (List.cons.inj ht).2⟩
    have htake : ('(' :: '*' :: rest).take ('(' :: tail).length = '(' :: tail := by
      rw [htail, ← List.cons_append, List.take_left]
    have hdrop : ('*' :: rest).drop (('(' :: tail).length - 1) = back := by
      rw [htail, List.length_cons, Nat.add_sub_cancel, List.drop_left]
    rw [piecesFrom_cons_ok hpiece, htake, hdrop, List.length_append, List.length_cons,
      Nat.add_sub_cancel, Nat.add_assoc, Nat.add_comm 1]
  · intro cs stop ht ho he f e
    have hr : CommentReading text (.error ⟨0, cs.length, .openComment⟩) := ht ▸ .unterminated ho he
    rw [hr.commentFrom_eq] at hpiece
    refine ⟨piecesFrom_cons_error hpiece _ _, ?_, rfl⟩
    have hfront : (front ++ text).take front.length = front := List.take_left
    simp only [e, f, LexicalError.ofFault, hfront]
  · intro cs literal f ht ho hs
    have hr : CommentReading text (.error (f.shift cs.length)) := ht ▸ .string ho hs
    rw [hr.commentFrom_eq] at hpiece
    have hstring : nextPiece '"' literal = .error f := by
      rw [nextPiece_quote, stringExtent_error_iff.mpr hs]
    rw [piecesFrom_cons_error hpiece, piecesFrom_cons_error hstring, Fault.shift_shift,
      List.length_append]
    exact ⟨rfl, rfl⟩

/-- A string and a character literal hide marks, and a parenthesis behind a mark that stands in a
comment does not. -/
theorem comment_reading_hidden :
    let comment := "(* \"*)\" '\"' (*) *) *)".toList
    " \"*)\" '\"' (*) *) *)x".toList.head? ≠ some ')' ∧ Comment comment ∧
      piecesFrom 2 [.blank ' ', .blank '\n'] (comment ++ ['x']) =
        piecesFrom 23 [.comment comment, .blank ' ', .blank '\n'] ['x'] := by
  have h : " \"*)\" '\"' (*) *) *)x".toList.head? ≠ some ')' := by decide
  have hpiece : nextPiece '(' "* \"*)\" '\"' (*) *) *)x".toList =
      .ok (.comment "(* \"*)\" '\"' (*) *) *)".toList, 20) := by cbv
  have hc : Comment "(* \"*)\" '\"' (*) *) *)".toList := by
    cases sound_of_nextPiece hpiece with
    | comment hc => exact hc
  obtain ⟨-, hclosed, -⟩ := comment_reading "f" ['\n', ' '] [.blank ' ', .blank '\n'] h
  exact ⟨h, hc, hclosed _ ['x'] rfl hc⟩

end HashIf
