import HashIf.Proofs.Source.LexemeExtent
import HashIf.Proofs.Source.Tiling

/-! The tokens of two texts with a line feed between them: no piece of the first text looks beyond
the line feed, so the tokens of the second one are its own, further down. -/

namespace HashIf

/-! ## Pieces one at a time -/

/-- The pieces of a text, read from its head. -/
inductive Reads : List Char → List Piece → Prop
  | nil : Reads [] []
  | cons (h : nextPiece c cs = .ok (piece, n)) (hr : Reads (cs.drop n) ps) :
    Reads (c :: cs) (piece :: ps)

/-- The pieces read before matter no more than the offset does. -/
theorem piecesFrom_cases (offset offset' : Nat) (read read' : List Piece) (cs : List Char) :
    (∃ ps, piecesFrom offset read cs = .ok (read.reverse ++ ps) ∧
      piecesFrom offset' read' cs = .ok (read'.reverse ++ ps)) ∨
    ∃ f : Fault, piecesFrom offset read cs = .error (f.shift offset) ∧
      piecesFrom offset' read' cs = .error (f.shift offset') := by
  fun_induction piecesFrom offset read cs generalizing offset' read' with
  | case1 offset read =>
    refine .inl ⟨[], ?_, ?_⟩
    · rw [List.append_nil]
    · rw [piecesFrom, List.append_nil]
  | case2 offset read c cs piece n hp ih =>
    rw [piecesFrom, hp]
    rcases ih (offset' + 1 + n) (piece :: read') with ⟨ps, h, h'⟩ | ⟨f, h, h'⟩
    · refine .inl ⟨piece :: ps, ?_, ?_⟩
      · rw [h, List.reverse_cons, List.append_assoc]
        rfl
      · dsimp only
        rw [h', List.reverse_cons, List.append_assoc]
        rfl
    · refine .inr ⟨f.shift (1 + n), ?_, ?_⟩
      · rw [h, Fault.shift_shift, Nat.add_assoc]
      · dsimp only
        rw [h', Fault.shift_shift, Nat.add_assoc]
  | case3 offset read c cs f hp =>
    rw [piecesFrom, hp]
    exact .inr ⟨f, rfl, rfl⟩

theorem pieces_nil : pieces [] = .ok [] := by
  rw [pieces, piecesFrom]
  rfl

theorem pieces_cons (c : Char) (cs : List Char) : pieces (c :: cs) =
    match nextPiece c cs with
    | .error f => .error f
    | .ok (piece, n) =>
      match pieces (cs.drop n) with
      | .ok ps => .ok (piece :: ps)
      | .error f => .error (f.shift (1 + n)) := by
  have shift_zero (f : Fault) : f.shift 0 = f := by rw [Fault.shift, Nat.zero_add]
  rw [pieces, piecesFrom]
  cases nextPiece c cs with
  | error f => exact congrArg Except.error (shift_zero f)
  | ok result =>
    obtain ⟨piece, n⟩ := result
    dsimp only
    rw [pieces, Nat.zero_add]
    rcases piecesFrom_cases 0 (1 + n) [] [piece] (cs.drop n) with ⟨ps, h, h'⟩ | ⟨f, h, h'⟩
    · rw [h, h']
      rfl
    · rw [h, h', shift_zero]

theorem pieces_iff : pieces cs = .ok ps ↔ Reads cs ps := by
  constructor
  · intro h
    induction hn : cs.length using Nat.strongRecOn generalizing cs ps with
    | ind n ih =>
      cases cs with
      | nil =>
        cases pieces_nil.symm.trans h
        exact .nil
      | cons c cs =>
        rw [pieces_cons] at h
        split at h
        · cases h
        · next piece m hp =>
          split at h
          · next qs hq =>
            cases h
            refine .cons hp (ih _ ?_ hq rfl)
            rw [← hn, List.length_cons, List.length_drop]
            omega
          · cases h
  · intro h
    induction h with
    | nil => exact pieces_nil
    | cons h _ ih =>
      rw [pieces_cons, h]
      dsimp only
      rw [ih]

/-! ## Pieces in front of a line feed -/

theorem opensComment_append (c : Char) (cs : List Char) :
    opensComment c (cs ++ '\n' :: ds) = opensComment c cs := by
  cases cs with
  | nil => simp [opensComment, firstOrNul]
  | cons d cs =>
    have hf : (firstOrNul (cs ++ '\n' :: ds) != ')') = (firstOrNul cs != ')') :=
      firstOrNul_append_break (p := (· != ')')) rfl
    simp only [opensComment, List.cons_append, List.drop_succ_cons, List.drop_zero, hf]
    rfl

theorem nextPiece_le (h : nextPiece c cs = .ok (piece, n)) : n ≤ cs.length := by
  rw [nextPiece] at h
  split at h
  · cases h
    exact Nat.zero_le _
  split at h
  · split at h <;> cases h
    next hn =>
    obtain ⟨_, _, rfl, -, hle⟩ := commentExtent_spec hn
    exact hle
  · split at h <;> cases h
    next hk => exact lexemeExtent_le hk

theorem nextPiece_append (h : nextPiece c cs = .ok (piece, n)) :
    nextPiece c (cs ++ '\n' :: ds) = .ok (piece, n) := by
  have take : (cs ++ '\n' :: ds).take n = cs.take n :=
    List.take_append_of_le_length (nextPiece_le h)
  rw [nextPiece, opensComment_append]
  rw [nextPiece] at h
  split at h
  · next hb =>
    cases h
    rw [if_pos hb]
  split at h
  · next hb ho =>
    split at h <;> cases h
    next hn => rw [if_neg hb, if_pos ho, commentExtent_append hn]; dsimp only; rw [take]
  · next hb ho =>
    split at h <;> cases h
    next hk =>
    rw [if_neg hb, if_neg ho,
      lexemeExtent_append (.inl (.inr rfl)) hk fun _ => characterExtent?_append cs]
    dsimp only
    rw [take]

/-- The pieces of a text, a line feed and a second text. -/
theorem pieces_append (h : Reads a ps) (b : List Char) : pieces (a ++ '\n' :: b) =
    match pieces b with
    | .ok qs => .ok (ps ++ .blank '\n' :: qs)
    | .error f => .error (f.shift (a.length + 1)) := by
  induction h with
  | nil =>
    rw [List.nil_append, pieces_cons]
    have hb : nextPiece '\n' b = .ok (.blank '\n', 0) := rfl
    rw [hb]
    rfl
  | @cons c cs piece n ps h _ ih =>
    have hle := nextPiece_le h
    rw [List.cons_append, pieces_cons, nextPiece_append h]
    dsimp only
    rw [List.drop_append_of_le_length hle, ih]
    cases pieces b with
    | ok qs => rfl
    | error f =>
      dsimp only
      rw [Fault.shift_shift, List.length_drop, List.length_cons]
      congr 2
      omega

/-! ## Places further down -/

/-- How far a stretch of a source is moved: by a number of characters and a number of lines. -/
structure Shift where
  index : Int
  line : Int

/-- The move of a text behind another one and a line feed. -/
def Shift.behind (cs : List Char) : Shift := ⟨cs.length + 1, cs.count '\n' + 1⟩

def Location.shift (s : Shift) (l : Location) : Location :=
  { l with index := l.index + s.index, line := l.line + s.line }

def Token.shift (s : Shift) (t : Token) : Token := { t with loc := t.loc.shift s }

section

variable (s : Shift) (t : Token)

@[simp] theorem Token.kind_shift : (t.shift s).kind = t.kind := rfl

@[simp] theorem Token.lexeme_shift : (t.shift s).lexeme = t.lexeme := rfl

@[simp] theorem Token.loc_shift : (t.shift s).loc = t.loc.shift s := rfl

@[simp] theorem Token.lastLine_shift : (t.shift s).lastLine = t.lastLine + s.line := by
  simp only [Token.lastLine, lexeme_shift, loc_shift, Location.shift]
  omega

end

/-- The position further down, in the same column. -/
def Position.shift (i l : Nat) (p : Position) : Position := ⟨p.index + i, p.line + l, p.col⟩

namespace Position

theorem advance_shift (i l : Nat) (p : Position) (cs : List Char) :
    (p.shift i l).advance cs = (p.advance cs).shift i l := by
  induction cs generalizing p with
  | nil => rfl
  | cons c cs ih =>
    have hs : (p.shift i l).step c = (p.step c).shift i l := by
      simp only [step, shift]
      split
      · rw [Position.mk.injEq]
        dsimp only
        omega
      · rw [Position.mk.injEq]
        dsimp only
        omega
    rw [advance_cons, advance_cons, hs, ih]

theorem advance_lineFeed (a front : List Char) : start.advance (a ++ '\n' :: front) =
    (start.advance front).shift (a.length + 1) (a.count '\n' + 1) := by
  have hs : (start.advance a).step '\n' = start.shift (a.length + 1) (a.count '\n' + 1) := by
    rw [step, if_pos rfl, index_start, line_start, shift, start, Position.mk.injEq]
    dsimp only
    omega
  rw [advance_append, advance_cons, hs, advance_shift]

end Position

theorem Location.ofPosition_shift (file : String) (a : List Char) (p : Position) (n : Nat) :
    Location.ofPosition file (p.shift (a.length + 1) (a.count '\n' + 1)) n =
      (Location.ofPosition file p n).shift (.behind a) := by
  simp [ofPosition, shift, Position.shift, Shift.behind]

theorem placesFrom_append (p : Position) (ps qs : List Piece) : placesFrom p (ps ++ qs) =
    placesFrom p ps ++ placesFrom (p.advance (ps.flatMap Piece.chars)) qs := by
  induction ps generalizing p with
  | nil => rfl
  | cons piece ps ih =>
    rw [List.cons_append, placesFrom, placesFrom, ih, List.flatMap_cons, Position.advance_append]
    rfl

theorem placesFrom_shift (i l : Nat) (p : Position) (ps : List Piece) :
    placesFrom (p.shift i l) ps = (placesFrom p ps).map fun x => (x.1.shift i l, x.2) := by
  induction ps generalizing p with
  | nil => rfl
  | cons piece ps ih =>
    rw [placesFrom, placesFrom, List.map_cons, Position.advance_shift, ih]

theorem bodyTokens_append (file : String) {a : List Char} {ps : List Piece}
    (h : pieces a = .ok ps) (qs : List Piece) :
    bodyTokens file (ps ++ .blank '\n' :: qs) =
      bodyTokens file ps ++ (bodyTokens file qs).map (Token.shift (.behind a)) := by
  have hp : (Position.start.advance a).advance ['\n'] =
      Position.start.shift (a.length + 1) (a.count '\n' + 1) := by
    rw [← Position.advance_append, Position.advance_lineFeed]
    rfl
  have hplaced (x : Position × Piece) :
      placed? file (x.1.shift (a.length + 1) (a.count '\n' + 1), x.2) =
        (placed? file x).map (Token.shift (.behind a)) := by
    obtain ⟨p, piece⟩ := x
    cases piece with
    | blank | comment => rfl
    | token kind cs =>
      simp only [placed?, Option.map_some, Token.shift, Location.ofPosition_shift]
  rw [bodyTokens, placesFrom_append, chars_pieces h, placesFrom, List.filterMap_append,
    List.filterMap_cons_none rfl, Piece.chars, hp, placesFrom_shift, List.filterMap_map,
    bodyTokens, bodyTokens, List.map_filterMap]
  congr 2
  funext x
  exact hplaced x

/-! ## Tokens of the two texts -/

theorem tokenize_of_pieces {file source : String} (h : pieces source.toList = .ok ps) :
    tokenize file source = .ok (bodyTokens file ps ++ [endToken file source.toList]) := by
  rw [tokenize, h]
  dsimp only
  rw [placeTokens, placeFrom_eq, chars_pieces h]
  rfl

theorem tokenize_of_fault {file source : String} (h : pieces source.toList = .error f) :
    tokenize file source = .error (.ofFault file source.toList f) := by
  rw [tokenize, h]

theorem endToken_shift (file : String) (a b : List Char) :
    endToken file (a ++ '\n' :: b) = (endToken file b).shift (.behind a) := by
  rw [endToken, Position.advance_lineFeed, Location.ofPosition_shift]
  rfl

theorem toList_lineFeed (a b : String) :
    (a ++ "\n" ++ b).toList = a.toList ++ '\n' :: b.toList := by
  rw [String.toList_append, String.toList_append, List.append_assoc]
  rfl

/-- If the first text can be read, its tokens come first, without the one for its end, and then
those of the second text, further down. -/
theorem tokenize_append {file a b : String} (h : tokenize file a = .ok ts)
    (hb : tokenize file b = .ok us) : tokenize file (a ++ "\n" ++ b) =
      .ok (ts.dropLast ++ us.map (Token.shift (.behind a.toList))) := by
  obtain ⟨ps, hps, rfl⟩ := tokenize_eq h
  obtain ⟨qs, hqs, rfl⟩ := tokenize_eq hb
  have hp : pieces (a ++ "\n" ++ b).toList = .ok (ps ++ .blank '\n' :: qs) := by
    rw [toList_lineFeed, pieces_append (pieces_iff.mp hps), hqs]
  rw [tokenize_of_pieces hp, bodyTokens_append file hps, toList_lineFeed, endToken_shift,
    List.dropLast_concat, List.map_append, List.append_assoc]
  rfl

/-- A fault of the second text stands further down, but the line quoted may be another one. -/
theorem tokenize_append_error {file a b : String} (h : tokenize file a = .ok ts)
    (hb : tokenize file b = .error e) : ∃ line, tokenize file (a ++ "\n" ++ b) =
      .error ⟨e.loc.shift (.behind a.toList), e.cause, line⟩ := by
  obtain ⟨ps, hps, -⟩ := tokenize_eq h
  cases hf : pieces b.toList with
  | ok qs => cases hb.symm.trans (tokenize_of_pieces hf)
  | error f =>
    cases hb.symm.trans (tokenize_of_fault hf)
    have hp : pieces (a ++ "\n" ++ b).toList = .error (f.shift (a.toList.length + 1)) := by
      rw [toList_lineFeed, pieces_append (pieces_iff.mp hps), hf]
    have ht : (a.toList ++ '\n' :: b.toList).take (a.toList.length + 1 + f.offset) =
        a.toList ++ '\n' :: b.toList.take f.offset := by
      rw [Nat.add_assoc, List.take_length_add_append, Nat.add_comm, List.take_succ_cons]
    have hloc : (LexicalError.ofFault file (a ++ "\n" ++ b).toList
        (f.shift (a.toList.length + 1))).loc =
        (LexicalError.ofFault file b.toList f).loc.shift (.behind a.toList) := by
      rw [toList_lineFeed, LexicalError.ofFault, Fault.shift, ht, Position.advance_lineFeed,
        Location.ofPosition_shift]
      rfl
    rw [tokenize_of_fault hp, ← hloc]
    exact ⟨_, rfl⟩

end HashIf
