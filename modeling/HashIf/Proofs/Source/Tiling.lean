import HashIf.Proofs.Source.CommentGrammar
import HashIf.Source.Tokenize
import Mathlib

/-! The tokens of a source text are stretches of it, one behind the other, and between them lie
only blanks and comments. -/

namespace HashIf

/-! ## What is claimed of tokens -/

/-- The last line feed of a text stands at `k`, which is `-1` in a text without one. -/
inductive LastLineFeed (cs : List Char) : (k : Int) → Prop
  | none (h : '\n' ∉ cs) : LastLineFeed cs (-1)
  | found (h : cs = front ++ '\n' :: back) (hb : '\n' ∉ back) : LastLineFeed cs front.length

/-- A token that is the stretch of a text with its own index and length, and has the line and the
column of its first character. -/
structure Token.Faithful (text : List Char) (t : Token) (i : Nat) : Prop where
  index : t.loc.index = i
  length : t.loc.length = t.lexeme.toList.length
  lexeme : t.lexeme.toList = text.extract i (i + t.lexeme.toList.length)
  line : t.loc.line = 1 + (text.take i).count '\n'
  col : ∃ k, LastLineFeed (text.take i) k ∧ t.loc.col = i - k

def Token.Covers (t : Token) (i : Nat) : Prop :=
  t.loc.index ≤ i ∧ i < t.loc.index + t.loc.length

/-- A comment of a text that contains the character at `i` and has none in common with `ts`. -/
def CommentAround (text : List Char) (ts : List Token) (i : Nat) : Prop :=
  ∃ a b, a ≤ i ∧ i < b ∧ b ≤ text.length ∧ Comment (text.extract a b) ∧
    ∀ t ∈ ts, ∀ j, a ≤ j → j < b → ¬t.Covers j

/-- Tokens that make up a text, but for blanks and comments. -/
structure Tiling (text : List Char) (ts : List Token) : Prop where
  /-- The last token and no other is for the end. -/
  ending : ∃ body e, ts = body ++ [e] ∧ e.kind = .eof ∧ e.lexeme = "" ∧
    e.loc.index = (text.length : Int) ∧ e.loc.length = 0 ∧
      ∀ t ∈ body, t.kind ≠ .eof ∧ t.lexeme ≠ ""
  faithful : ∀ t ∈ ts, ∃ i ≤ text.length, t.Faithful text i
  ordered : ts.Pairwise fun t u =>
    t.loc.index < u.loc.index ∧ t.loc.index + t.loc.length ≤ u.loc.index
  between : ∀ i c, text[i]? = some c → (∀ t ∈ ts, ¬t.Covers i) →
    c ∈ [' ', '\t', '\r', '\n', '\x0c'] ∨ CommentAround text ts i

/-! ## Lines and columns -/

theorem LastLineFeed.snoc (h : LastLineFeed cs k) (hc : c ≠ '\n') : LastLineFeed (cs ++ [c]) k := by
  cases h with
  | none h => exact .none (by simp [h, Ne.symm hc])
  | @found front back h hb =>
    have hcs : cs ++ [c] = front ++ '\n' :: (back ++ [c]) := by rw [h, List.append_assoc]; rfl
    exact .found hcs (by simp [hb, Ne.symm hc])

namespace Position

theorem line_start (cs : List Char) : (start.advance cs).line = 1 + cs.count '\n' :=
  line_advance start cs

theorem index_start (cs : List Char) : (start.advance cs).index = cs.length := by
  rw [index_advance, start, Nat.zero_add]

/-- The column counts from the last line feed. -/
theorem col_start (cs : List Char) :
    ∃ k, LastLineFeed cs k ∧ ((start.advance cs).col : Int) = cs.length - k := by
  induction cs using List.reverseRecOn with
  | nil => exact ⟨-1, .none (by simp), rfl⟩
  | append_singleton cs c ih =>
    rw [advance_append, List.length_append]
    by_cases hc : c = '\n'
    · subst hc
      refine ⟨cs.length, .found rfl (by simp), ?_⟩
      rw [advance_cons, advance_nil, step, if_pos rfl]
      simp only [List.length_cons, List.length_nil]
      omega
    · obtain ⟨k, hk, hcol⟩ := ih
      refine ⟨k, hk.snoc hc, ?_⟩
      rw [advance_cons, advance_nil, step, if_neg hc]
      simp only [List.length_cons, List.length_nil]
      omega

end Position

/-! ## Pieces -/

/-- A piece that is what it is called. -/
inductive Piece.Sound : Piece → Prop
  | blank (h : isSourceBlank c = true) : Piece.Sound (.blank c)
  | comment (h : Comment cs) : Piece.Sound (.comment cs)
  | token (hk : kind ≠ .eof) (hc : cs ≠ []) : Piece.Sound (.token kind cs)

theorem kind_of_numberExtent (h : numberExtent c cs = .ok (kind, n)) :
    kind = .integer ∨ kind = .float := by
  simp only [numberExtent] at h
  split at h
  · split at h <;> cases h
    exact .inl rfl
  · split at h <;> cases h
    split
    · exact .inl rfl
    · exact .inr rfl

theorem Kind.ofWord_ne_eof (s : String) : Kind.ofWord s ≠ .eof := by
  unfold Kind.ofWord
  split <;> exact nofun

/-- No token of a text is for its end. -/
theorem kind_of_lexemeExtent (h : lexemeExtent c cs = .ok (kind, n)) : kind ≠ .eof := by
  simp only [lexemeExtent] at h
  split at h
  · cases h
    exact Kind.ofWord_ne_eof _
  split at h
  · rcases kind_of_numberExtent h with rfl | rfl <;> decide
  split at h
  · cases h
    decide
  split at h
  · split at h <;> cases h
    decide
  split at h
  · split at h <;> cases h
    · decide
    · simp [Kind.ofSymbol]
  · split at h <;> cases h
    simp [Kind.ofSymbol]

/-- What the scan of a comment takes together with its first mark is a comment. -/
theorem comment_of_extent (ho : opensComment c cs = true) (h : commentExtent cs = .ok n) :
    Comment (c :: cs.take n) := by
  simp only [opensComment, Bool.and_eq_true] at ho
  obtain ⟨⟨hpar, hstar⟩, -⟩ := ho
  obtain rfl := eq_of_beq hpar
  obtain ⟨cs, rfl⟩ := of_firstOrNul_eq hstar nofun
  rw [commentExtent] at h
  split at h
  · next m hm =>
    cases h
    obtain ⟨body, rest, hd, hb, rfl⟩ := commentFrom_ok_iff.mp hm
    obtain rfl : cs = body ++ '*' :: ')' :: rest := hd
    have htake : ('*' :: (body ++ '*' :: ')' :: rest)).take (2 + body.length + 2 - 1) =
        '*' :: (body ++ ['*', ')']) := by
      rw [show 2 + body.length + 2 - 1 = body.length + 2 + 1 by omega, List.take_succ_cons,
        List.take_length_add_append]
      rfl
    rw [htake]
    exact .mk hb
  · cases h

theorem sound_of_nextPiece (h : nextPiece c cs = .ok (piece, n)) : piece.Sound := by
  unfold nextPiece at h
  split at h
  · next hb =>
    cases h
    exact .blank hb
  split at h
  · next ho =>
    split at h
    · next hn =>
      cases h
      exact .comment (comment_of_extent ho hn)
    · cases h
  · split at h
    · next hk =>
      cases h
      exact .token (kind_of_lexemeExtent hk) (List.cons_ne_nil _ _)
    · cases h

theorem sound_piecesFrom {read : List Piece} (h : piecesFrom offset read cs = .ok ps)
    (hr : ∀ piece ∈ read, piece.Sound) : ∀ piece ∈ ps, piece.Sound := by
  fun_induction piecesFrom offset read cs with
  | case1 =>
    cases h
    simpa using hr
  | case2 offset read c cs piece n hp ih =>
    exact ih h (List.forall_mem_cons.mpr ⟨sound_of_nextPiece hp, hr⟩)
  | case3 => cases h

/-! ## Places -/

/-- Pieces with the positions that they take from `p` on. -/
def placesFrom (p : Position) : List Piece → List (Position × Piece)
  | [] => []
  | piece :: ps => (p, piece) :: placesFrom (p.advance piece.chars) ps

def placed? (file : String) : Position × Piece → Option Token
  | (p, .token kind cs) => some ⟨kind, String.ofList cs, .ofPosition file p cs.length⟩
  | _ => none

theorem placeFrom_eq (file : String) (p : Position) (placed : List Token) (ps : List Piece) :
    placeFrom file p placed ps = placed.reverse ++ ((placesFrom p ps).filterMap (placed? file) ++
      [⟨.eof, "", .ofPosition file (p.advance (ps.flatMap Piece.chars)) 0⟩]) := by
  induction ps generalizing p placed with
  | nil => simp [placeFrom, placesFrom]
  | cons piece ps ih =>
    cases piece with
    | blank c | comment cs =>
      rw [placeFrom, ih, placesFrom, List.filterMap_cons_none rfl, List.flatMap_cons,
        Position.advance_append]
      · exact nofun
    | token kind cs =>
      rw [placeFrom, ih, placesFrom, List.filterMap_cons_some (f := placed? file) rfl,
        List.flatMap_cons, Position.advance_append, List.reverse_cons, List.append_assoc]
      rfl

/-- A piece stands where the pieces before it end. -/
theorem of_mem_placesFrom (h : (q, piece) ∈ placesFrom p ps) :
    piece ∈ ps ∧ ∃ front back, ps.flatMap Piece.chars = front ++ (piece.chars ++ back) ∧
      q = p.advance front := by
  induction ps generalizing p with
  | nil => cases h
  | cons first ps ih =>
    rw [placesFrom] at h
    rcases List.mem_cons.mp h with h | h
    · cases h
      exact ⟨List.mem_cons_self, [], ps.flatMap Piece.chars, rfl, rfl⟩
    · obtain ⟨hm, front, back, hps, rfl⟩ := ih h
      refine ⟨List.mem_cons_of_mem _ hm, first.chars ++ front, back, ?_, ?_⟩
      · rw [List.flatMap_cons, hps, List.append_assoc]
      · rw [Position.advance_append]

def Behind (x y : Position × Piece) : Prop := x.1.index + x.2.chars.length ≤ y.1.index

theorem behind_placesFrom (p : Position) (ps : List Piece) : (placesFrom p ps).Pairwise Behind := by
  induction ps generalizing p with
  | nil => exact .nil
  | cons piece ps ih =>
    refine .cons (fun ⟨q, other⟩ h => ?_) (ih _)
    obtain ⟨-, front, back, -, rfl⟩ := of_mem_placesFrom h
    simp only [Behind, Position.index_advance]
    omega

theorem behind_or_behind (hx : x ∈ placesFrom p ps) (hy : y ∈ placesFrom p ps) (hne : x ≠ y) :
    Behind x y ∨ Behind y x := by
  have : Std.Symm fun x y => Behind x y ∨ Behind y x := ⟨fun _ _ => Or.symm⟩
  have h := (behind_placesFrom p ps).imp (S := fun x y => Behind x y ∨ Behind y x) .inl
  exact h.forall hx hy hne

theorem exists_place (hp : p.index ≤ i) (hi : i < p.index + (ps.flatMap Piece.chars).length) :
    ∃ q piece, (q, piece) ∈ placesFrom p ps ∧ q.index ≤ i ∧ i < q.index + piece.chars.length := by
  induction ps generalizing p with
  | nil => simp at hi; omega
  | cons piece ps ih =>
    by_cases h : i < p.index + piece.chars.length
    · exact ⟨p, piece, List.mem_cons_self, hp, h⟩
    · rw [List.flatMap_cons, List.length_append] at hi
      obtain ⟨q, other, hm, hq⟩ := ih (p := p.advance piece.chars)
        (by rw [Position.index_advance]; omega) (by rw [Position.index_advance]; omega)
      exact ⟨q, other, List.mem_cons_of_mem _ hm, hq⟩

/-! ## Tokens -/

theorem extract_middle (front cs back : List Char) :
    (front ++ (cs ++ back)).extract front.length (front.length + cs.length) = cs := by
  rw [List.extract_eq_take_drop, List.drop_left, Nat.add_sub_cancel_left, List.take_left]

theorem faithful_ofPosition (front cs back : List Char) :
    Token.Faithful (front ++ (cs ++ back))
      ⟨kind, String.ofList cs, .ofPosition file (Position.start.advance front) cs.length⟩
      front.length := by
  constructor
  · exact congrArg Int.ofNat (Position.index_start front)
  · rw [String.toList_ofList]
    rfl
  · rw [String.toList_ofList, extract_middle]
  · rw [List.take_left]
    exact congrArg Int.ofNat (Position.line_start front)
  · rw [List.take_left]
    exact Position.col_start front

/-- The tokens of the pieces of a text, but for the one for its end. -/
def bodyTokens (file : String) (ps : List Piece) : List Token :=
  (placesFrom .start ps).filterMap (placed? file)

theorem bodyTokens_ordered (file : String) (ps : List Piece) :
    (bodyTokens file ps).Pairwise fun t u => t.loc.index + t.loc.length ≤ u.loc.index := by
  refine (behind_placesFrom .start ps).filterMap _ fun x y hxy t ht u hu => ?_
  obtain ⟨p, piece⟩ := x
  obtain ⟨q, other⟩ := y
  cases piece <;> cases ht
  cases other <;> cases hu
  exact Int.ofNat_le.mpr hxy

section Pieces

variable {text : List Char} {ps : List Piece} (hps : pieces text = .ok ps)

include hps

/-- A piece of a text stands at its own characters. -/
theorem place_of_pieces (h : (q, piece) ∈ placesFrom .start ps) :
    piece.Sound ∧ ∃ front back, text = front ++ (piece.chars ++ back) ∧
      q = Position.start.advance front := by
  obtain ⟨hm, front, back, hfb, hq⟩ := of_mem_placesFrom h
  exact ⟨sound_piecesFrom hps (by simp) _ hm, front, back, chars_pieces hps ▸ hfb, hq⟩

theorem place_of_token (h : t ∈ bodyTokens file ps) :
    ∃ front kind cs back, (Position.start.advance front, .token kind cs) ∈ placesFrom .start ps ∧
      kind ≠ .eof ∧ cs ≠ [] ∧ text = front ++ (cs ++ back) ∧
      t = ⟨kind, String.ofList cs, .ofPosition file (Position.start.advance front) cs.length⟩ := by
  obtain ⟨⟨q, piece⟩, hm, ht⟩ := List.mem_filterMap.mp h
  obtain ⟨hs, front, back, htext, rfl⟩ := place_of_pieces hps hm
  cases hs with
  | blank | comment => cases ht
  | token hk hc =>
    cases ht
    exact ⟨front, _, _, back, hm, hk, hc, htext, rfl⟩

/-- No token of a text has a character in common with a comment of it. -/
theorem not_covers_comment (h : (Position.start.advance front, .comment cs) ∈ placesFrom .start ps)
    (ht : t ∈ bodyTokens file ps) {j : Nat} (hj : front.length ≤ j)
    (hj' : j < front.length + cs.length) : ¬t.Covers j := by
  rintro ⟨hle, hlt⟩
  obtain ⟨before, kind, ds, after, hm, -, -, -, rfl⟩ := place_of_token hps ht
  have hb := behind_or_behind h hm (by simp)
  simp only [Behind, Piece.chars, Position.index_start, Location.ofPosition] at hb hle hlt
  omega

/-- A character that no token covers is a blank or belongs to a comment. -/
theorem gap_of_pieces (file : String) {i : Nat} {c : Char} (hi : text[i]? = some c)
    (hgap : ∀ t ∈ bodyTokens file ps, ¬t.Covers i) :
    c ∈ [' ', '\t', '\r', '\n', '\x0c'] ∨ CommentAround text (bodyTokens file ps) i := by
  obtain ⟨hlt, -⟩ := List.getElem?_eq_some_iff.mp hi
  rw [← chars_pieces hps] at hlt
  obtain ⟨q, piece, hm, hle, hub⟩ := exists_place (p := .start) (Nat.zero_le i) (by
    rw [Position.start, Nat.zero_add]
    exact hlt)
  obtain ⟨hs, front, back, htext, rfl⟩ := place_of_pieces hps hm
  rw [Position.index_start] at hle hub
  cases hs with
  | @blank b hb =>
    obtain rfl : i = front.length := by
      simp only [Piece.chars, List.length_cons, List.length_nil] at hub
      omega
    obtain rfl : b = c := by simpa [htext, Piece.chars] using hi
    exact .inl (by simpa [isSourceBlank, or_assoc] using hb)
  | @comment cs hc =>
    refine .inr ⟨front.length, front.length + cs.length, hle, hub, ?_, ?_, fun t ht j hj hj' =>
      not_covers_comment hps hm ht hj hj'⟩
    · rw [htext]
      simp only [Piece.chars, List.length_append]
      omega
    · rw [htext]
      exact (extract_middle front cs back).symm ▸ hc
  | @token kind cs hk hc =>
    refine (hgap _ (List.mem_filterMap.mpr ⟨_, hm, rfl⟩) ?_).elim
    simp only [Piece.chars] at hub
    simp only [Token.Covers, Location.ofPosition, Position.index_start]
    omega

end Pieces

def endToken (file : String) (text : List Char) : Token :=
  ⟨.eof, "", .ofPosition file (Position.start.advance text) 0⟩

theorem faithful_endToken (file : String) (text : List Char) :
    Token.Faithful text (endToken file text) text.length := by
  have h : Token.Faithful (text ++ ([] ++ [])) (endToken file text) text.length :=
    faithful_ofPosition text [] []
  rwa [List.append_nil, List.append_nil] at h

theorem not_covers_endToken (file : String) (text : List Char) (i : Nat) :
    ¬(endToken file text).Covers i := by
  simp only [Token.Covers, endToken, Location.ofPosition]
  omega

theorem tokenize_eq (h : tokenize file source = .ok ts) :
    ∃ ps, pieces source.toList = .ok ps ∧
      ts = bodyTokens file ps ++ [endToken file source.toList] := by
  rw [tokenize] at h
  split at h
  · next ps hps =>
    cases h
    refine ⟨ps, hps, ?_⟩
    rw [placeTokens, placeFrom_eq, chars_pieces hps]
    rfl
  · cases h

/-- The tokens of a text that can be read are its stretches between blanks and comments. -/
theorem tokenize_tiling (h : tokenize file source = .ok ts) : Tiling source.toList ts := by
  obtain ⟨ps, hps, rfl⟩ := tokenize_eq h
  have hindex : (endToken file source.toList).loc.index = source.toList.length :=
    (faithful_endToken file _).index
  have hbody : ∀ t ∈ bodyTokens file ps, t.kind ≠ .eof ∧ t.lexeme ≠ "" ∧ 0 < t.loc.length ∧
      t.loc.index + t.loc.length ≤ source.toList.length := by
    intro t ht
    obtain ⟨front, kind, cs, back, -, hk, hc, htext, rfl⟩ := place_of_token hps ht
    have hlen := congrArg List.length htext
    have hpos := List.length_pos_iff.mpr hc
    simp only [List.length_append] at hlen
    refine ⟨hk, by simpa using hc, ?_, ?_⟩ <;>
      simp only [Location.ofPosition, Position.index_start] <;> omega
  constructor
  case ending =>
    exact ⟨_, _, rfl, rfl, rfl, hindex, rfl, fun t ht => ⟨(hbody t ht).1, (hbody t ht).2.1⟩⟩
  case faithful =>
    intro t ht
    rcases List.mem_append.mp ht with ht | ht
    · obtain ⟨front, kind, cs, back, -, -, -, htext, rfl⟩ := place_of_token hps ht
      rw [htext]
      exact ⟨front.length, by simp, faithful_ofPosition front cs back⟩
    · obtain rfl := List.mem_singleton.mp ht
      exact ⟨_, Nat.le_refl _, faithful_endToken file _⟩
  case ordered =>
    refine List.pairwise_append.mpr ⟨?_, List.pairwise_singleton _ _, fun t ht u hu => ?_⟩
    · refine (bodyTokens_ordered file ps).imp_of_mem fun {t u} ht _ htu => ⟨?_, htu⟩
      have := (hbody t ht).2.2.1
      omega
    · obtain rfl := List.mem_singleton.mp hu
      have := (hbody t ht).2.2
      omega
  case between =>
    intro i c hi hgap
    have hend := not_covers_endToken file source.toList
    rcases gap_of_pieces hps file hi fun t ht => hgap t (List.mem_append_left _ ht) with h | h
    · exact .inl h
    · obtain ⟨a, b, ha, hb, hle, hc, hts⟩ := h
      refine .inr ⟨a, b, ha, hb, hle, hc, fun t ht j hj hj' => ?_⟩
      rcases List.mem_append.mp ht with ht | ht
      · exact hts t ht j hj hj'
      · obtain rfl := List.mem_singleton.mp ht
        exact hend j

/-- A name, a comment over two lines and a number. -/
theorem tokenize_tiling_commented :
    tokenize "f" "ab (* 1\n*) 2" = .ok
      [⟨.identifier, "ab", ⟨"f", 0, 1, 1, 2⟩⟩, ⟨.integer, "2", ⟨"f", 11, 2, 4, 1⟩⟩,
        ⟨.eof, "", ⟨"f", 12, 2, 5, 0⟩⟩] ∧
      Tiling "ab (* 1\n*) 2".toList
        [⟨.identifier, "ab", ⟨"f", 0, 1, 1, 2⟩⟩, ⟨.integer, "2", ⟨"f", 11, 2, 4, 1⟩⟩,
          ⟨.eof, "", ⟨"f", 12, 2, 5, 0⟩⟩] := by
  have h : tokenize "f" "ab (* 1\n*) 2" = .ok
      [⟨.identifier, "ab", ⟨"f", 0, 1, 1, 2⟩⟩, ⟨.integer, "2", ⟨"f", 11, 2, 4, 1⟩⟩,
        ⟨.eof, "", ⟨"f", 12, 2, 5, 0⟩⟩] := by cbv
  exact ⟨h, tokenize_tiling h⟩

end HashIf
