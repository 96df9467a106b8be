import HashIf.Proofs.Source.Concatenation

/-! Tokens by themselves. The characters of a token of a text are that token by themselves too, and
wherever a blank or a line feed follows them, unless they are a single quote that begins a literal
there. -/

namespace HashIf

/-! ## Pieces that are tokens -/

theorem nextPiece_token_iff : nextPiece c cs = .ok (.token kind ds, n) ↔
    ¬isSourceBlank c = true ∧ ¬opensComment c cs = true ∧ lexemeExtent c cs = .ok (kind, n) ∧
      ds = c :: cs.take n := by
  rw [nextPiece]
  constructor
  · intro h
    split at h
    · cases h
    split at h
    · split at h <;> cases h
    · next hb ho =>
      split at h <;> cases h
      next hx => exact ⟨hb, ho, hx, rfl⟩
  · rintro ⟨hb, ho, hx, rfl⟩
    rw [if_neg hb, if_neg ho, hx]

/-- A piece is a token if it begins with neither a blank nor a comment. -/
theorem token_of_nextPiece (h : nextPiece c cs = .ok (piece, n)) (hb : ¬isSourceBlank c = true)
    (ho : ¬opensComment c cs = true) : ∃ kind, piece = .token kind (c :: cs.take n) := by
  rw [nextPiece, if_neg hb, if_neg ho] at h
  split at h <;> cases h
  exact ⟨_, rfl⟩

theorem extent_of_parenthesis (h : lexemeExtent '(' cs = .ok (kind, n)) : n = 0 := by
  rw [lexemeExtent_iff] at h
  cases h with
  | word h => exact absurd h (by decide)
  | number _ hd => exact absurd hd (by decide)
  | hashWord hc | string hc | character hc => exact absurd hc (by decide)
  | quote => rfl
  | symbol _ _ _ _ _ h =>
    rcases symbolExtent_spec h with ⟨hp, -⟩ | ⟨-, hn, -⟩
    · rw [not_pair_of_fst (by decide)] at hp
      cases hp
    · exact hn

/-- The characters of a token begin no comment, unless an asterisk follows a parenthesis. -/
theorem not_opensComment_take (h : lexemeExtent c cs = .ok (kind, n))
    (hx : firstOrNul xs ≠ '*') : ¬opensComment c (cs.take n ++ xs) = true := by
  intro ho
  simp only [opensComment, Bool.and_eq_true, beq_iff_eq] at ho
  obtain ⟨⟨rfl, hs⟩, -⟩ := ho
  rw [extent_of_parenthesis h, List.take_zero, List.nil_append] at hs
  exact hx hs

/-- No token takes a line feed at the end of the text. -/
theorem extent_lineFeed (h : lexemeExtent c (cs ++ ['\n']) = .ok (kind, n)) : n ≤ cs.length := by
  rw [lexemeExtent_iff] at h
  cases h with
  | word | hashWord =>
    rw [wordExtent_append (.inl (.inr rfl))]
    exact wordExtent_le cs
  | number _ _ h =>
    rw [numberExtent_append (.inl (.inr rfl))] at h
    exact numberExtent_le h
  | string _ h =>
    obtain ⟨body, rest, ht, -, rfl⟩ := stringFrom_ok h
    have hlen := congrArg List.length ht
    cases rest with
    | nil => cases (List.append_inj' ht rfl).2
    | cons d rest =>
      simp only [List.length_append, List.length_cons, List.length_nil] at hlen
      omega
  | character _ h =>
    rw [characterExtent?_append] at h
    exact characterExtent?_le h
  | quote => exact Nat.zero_le _
  | symbol _ _ _ _ _ h =>
    rw [symbolExtent_append (.inl (.inr rfl))] at h
    exact symbolExtent_le h

theorem nextPiece_nul (cs : List Char) : ∃ f, nextPiece '\x00' cs = .error f := by
  have hp : pairSymbols.contains ('\x00', firstOrNul cs) = false := not_pair_of_fst (by decide)
  have hx : lexemeExtent '\x00' cs = .error (.single 0 (.unexpected '\x00')) := by
    rw [lexemeExtent, if_neg (by decide), if_neg (by decide), if_neg (by simp), if_neg (by decide),
      if_neg (by decide), symbolExtent, hp]
    rfl
  refine ⟨.single 0 (.unexpected '\x00'), ?_⟩
  rw [nextPiece, if_neg (by decide), if_neg (by simp [opensComment]), hx]

theorem LexemeAt.characterExtent (h : LexemeAt c cs kind n) (hk : kind = .character) :
    characterExtent? cs = some n := by
  cases h with
  | word =>
    unfold Kind.ofWord at hk
    split at hk <;> cases hk
  | number _ _ h => rcases kind_of_numberExtent h with rfl | rfl <;> cases hk
  | character _ h => exact h
  | hashWord | string | quote | symbol => cases hk

theorem LexemeAt.stringExtent (h : LexemeAt c cs kind n) (hk : kind = .string) :
    c = '"' ∧ HashIf.stringExtent cs = .ok n := by
  cases h with
  | word =>
    unfold Kind.ofWord at hk
    split at hk <;> cases hk
  | number _ _ h => rcases kind_of_numberExtent h with rfl | rfl <;> cases hk
  | string hc h => exact ⟨hc, h⟩
  | hashWord | character | quote | symbol => cases hk

theorem LexemeAt.numberExtent (h : LexemeAt c cs kind n) (hk : kind = .integer ∨ kind = .float) :
    isDigit c = true ∧ HashIf.numberExtent c cs = .ok (kind, n) := by
  cases h with
  | word =>
    unfold Kind.ofWord at hk
    split at hk <;> rcases hk with hk | hk <;> cases hk
  | number _ hd h => exact ⟨hd, h⟩
  | hashWord | string | character | quote | symbol => rcases hk with hk | hk <;> cases hk

/-- A piece is read where it stands. -/
theorem Reads.of_mem_placesFrom (h : Reads cs ps) (hm : (q, piece) ∈ placesFrom p ps) :
    ∃ front c rest n, cs = front ++ c :: rest ∧ q = p.advance front ∧
      nextPiece c rest = .ok (piece, n) := by
  induction h generalizing p with
  | nil => cases hm
  | @cons c cs first n ps hp _ ih =>
    rw [placesFrom] at hm
    rcases List.mem_cons.mp hm with hm | hm
    · cases hm
      exact ⟨[], c, cs, n, rfl, rfl, hp⟩
    · obtain ⟨front, d, rest, k, hcs, rfl, hd⟩ := ih hm
      refine ⟨first.chars ++ front, d, rest, k, ?_, ?_, hd⟩
      · rw [List.append_assoc, ← hcs, chars_of_nextPiece hp, List.cons_append,
          List.take_append_drop]
      · rw [Position.advance_append]

/-! ## Tokens by themselves -/

/-- The characters are a token of the kind by themselves. -/
inductive Standalone (kind : Kind) : List Char → Prop
  | mk (h : nextPiece c cs = .ok (.token kind (c :: cs), cs.length)) : Standalone kind (c :: cs)

namespace Standalone

theorem ne_nil (h : Standalone kind cs) : cs ≠ [] := by
  cases h
  exact List.cons_ne_nil _ _

theorem of_nextPiece (h : nextPiece c cs = .ok (.token kind ds, n))
    (hn : kind = .character → n ≠ 0) : Standalone kind ds := by
  have hle := nextPiece_le h
  obtain ⟨hb, ho, hx, rfl⟩ := nextPiece_token_iff.mp h
  have ho' : ¬opensComment c (cs.take n) = true := by
    rw [← List.append_nil (cs.take n)]
    exact not_opensComment_take hx (by decide)
  refine .mk (nextPiece_token_iff.mpr ⟨hb, ho', ?_, ?_⟩)
  · rw [List.length_take, Nat.min_eq_left hle]
    exact lexemeExtent_take hx hn
  · rw [List.take_length]

/-- A literal is not cut short in a text that can be read: no NUL begins a piece. -/
theorem extent_ne_zero (h : nextPiece c cs = .ok (.token .character ds, n))
    (hr : Reads (cs.drop n) ps) : n ≠ 0 := by
  rintro rfl
  obtain ⟨-, -, hx, -⟩ := nextPiece_token_iff.mp h
  have hc := (lexemeExtent_iff.mp hx).characterExtent rfl
  obtain ⟨cs, rfl⟩ := characterExtent?_zero hc
  obtain ⟨f, hf⟩ := nextPiece_nul cs
  cases hr with
  | cons h => cases hf.symm.trans h

theorem of_reads (h : Reads text ps) (hm : .token kind cs ∈ ps) : Standalone kind cs := by
  induction h with
  | nil => cases hm
  | cons hp hr ih =>
    rcases List.mem_cons.mp hm with rfl | hm
    · refine of_nextPiece hp ?_
      rintro rfl
      exact extent_ne_zero hp hr
    · exact ih hm

theorem characterExtent_append (h : lexemeExtent '\'' cs = .ok (kind, cs.length))
    (hq : cs = [] → characterExtent? (b :: ds) = none) :
    characterExtent? (cs ++ b :: ds) = characterExtent? cs := by
  generalize hn : cs.length = n at h
  rw [lexemeExtent_iff] at h
  cases h with
  | word h | number _ h => exact absurd h (by decide)
  | symbol _ _ _ _ hne => exact (hne rfl).elim
  | hashWord hc | string hc => exact absurd hc (by decide)
  | quote =>
    obtain rfl := List.eq_nil_of_length_eq_zero hn
    exact hq rfl
  | character _ h =>
    have hne : n ≠ 0 := by
      rintro rfl
      obtain rfl := List.eq_nil_of_length_eq_zero hn
      cases h
    obtain ⟨e, rest, rfl, hl, rfl⟩ := characterExtent?_eq h hne
    obtain rfl : rest = [] := by
      rw [List.length_append] at hn
      exact List.eq_nil_of_length_eq_zero (by omega)
    rw [List.append_nil] at h ⊢
    exact hl.extent.trans h.symm

theorem not_isSourceBlank (h : Standalone kind (c :: cs)) : ¬isSourceBlank c = true := by
  obtain ⟨h⟩ := h
  exact (nextPiece_token_iff.mp h).1

theorem not_opensComment (h : Standalone kind (c :: cs)) (hb : Breaks b) :
    ¬opensComment c (cs ++ b :: ds) = true := by
  obtain ⟨h⟩ := h
  have hx := (nextPiece_token_iff.mp h).2.2.1
  have hs : firstOrNul (b :: ds) ≠ '*' := by rcases hb with rfl | rfl <;> exact nofun
  have ho := not_opensComment_take hx hs
  rwa [List.take_length] at ho

/-- A token is read as by itself if a break follows and, with it, no quote becomes a literal. -/
theorem nextPiece_append (h : Standalone kind (c :: cs)) (hb : Breaks b)
    (hq : c :: cs = ['\''] → characterExtent? (b :: ds) = none) :
    nextPiece c (cs ++ b :: ds) = .ok (.token kind (c :: cs), cs.length) := by
  refine nextPiece_token_iff.mpr ⟨h.not_isSourceBlank, h.not_opensComment hb, ?_, ?_⟩
  · obtain ⟨h⟩ := h
    have hx := (nextPiece_token_iff.mp h).2.2.1
    refine lexemeExtent_append hb.ends hx ?_
    rintro rfl
    exact characterExtent_append hx fun hn => hq (by rw [hn])
  · rw [List.take_left]

theorem reads (h : Standalone kind cs) : Reads cs [.token kind cs] := by
  obtain ⟨h⟩ := h
  refine .cons h ?_
  rw [List.drop_length]
  exact .nil

/-- A text that is a token by itself has that token and the one for its end. -/
theorem tokenize (h : Standalone kind lexeme.toList) (file : String) :
    HashIf.tokenize file lexeme =
      .ok [⟨kind, lexeme, .ofPosition file .start lexeme.length⟩, endToken file lexeme.toList] := by
  have hp : pieces lexeme.toList = .ok [.token kind lexeme.toList] := pieces_iff.mpr h.reads
  have hb : bodyTokens file [.token kind lexeme.toList] =
      [⟨kind, String.ofList lexeme.toList, .ofPosition file .start lexeme.toList.length⟩] := rfl
  rw [tokenize_of_pieces hp, hb, String.ofList_toList, String.length_toList]
  rfl

/-- Characters are a token of one kind at most. -/
theorem kind_unique (h : Standalone kind cs) (h' : Standalone kind' cs) : kind = kind' := by
  obtain ⟨h⟩ := h
  obtain ⟨h'⟩ := h'
  cases h.symm.trans h'
  rfl

/-- No token ends in a line feed. -/
theorem getLast_ne (h : Standalone kind cs) : cs.getLast? ≠ some '\n' := by
  intro hl
  obtain ⟨front, rfl⟩ := List.getLast?_eq_some_iff.mp hl
  generalize ht : front ++ ['\n'] = text at h
  obtain ⟨h⟩ := h
  cases front with
  | nil =>
    cases ht
    cases h
  | cons c front =>
    cases ht
    obtain ⟨-, -, hx, -⟩ := nextPiece_token_iff.mp h
    have hle : (front ++ ['\n']).length ≤ front.length := extent_lineFeed hx
    rw [List.length_append] at hle
    exact Nat.not_succ_le_self _ hle

end Standalone

/-- The tokens of a text are tokens by themselves too. -/
theorem standalone_of_token {ps : List Piece} (h : pieces text = .ok ps)
    (ht : t ∈ bodyTokens file ps) : t.kind ≠ .eof ∧ Standalone t.kind t.lexeme.toList := by
  obtain ⟨front, kind, cs, back, hm, hk, -, -, rfl⟩ := place_of_token h ht
  refine ⟨hk, ?_⟩
  rw [String.toList_ofList]
  exact .of_reads (pieces_iff.mp h) (of_mem_placesFrom hm).1

theorem standalone_of_tokenize (h : tokenize file source = .ok ts) (ht : t ∈ ts)
    (hk : t.kind ≠ .eof) : Standalone t.kind t.lexeme.toList := by
  obtain ⟨ps, hps, rfl⟩ := tokenize_eq h
  rcases List.mem_append.mp ht with ht | ht
  · exact (standalone_of_token hps ht).2
  · obtain rfl := List.mem_singleton.mp ht
    exact (hk rfl).elim

/-- The lexeme of a token of a text that can be read has that token and no other, of the same kind.
So tokens with one lexeme have one kind, whatever texts they stand in. -/
theorem tokenize_lexeme (h : tokenize file source = .ok ts) (ht : t ∈ ts) (hk : t.kind ≠ .eof) :
    (∀ name, tokenize name t.lexeme =
      .ok [⟨t.kind, t.lexeme, .ofPosition name .start t.lexeme.length⟩,
        endToken name t.lexeme.toList]) ∧
    ∀ name text us, tokenize name text = .ok us → ∀ u ∈ us, u.lexeme = t.lexeme →
      u.kind = t.kind := by
  have hs : Standalone t.kind t.lexeme.toList := standalone_of_tokenize h ht hk
  refine ⟨hs.tokenize, fun name text us htext u hu hl => ?_⟩
  obtain ⟨ps, hps, rfl⟩ := tokenize_eq htext
  rcases List.mem_append.mp hu with hu | hu
  · have hs' : Standalone u.kind u.lexeme.toList := (standalone_of_token hps hu).2
    rw [hl] at hs'
    exact hs'.kind_unique hs
  · -- The token for the end has no characters.
    obtain rfl := List.mem_singleton.mp hu
    rw [← hl] at hs
    exact (hs.ne_nil rfl).elim

/-- In front of two points, a number, and in front of it a quote that begins no literal. -/
theorem tokenize_lexeme_beforePoints :
    tokenize "f" "'1..a" = .ok [⟨.symbol "'", "'", ⟨"f", 0, 1, 1, 1⟩⟩,
        ⟨.integer, "1", ⟨"f", 1, 1, 2, 1⟩⟩, ⟨.symbol ".", ".", ⟨"f", 2, 1, 3, 1⟩⟩,
        ⟨.symbol ".", ".", ⟨"f", 3, 1, 4, 1⟩⟩, ⟨.identifier, "a", ⟨"f", 4, 1, 5, 1⟩⟩,
        ⟨.eof, "", ⟨"f", 5, 1, 6, 0⟩⟩] ∧
      Kind.integer ≠ .eof ∧
      tokenize "g" "1" =
        .ok [⟨.integer, "1", ⟨"g", 0, 1, 1, 1⟩⟩, ⟨.eof, "", ⟨"g", 1, 1, 2, 0⟩⟩] := by
  have h : tokenize "f" "'1..a" = .ok [⟨.symbol "'", "'", ⟨"f", 0, 1, 1, 1⟩⟩,
      ⟨.integer, "1", ⟨"f", 1, 1, 2, 1⟩⟩, ⟨.symbol ".", ".", ⟨"f", 2, 1, 3, 1⟩⟩,
      ⟨.symbol ".", ".", ⟨"f", 3, 1, 4, 1⟩⟩, ⟨.identifier, "a", ⟨"f", 4, 1, 5, 1⟩⟩,
      ⟨.eof, "", ⟨"f", 5, 1, 6, 0⟩⟩] := by cbv
  have hk : Kind.integer ≠ .eof := by decide
  exact ⟨h, hk, (tokenize_lexeme h (List.mem_cons_of_mem _ List.mem_cons_self) hk).1 "g"⟩

/-! ## Texts of tokens -/

theorem placed_blanks (file : String) (q : Position) (bs : List Char) :
    (placesFrom q (bs.map .blank)).filterMap (placed? file) = [] := by
  induction bs generalizing q with
  | nil => rfl
  | cons b bs ih => exact ih (q.advance [b])

theorem chars_blanks (bs : List Char) : (bs.map Piece.blank).flatMap Piece.chars = bs := by
  induction bs with
  | nil => rfl
  | cons b bs ih => exact congrArg (b :: ·) ih

theorem Reads.blanks (hb : ∀ b ∈ bs, Breaks b) (h : Reads cs ps) :
    Reads (bs ++ cs) (bs.map Piece.blank ++ ps) := by
  induction bs with
  | nil => exact h
  | cons b bs ih =>
    obtain ⟨hb, hbs⟩ := List.forall_mem_cons.mp hb
    refine .cons (n := 0) ?_ (ih hbs)
    rcases hb with rfl | rfl <;> rfl

theorem Reads.of_blanks (hb : ∀ b ∈ bs, Breaks b) (h : Reads (bs ++ cs) ps) :
    ∃ qs, ps = bs.map Piece.blank ++ qs ∧ Reads cs qs := by
  induction bs generalizing ps with
  | nil => exact ⟨ps, rfl, h⟩
  | cons b bs ih =>
    obtain ⟨hb, hbs⟩ := List.forall_mem_cons.mp hb
    cases h with
    | cons hp hr =>
      have hblank : nextPiece b (bs ++ cs) = .ok (.blank b, 0) := by
        rcases hb with rfl | rfl <;> rfl
      cases hblank.symm.trans hp
      obtain ⟨qs, rfl, hq⟩ := ih hbs hr
      exact ⟨qs, rfl, hq⟩

theorem Reads.token (hs : Standalone kind cs) (hb : Breaks b)
    (hq : cs = ['\''] → characterExtent? (b :: ds) = none) (h : Reads (b :: ds) ps) :
    Reads (cs ++ b :: ds) (.token kind cs :: ps) := by
  cases cs with
  | nil => cases hs
  | cons c cs =>
    rw [List.cons_append]
    refine .cons (hs.nextPiece_append hb hq) ?_
    rwa [List.drop_left]

/-- In front of a break some token is read, and if it has the characters of the one that stands
there, then no more is taken than that. -/
theorem Reads.of_token (hs : Standalone kind cs) (hb : Breaks b) (h : Reads (cs ++ b :: ds) ps) :
    ∃ kind' cs' qs, ps = .token kind' cs' :: qs ∧ (cs' = cs → Reads (b :: ds) qs) := by
  cases cs with
  | nil => cases hs
  | cons c cs =>
    rw [List.cons_append] at h
    cases h with
    | @cons _ _ piece n qs hp hr =>
      obtain ⟨kind', rfl⟩ := token_of_nextPiece hp hs.not_isSourceBlank (hs.not_opensComment hb)
      refine ⟨kind', _, qs, rfl, fun he => ?_⟩
      have hn := congrArg List.length (List.cons.inj he).2
      rw [List.length_take, Nat.min_eq_left (nextPiece_le hp)] at hn
      rwa [hn, List.drop_left] at hr

end HashIf
