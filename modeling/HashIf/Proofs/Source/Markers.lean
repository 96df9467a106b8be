import HashIf.Proofs.Filter.HeaderExtent
import HashIf.Proofs.Source.Lines
import HashIf.Proofs.Source.Standalone

/-! Markers of a source text. A stream marks its tokens by their lines alone. In the tokens of a
text this is a matter of characters: a marker is a directive word, and no other token has a
character before it on its line. -/

namespace HashIf

/-! ## Directive words -/

theorem Marker.ofWord?_eq_some {m : Marker} : Marker.ofWord? s = some m ↔ s = m.word := by
  constructor
  · intro h
    unfold Marker.ofWord? at h
    split at h <;> cases h <;> rfl
  · rintro rfl
    cases m <;> rfl

theorem Token.directiveWord?_eq_some {t : Token} :
    t.directiveWord? = some m ↔ t.kind = .hashWord ∧ t.lexeme = m.word := by
  rw [← Marker.ofWord?_eq_some, directiveWord?]
  split
  · next hk => exact ⟨fun h => ⟨hk, h⟩, And.right⟩
  · next hk => simp [hk]

/-- A marker is a directive word on a later line than the token before it. -/
theorem Cursor.marker?_cons {l : Int} {t : Token} :
    Cursor.marker? ⟨l, t :: ts⟩ = some m ↔
      (t.kind = .hashWord ∧ t.lexeme = m.word) ∧ l < t.loc.line := by
  rw [← Token.directiveWord?_eq_some, marker?]
  dsimp only
  split
  · next hl => exact ⟨fun h => ⟨h, hl⟩, And.left⟩
  · next hl => simp [hl]

/-- A token is marked by the tokens before it. -/
theorem mem_classifyFrom {l : Int} (h : (t, m?) ∈ classifyFrom l ts) :
    ∃ xs ys, ts = xs ++ t :: ys ∧ m? = Cursor.marker? ⟨lineBehind l xs, t :: ys⟩ := by
  induction ts generalizing l with
  | nil => cases h
  | cons u ts ih =>
    rcases List.mem_cons.mp h with h | h
    · cases h
      exact ⟨[], ts, rfl, rfl⟩
    · obtain ⟨xs, ys, rfl, hm⟩ := ih h
      exact ⟨u :: xs, ys, rfl, hm⟩

theorem Token.line_le_lastLine (t : Token) : t.loc.line ≤ t.lastLine := by
  rw [lastLine]
  omega

/-- Where each token begins no earlier than the ones before it end, the last of them decides. -/
theorem lineBehind_lt_iff {l n : Int} (h : ts.Pairwise fun t u => t.lastLine ≤ u.loc.line)
    (hl : l < n) : lineBehind l ts < n ↔ ∀ t ∈ ts, t.lastLine < n := by
  rcases List.eq_nil_or_concat ts with rfl | ⟨front, t, rfl⟩
  · exact ⟨fun _ => nofun, fun _ => hl⟩
  · rw [List.concat_eq_append] at h ⊢
    rw [lineBehind_append, lineBehind_cons, lineBehind_nil]
    constructor
    · intro ht u hu
      rcases List.mem_append.mp hu with hu | hu
      · have hut := (List.pairwise_append.mp h).2.2 u hu t List.mem_cons_self
        exact Int.lt_of_le_of_lt (Int.le_trans hut t.line_le_lastLine) ht
      · rwa [List.mem_singleton.mp hu]
    · intro ht
      exact ht t (List.mem_append_right _ List.mem_cons_self)

/-! ## Lines of characters -/

/-- The line of the character at `i`, counted by the line feeds before it. -/
def lineAt (text : List Char) (i : Nat) : Nat := 1 + (text.take i).count '\n'

theorem lineAt_append (front cs : List Char) (i : Nat) :
    lineAt (front ++ cs) (front.length + i) = 1 + front.count '\n' + (cs.take i).count '\n' := by
  rw [lineAt, List.take_length_add_append, List.count_append, Nat.add_assoc]

section Pieces

variable {text : List Char} {ps : List Piece} (hps : pieces text = .ok ps)

include hps

/-- The characters of a token stand on no line behind its last. -/
theorem lineAt_le_lastLine (h : t ∈ bodyTokens file ps) {j : Nat} (hj : t.Covers j) :
    lineAt text j ≤ t.lastLine := by
  obtain ⟨front, kind, cs, back, -, -, -, rfl, rfl⟩ := place_of_token hps h
  obtain ⟨hle, hlt⟩ := hj
  simp only [Location.ofPosition, Position.index_start] at hle hlt
  obtain ⟨k, rfl⟩ := Nat.exists_eq_add_of_le (Int.ofNat_le.mp hle)
  have hk : k ≤ cs.length := by omega
  have hcount : (cs.take k).count '\n' ≤ cs.count '\n' := (List.take_sublist k cs).count_le _
  rw [lineAt_append, List.take_append_of_le_length hk]
  simp only [Token.lastLine, Location.ofPosition, Position.line_start, String.toList_ofList]
  omega

/-- A token has a character on its last line, for it does not end in a line feed. -/
theorem exists_covers_lastLine (h : t ∈ bodyTokens file ps) :
    ∃ j, t.Covers j ∧ lineAt text j = t.lastLine := by
  obtain ⟨front, kind, cs, back, hm, -, hc, rfl, rfl⟩ := place_of_token hps h
  have hlast := (Standalone.of_reads (pieces_iff.mp hps) (of_mem_placesFrom hm).1).getLast_ne
  rcases List.eq_nil_or_concat cs with rfl | ⟨ds, c, rfl⟩
  · exact absurd rfl hc
  rw [List.concat_eq_append] at hlast ⊢
  have hcn : c ≠ '\n' := by simpa using hlast
  refine ⟨front.length + ds.length, ?_, ?_⟩
  · simp only [Token.Covers, Location.ofPosition, Position.index_start, List.length_append,
      List.length_cons, List.length_nil]
    omega
  · rw [lineAt_append, List.append_assoc, List.take_left]
    simp only [Token.lastLine, Location.ofPosition, Position.line_start, String.toList_ofList,
      List.count_append, List.count_singleton, beq_eq_false_iff_ne.mpr hcn, Bool.false_eq_true,
      if_false]
    omega

theorem lastLine_lt_iff (h : t ∈ bodyTokens file ps) {n : Int} (hn : t.lastLine ≤ n) :
    t.lastLine < n ↔ ∀ j, t.Covers j → (lineAt text j : Int) ≠ n := by
  constructor
  · intro hlt j hj
    have hle := lineAt_le_lastLine hps h hj
    omega
  · intro hne
    obtain ⟨j, hj, hline⟩ := exists_covers_lastLine hps h
    have hj := hne j hj
    omega

end Pieces

/-! ## Tokens of a text -/

section Tokens

variable {source : String} (h : tokenize file source = .ok ts)

include h

/-- The tokens stand apart, and each begins on the line where the one before it ends or later. -/
theorem tokens_apart : ts.Pairwise fun t u =>
    t.lastLine ≤ u.loc.line ∧ t.loc.index + t.loc.length ≤ u.loc.index := by
  obtain ⟨ps, hps, rfl⟩ := tokenize_eq h
  refine List.pairwise_append.mpr ⟨?_, List.pairwise_singleton _ _, fun t ht u hu => ?_⟩
  · exact (bodyTokens_lines file ps).and (bodyTokens_ordered file ps)
  · obtain rfl := List.mem_singleton.mp hu
    have hline := (line_of_token hps ht).2
    obtain ⟨front, kind, cs, back, -, -, -, htext, rfl⟩ := place_of_token hps ht
    have hlen := congrArg List.length htext
    simp only [List.length_append] at hlen
    simp only [endToken, Location.ofPosition, Position.line_start, Position.index_start] at hline ⊢
    omega

/-- A token has the line of its first character, which is the end of the text for the last one. -/
theorem place_of_tokens (ht : t ∈ ts) :
    0 ≤ t.loc.length ∧ lineAt source.toList t.loc.index.toNat = t.loc.line := by
  obtain ⟨ps, hps, rfl⟩ := tokenize_eq h
  have line {i : Nat} (hf : t.Faithful source.toList i) :
      0 ≤ t.loc.length ∧ lineAt source.toList t.loc.index.toNat = t.loc.line := by
    rw [hf.index, hf.line, hf.length]
    exact ⟨Int.natCast_nonneg _, rfl⟩
  rcases List.mem_append.mp ht with ht | ht
  · obtain ⟨front, kind, cs, back, -, -, -, htext, rfl⟩ := place_of_token hps ht
    exact line (htext ▸ faithful_ofPosition front cs back)
  · obtain rfl := List.mem_singleton.mp ht
    exact line (faithful_endToken file _)

end Tokens

namespace Token

/-- No other token has a character before the token on its line. -/
def FirstOnLine (text : List Char) (ts : List Token) (t : Token) : Prop :=
  ∀ u ∈ ts, u ≠ t → ∀ j : Nat, u.Covers j → j < t.loc.index →
    lineAt text j ≠ lineAt text t.loc.index.toNat

/-- A token that has the mark `m?` for its place in a text. -/
structure MarkedByPlace (text : List Char) (ts : List Token) (t : Token) (m? : Option Marker) :
    Prop where
  marker : ∀ m, m? = some m ↔ t.kind = .hashWord ∧ t.lexeme = m.word ∧ t.FirstOnLine text ts
  /-- A string of several lines hides what follows on its last. -/
  hidden : ∀ u ∈ ts, u.kind = .string → u.loc.line < t.loc.line → u.lastLine = t.loc.line →
    m? = none
  /-- Comments hide nothing, nor does what lies between tokens and comments. -/
  shown : ∀ m, t.kind = .hashWord → t.lexeme = m.word →
    (∀ j : Nat, j < t.loc.index → lineAt text j = lineAt text t.loc.index.toNat →
      CommentAround text ts j ∨ ∀ u ∈ ts, ¬u.Covers j) → m? = some m

end Token

/-- The tokens before a token that is the first on its line end on lines before it. -/
theorem firstOnLine_iff {source : String} (h : tokenize file source = .ok (xs ++ t :: ys)) :
    t.FirstOnLine source.toList (xs ++ t :: ys) ↔ ∀ u ∈ xs, u.lastLine < t.loc.line := by
  obtain ⟨ps, hps, heq⟩ := tokenize_eq h
  obtain ⟨-, hbehind, hbefore⟩ := List.pairwise_append.mp (tokens_apart h)
  have ht : t ∈ xs ++ t :: ys := List.mem_append_right _ List.mem_cons_self
  obtain ⟨hlen, hline⟩ := place_of_tokens h ht
  have hlast (u) (hu : u ∈ xs) : u.lastLine < t.loc.line ↔
      ∀ j, u.Covers j → lineAt source.toList j ≠ lineAt source.toList t.loc.index.toNat := by
    have hbody : u ∈ bodyTokens file ps := by
      rw [← @List.dropLast_concat _ (bodyTokens file ps), ← heq, List.dropLast_append_cons]
      exact List.mem_append_left _ hu
    rw [lastLine_lt_iff hps hbody (hbefore u hu t List.mem_cons_self).1, ← hline]
    simp only [ne_eq, Int.natCast_inj]
  constructor
  · intro hfirst u hu
    have hindex := (hbefore u hu t List.mem_cons_self).2
    refine (hlast u hu).mpr fun j hj => ?_
    have hlt : (j : Int) < t.loc.index := Int.lt_of_lt_of_le hj.2 hindex
    have hne : u ≠ t := by
      rintro rfl
      exact Int.not_lt.mpr hj.1 hlt
    exact hfirst u (List.mem_append_left _ hu) hne j hj hlt
  · intro hxs u hu hne j hj hlt
    rcases List.mem_append.mp hu with hu | hu
    · exact (hlast u hu).mp (hxs u hu) j hj
    · rcases List.mem_cons.mp hu with rfl | hu
      · exact absurd rfl hne
      · have hindex := (List.rel_of_pairwise_cons hbehind hu).2
        have hle := hj.1
        omega

/-- The tokens of a text come in order, and each is marked as its place demands. -/
theorem classify_tokenize (h : tokenize file source = .ok ts) :
    (classify ts).map Prod.fst = ts ∧
      ∀ x ∈ classify ts, x.1.MarkedByPlace source.toList ts x.2 := by
  refine ⟨(Cursor.start ts).map_fst_marked, ?_⟩
  rintro ⟨t, m?⟩ hx
  obtain ⟨xs, ys, rfl, rfl⟩ := mem_classifyFrom hx
  obtain ⟨hlines, hbehind, hbefore⟩ := List.pairwise_append.mp (tokens_apart h)
  have hpos : 0 < t.loc.line := by
    have ht : t ∈ xs ++ t :: ys := List.mem_append_right _ List.mem_cons_self
    rw [← (place_of_tokens h ht).2, lineAt]
    omega
  have hfirst : t.FirstOnLine source.toList (xs ++ t :: ys) ↔ lineBehind 0 xs < t.loc.line := by
    rw [firstOnLine_iff h, lineBehind_lt_iff (hlines.imp And.left) hpos]
  have marker (m) : Cursor.marker? ⟨lineBehind 0 xs, t :: ys⟩ = some m ↔
      t.kind = .hashWord ∧ t.lexeme = m.word ∧ t.FirstOnLine source.toList (xs ++ t :: ys) := by
    rw [Cursor.marker?_cons, hfirst, and_assoc]
  constructor
  case marker => exact marker
  case hidden =>
    intro u hu _ (hlt : u.loc.line < t.loc.line) (heq : u.lastLine = t.loc.line)
    refine Option.eq_none_iff_forall_ne_some.mpr fun m hm => ?_
    have hends := (firstOnLine_iff h).mp ((marker m).mp hm).2.2
    rcases List.mem_append.mp hu with hu | hu
    · exact Int.ne_of_lt (hends u hu) heq
    · rcases List.mem_cons.mp hu with rfl | hu
      · exact Int.lt_irrefl _ hlt
      · have hle := (List.rel_of_pairwise_cons hbehind hu).1
        exact Int.not_lt.mpr (Int.le_trans t.line_le_lastLine hle) hlt
  case shown =>
    intro m hk hw hgap
    refine (marker m).mpr ⟨hk, hw, fun u hu _ j hj hlt heq => ?_⟩
    rcases hgap j hlt heq with hc | hc
    · obtain ⟨a, b, ha, hb, -, -, hts⟩ := hc
      exact hts u hu j ha hb hj
    · exact hc u hu hj

/-- A string hides the word on its last line, and a comment hides nothing. -/
theorem classify_tokenize_hidden :
    ∃ ts, tokenize "f" "\"\n\" #if (*\n*) #end" = .ok ts ∧
      (classify ts).map Prod.snd = [none, none, some .endMarker, none] ∧
      (classify ts).map Prod.fst = ts ∧
      ∀ x ∈ classify ts, x.1.MarkedByPlace "\"\n\" #if (*\n*) #end".toList ts x.2 := by
  have h : tokenize "f" "\"\n\" #if (*\n*) #end" = .ok
      [⟨.string, "\"\n\"", ⟨"f", 0, 1, 1, 3⟩⟩, ⟨.hashWord, "#if", ⟨"f", 4, 2, 3, 3⟩⟩,
        ⟨.hashWord, "#end", ⟨"f", 14, 3, 4, 4⟩⟩, ⟨.eof, "", ⟨"f", 18, 3, 8, 0⟩⟩] := by cbv
  exact ⟨_, h, by decide, classify_tokenize h⟩

end HashIf
