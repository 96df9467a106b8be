import HashIf.Proofs.Layout.Rereading
import HashIf.Proofs.Source.Markers

/-! How a laid-out text holds its tokens: in order, each behind white space, on the line where it
stood. The pen is the place behind the text laid out so far. -/

namespace HashIf

/-! ## Pens and positions -/

namespace Pen

variable {p : Pen} {t : Token}

theorem behind_nil (p : Pen) : p.behind [] = p := by
  simp [behind]

theorem behind_lineFeed (p : Pen) (cs : List Char) :
    p.behind (cs ++ ['\n']) = ⟨p.line + cs.count '\n' + 1, 1⟩ := by
  simp [behind, List.count_append, Int.add_assoc]

theorem behind_snoc (p : Pen) (cs : List Char) (hc : c ≠ '\n') :
    p.behind (cs ++ [c]) = ⟨(p.behind cs).line, (p.behind cs).col + 1⟩ := by
  have hcontains : (cs ++ [c]).contains '\n' = cs.contains '\n' := by simp [hc.symm]
  have hcount : (cs ++ [c]).count '\n' = cs.count '\n' := by simp [List.count_append, hc]
  have hrow : (cs ++ [c]).reverse.takeWhile (· != '\n') =
      c :: cs.reverse.takeWhile (· != '\n') := by
    rw [List.reverse_append, List.reverse_singleton, List.singleton_append,
      List.takeWhile_cons_of_pos (by simpa using hc)]
  rw [behind, behind, hcontains, hcount, hrow]
  split
  · rfl
  · simp [Int.add_assoc]

theorem behind_append (p : Pen) (cs ds : List Char) :
    p.behind (cs ++ ds) = (p.behind cs).behind ds := by
  induction ds using List.reverseRecOn with
  | nil => rw [List.append_nil, behind_nil]
  | append_singleton ds c ih =>
    rw [← List.append_assoc]
    by_cases hc : c = '\n'
    · subst hc
      rw [behind_lineFeed, behind_lineFeed, line_behind, List.count_append]
      simp [Int.add_assoc]
    · rw [behind_snoc _ _ hc, behind_snoc _ _ hc, ih]

theorem toLine_eq (p : Pen) (line : Int) : (p.toLine line).2 = p.behind (p.toLine line).1 := by
  unfold toLine
  split
  · next h =>
    obtain ⟨n, hn⟩ : ∃ n, (line - p.line).toNat = n + 1 := ⟨(line - p.line).toNat - 1, by omega⟩
    rw [hn, List.replicate_succ', behind_lineFeed, List.count_replicate_self, Pen.mk.injEq]
    exact ⟨by omega, rfl⟩
  · exact (behind_nil p).symm

theorem toColumn_eq (p : Pen) (col : Int) : (p.toColumn col).2 = p.behind (p.toColumn col).1 := by
  unfold toColumn
  split
  · next h =>
    have hn : '\n' ∉ List.replicate (col - p.col).toNat ' ' := by simp
    simp [behind, hn]
    omega
  split
  · simp [behind]
  · exact (behind_nil p).symm

/-- The place where a token is laid. -/
def onto (p : Pen) (t : Token) : Pen := ((p.toLine t.loc.line).2.toColumn t.loc.col).2

theorem onto_eq (p : Pen) (t : Token) : p.onto t = p.behind (p.gap t) := by
  rw [onto, toColumn_eq, toLine_eq, ← behind_append, gap, toLine_eq]

theorem after_eq (p : Pen) (t : Token) :
    p.after t = p.behind (p.gap t ++ t.lexeme.toList) := by
  rw [behind_append, ← onto_eq]
  rfl

theorem line_onto (hp : p.line ≤ t.loc.line) : (p.onto t).line = t.loc.line := by
  rw [onto, line_toColumn, line_toLine hp]

end Pen

/-- The pen at a position of a text. -/
def Position.pen (q : Position) : Pen := ⟨q.line, q.col⟩

theorem Position.pen_advance (q : Position) (cs : List Char) :
    (q.advance cs).pen = q.pen.behind cs := by
  induction cs using List.reverseRecOn with
  | nil => exact (Pen.behind_nil _).symm
  | append_singleton cs c ih =>
    rw [advance_append]
    by_cases hc : c = '\n'
    · subst hc
      rw [Pen.behind_lineFeed]
      simp [pen, step, line_advance]
    · rw [Pen.behind_snoc _ _ hc, ← ih]
      simp [pen, step, hc]

/-! ## Settings -/

/-- A token as it is set in a text, behind white space. -/
structure Setting where
  gap : List Char
  token : Token

namespace Setting

def chars (s : Setting) : List Char := s.gap ++ s.token.lexeme.toList

/-- Where the token of `s` begins in a text of settings, those in front of it being given. -/
def place (front : List Setting) (s : Setting) : Position :=
  Position.start.advance (front.flatMap chars ++ s.gap)

/-- The character at `j` is one of the token. -/
def Covers (front : List Setting) (s : Setting) (j : Nat) : Prop :=
  (place front s).index ≤ j ∧ j < (place front s).index + s.token.lexeme.toList.length

end Setting

/-- How tokens are laid out from a pen on. -/
def settings (p : Pen) : List Token → List Setting
  | [] => []
  | t :: ts => ⟨p.gap t, t⟩ :: settings (p.after t) ts

theorem laidFrom_eq (p : Pen) (ts : List Token) :
    laidFrom p ts = (settings p ts).flatMap Setting.chars := by
  induction ts generalizing p with
  | nil => rfl
  | cons t ts ih =>
    rw [laidFrom, settings, List.flatMap_cons, Setting.chars, ih, List.append_assoc]

theorem tokens_settings (p : Pen) (ts : List Token) : (settings p ts).map (·.token) = ts := by
  induction ts generalizing p with
  | nil => rfl
  | cons t ts ih => exact congrArg (t :: ·) (ih _)

/-- The pen behind tokens that have been laid out. -/
def Pen.past (p : Pen) (ts : List Token) : Pen := ts.foldl Pen.after p

theorem past_settings (p : Pen) (ts : List Token) :
    p.past ts = p.behind ((settings p ts).flatMap Setting.chars) := by
  induction ts generalizing p with
  | nil => exact (Pen.behind_nil p).symm
  | cons t ts ih =>
    rw [settings, List.flatMap_cons, Pen.behind_append, Setting.chars, ← Pen.after_eq, ← ih]
    rfl

section
variable {p : Pen} {ts : List Token} {front back : List Setting} {s : Setting}

/-- In front of a token that has been laid out stand those that were laid out before. -/
theorem settings_split (h : settings p ts = front ++ s :: back) :
    ∃ xs ys : List Token, ts = xs ++ s.token :: ys ∧ front = settings p xs ∧
      s.gap = (p.past xs).gap s.token := by
  induction ts generalizing p front with
  | nil => cases front <;> cases h
  | cons t ts ih =>
    cases front with
    | nil =>
      cases h
      exact ⟨[], ts, rfl, rfl, rfl⟩
    | cons f front =>
      obtain ⟨rfl, hrest⟩ := List.cons.inj h
      obtain ⟨xs, ys, rfl, rfl, hg⟩ := ih hrest
      exact ⟨t :: xs, ys, rfl, rfl, hg⟩

theorem pen_place (h : settings .start ts = front ++ s :: back) :
    ∃ xs ys : List Token, ts = xs ++ s.token :: ys ∧ front = settings .start xs ∧
      s.gap = (Pen.start.past xs).gap s.token ∧
      (s.place front).pen = (Pen.start.past xs).onto s.token := by
  obtain ⟨xs, ys, hts, hf, hg⟩ := settings_split h
  refine ⟨xs, ys, hts, hf, hg, ?_⟩
  rw [Setting.place, Position.pen_advance, Pen.behind_append, hf, hg, Pen.onto_eq, past_settings]
  rfl

end

/-! ## Pens behind tokens -/

/-- A token as texts have them: it begins on a line and in a column of a text, it is not empty, and
it does not end in a line feed. -/
structure Token.Stands (t : Token) : Prop where
  line : 1 ≤ t.loc.line
  col : 1 ≤ t.loc.col
  ne_nil : t.lexeme.toList ≠ []
  getLast_ne : t.lexeme.toList.getLast? ≠ some '\n'

theorem Position.one_le_col (cs : List Char) : 1 ≤ (start.advance cs).col := by
  induction cs using List.reverseRecOn with
  | nil => exact Nat.le_refl 1
  | append_singleton cs c ih =>
    rw [advance_append, advance_cons, advance_nil, step]
    split
    · exact Nat.le_refl 1
    · exact Nat.le_succ_of_le ih

theorem stands_of_token {text : List Char} {ps : List Piece} (hps : pieces text = .ok ps)
    (h : t ∈ bodyTokens file ps) : t.Stands := by
  have halone := (standalone_of_token hps h).2
  refine ⟨(line_of_token hps h).1, ?_, halone.ne_nil, halone.getLast_ne⟩
  obtain ⟨front, kind, cs, back, -, -, -, -, rfl⟩ := place_of_token hps h
  exact Int.ofNat_le.mpr (Position.one_le_col front)

namespace Pen

variable {p : Pen}

theorem past_concat (p : Pen) (xs : List Token) (x : Token) :
    p.past (xs ++ [x]) = (p.past xs).after x := List.foldl_append

/-- The pen is never behind the line of a token to come. -/
theorem line_past_le (hp : ∀ t ∈ xs ++ u :: ys, p.line ≤ t.loc.line)
    (hts : (xs ++ u :: ys).Pairwise fun t u => t.lastLine ≤ u.loc.line) :
    (p.past xs).line ≤ u.loc.line := by
  induction xs generalizing p with
  | nil => exact hp u List.mem_cons_self
  | cons x xs ih =>
    obtain ⟨hx, -⟩ := List.forall_mem_cons.mp hp
    obtain ⟨hlater, hts⟩ := List.pairwise_cons.mp hts
    exact ih (line_after hx ▸ hlater) hts

theorem one_le_col_past (hp : 1 ≤ p.col) (hs : ∀ t ∈ xs, t.Stands) :
    1 ≤ (p.past xs).col ∧ (xs ≠ [] → 1 < (p.past xs).col) := by
  induction xs using List.reverseRecOn with
  | nil => exact ⟨hp, fun h => absurd rfl h⟩
  | append_singleton xs x ih =>
    have hx := hs x (by simp)
    have hle := (ih fun t ht => hs t (List.mem_append_left _ ht)).1
    have hlt := col_after hle hx.ne_nil hx.getLast_ne
    rw [past_concat]
    exact ⟨Int.le_of_lt hlt, fun _ => hlt⟩

/-- The white space in front of a token: line feeds, and then spaces. -/
theorem gap_shape (p : Pen) (t : Token) :
    ∃ m n, p.gap t = List.replicate m '\n' ++ List.replicate n ' ' := by
  have hfeeds : ∃ m, (p.toLine t.loc.line).1 = List.replicate m '\n' := by
    rcases toLine_cases with ⟨h, -⟩ | ⟨n, h⟩
    exacts [⟨0, h⟩, ⟨n + 1, h⟩]
  have hspaces : ∃ n, ((p.toLine t.loc.line).2.toColumn t.loc.col).1 = List.replicate n ' ' := by
    rcases toColumn_cases with ⟨h, -⟩ | ⟨n, h⟩
    exacts [⟨0, h⟩, ⟨n + 1, h⟩]
  obtain ⟨m, hm⟩ := hfeeds
  obtain ⟨n, hn⟩ := hspaces
  exact ⟨m, n, by rw [gap, hm, hn]⟩

end Pen

/-! ## Texts and their tokens -/

/-- The text holds the tokens, set as `ss` says. -/
structure Sets (text : List Char) (ts : List Token) (ss : List Setting) : Prop where
  tokens : ss.map (·.token) = ts
  /-- Nothing but the settings is in the text, and the line feed that ends it if there are any. -/
  chars : text = ss.flatMap Setting.chars ++ if ts.isEmpty then [] else ['\n']
  white : ∀ s ∈ ss, ∃ m n, s.gap = List.replicate m '\n' ++ List.replicate n ' '
  apart : ∀ (front : List Setting) (s : Setting) (back : List Setting), ss = front ++ s :: back →
    front ≠ [] → s.gap ≠ []
  line : ∀ (front : List Setting) (s : Setting) (back : List Setting), ss = front ++ s :: back →
    ((s.place front).line : Int) = s.token.loc.line
  /-- A line that is not empty holds a character of a token. -/
  inked : ∀ i c, text[i]? = some c → c ≠ '\n' →
    ∃ (front : List Setting) (s : Setting) (back : List Setting) (j : Nat),
      ss = front ++ s :: back ∧ s.Covers front j ∧ text[j]? ≠ some '\n' ∧
      lineAt text j = lineAt text i

theorem exists_setting (h : i < (ss.flatMap Setting.chars).length) :
    ∃ front s back k, ss = front ++ s :: back ∧ i = (front.flatMap Setting.chars).length + k ∧
      k < s.chars.length := by
  induction ss generalizing i with
  | nil => cases h
  | cons s ss ih =>
    by_cases hi : i < s.chars.length
    · exact ⟨[], s, ss, i, rfl, (Nat.zero_add i).symm, hi⟩
    · rw [List.flatMap_cons, List.length_append] at h
      obtain ⟨front, u, back, k, rfl, hk, hu⟩ := ih (i := i - s.chars.length) (by omega)
      refine ⟨s :: front, u, back, k, rfl, ?_, hu⟩
      rw [List.flatMap_cons, List.length_append]
      omega

/-- The white space in front of a token leads from any place in its last line to the token. -/
theorem lineAt_gap {front more : List Char} {s : Setting}
    (hw : s.gap = List.replicate m '\n' ++ List.replicate n ' ') (hm : m ≤ k)
    (hk : k ≤ s.gap.length) :
    lineAt (front ++ (s.chars ++ more)) (front.length + k) = 1 + front.count '\n' + m := by
  have hlen : k - m ≤ n := by
    rw [hw, List.length_append, List.length_replicate, List.length_replicate] at hk
    omega
  rw [lineAt_append, Setting.chars, List.append_assoc, List.take_append_of_le_length hk, hw,
    List.take_append, List.length_replicate, List.take_of_length_le (by simpa using hm),
    List.take_replicate, List.count_append, List.count_replicate_self, List.count_replicate]
  simp

theorem inked_of_white {last : List Char} (hl : ∀ c ∈ last, c = '\n')
    (hw : ∀ s ∈ ss, ∃ m n, s.gap = List.replicate m '\n' ++ List.replicate n ' ')
    (hs : ∀ s ∈ ss, ∃ c cs, s.token.lexeme.toList = c :: cs ∧ c ≠ '\n') (i : Nat) (c : Char)
    (hi : (ss.flatMap Setting.chars ++ last)[i]? = some c) (hc : c ≠ '\n') :
    ∃ front s back j, ss = front ++ s :: back ∧ s.Covers front j ∧
      (ss.flatMap Setting.chars ++ last)[j]? ≠ some '\n' ∧
      lineAt (ss.flatMap Setting.chars ++ last) j =
        lineAt (ss.flatMap Setting.chars ++ last) i := by
  by_cases hlt : i < (ss.flatMap Setting.chars).length
  rotate_left
  · rw [List.getElem?_append_right (Nat.not_lt.mp hlt)] at hi
    exact absurd (hl c (List.mem_of_getElem? hi)) hc
  obtain ⟨front, s, back, k, rfl, rfl, hk⟩ := exists_setting hlt
  have hm : s ∈ front ++ s :: back := by simp
  have hindex : (s.place front).index = (front.flatMap Setting.chars).length + s.gap.length := by
    rw [Setting.place, Position.index_start, List.length_append]
  obtain ⟨d, ds, hd, hdn⟩ := hs s hm
  by_cases hg : k < s.gap.length
  · -- `c` is a space, and the first character of the token behind it is on the same line.
    obtain ⟨m, n, hgap⟩ := hw s hm
    have htext : (front ++ s :: back).flatMap Setting.chars ++ last =
        front.flatMap Setting.chars ++ (s.chars ++ (back.flatMap Setting.chars ++ last)) := by
      simp
    have hmk : m ≤ k := by
      refine Nat.not_lt.mp fun hkm => hc ?_
      rw [htext, List.getElem?_append_right (Nat.le_add_right ..), Nat.add_sub_cancel_left,
        Setting.chars, List.append_assoc, List.getElem?_append_left hg, hgap,
        List.getElem?_append_left (by simpa using hkm), List.getElem?_replicate_of_lt hkm] at hi
      exact (Option.some.inj hi).symm
    refine ⟨front, s, back, (s.place front).index, rfl, ⟨Nat.le_refl _, ?_⟩, ?_, ?_⟩
    · rw [hd, List.length_cons]
      omega
    · rw [hindex, htext, List.getElem?_append_right (Nat.le_add_right ..), Nat.add_sub_cancel_left,
        Setting.chars, List.append_assoc, List.getElem?_append_right (Nat.le_refl _), Nat.sub_self,
        hd]
      simpa using hdn
    · rw [hindex, htext, lineAt_gap hgap (Nat.le_of_lt (Nat.lt_of_le_of_lt hmk hg)) (Nat.le_refl _),
        lineAt_gap hgap hmk (Nat.le_of_lt hg)]
  · refine ⟨front, s, back, _, rfl, ⟨?_, ?_⟩, ?_, rfl⟩
    · omega
    · rw [Setting.chars, List.length_append] at hk
      omega
    · rw [hi]
      simpa using hc

/-- Tokens by themselves, on one line after another, are set by their layout. -/
theorem sets_layout {e : Token} (he : e.kind = .eof)
    (ha : ∀ t ∈ ts, t.kind ≠ .eof ∧ Standalone t.kind t.lexeme.toList)
    (hs : ∀ t ∈ ts, t.Stands) (hts : ts.Pairwise fun t u => t.lastLine ≤ u.loc.line) :
    Sets (layout (ts ++ [e])).toList ts (settings .start ts) := by
  have htext : (layout (ts ++ [e])).toList =
      (settings .start ts).flatMap Setting.chars ++ if ts.isEmpty then [] else ['\n'] := by
    cases ts with
    | nil => rw [List.nil_append, layout_nil he]; rfl
    | cons t ts =>
      rw [layout_eq (List.cons_ne_nil t ts) (fun u hu => (ha u hu).1) he, laidFrom_eq]
      rfl
  have hwhite : ∀ s ∈ settings .start ts,
      ∃ m n, s.gap = List.replicate m '\n' ++ List.replicate n ' ' := by
    intro s hm
    obtain ⟨front, back, hfb⟩ := List.append_of_mem hm
    obtain ⟨_, _, -, -, hg⟩ := settings_split hfb
    exact hg ▸ Pen.gap_shape _ _
  have hhead : ∀ s ∈ settings .start ts, ∃ c cs, s.token.lexeme.toList = c :: cs ∧ c ≠ '\n' := by
    intro s hm
    have ht : s.token ∈ ts := tokens_settings .start ts ▸ List.mem_map_of_mem hm
    have halone := (ha _ ht).2
    obtain ⟨c, cs, hc⟩ := List.exists_cons_of_ne_nil halone.ne_nil
    rw [hc] at halone
    refine ⟨c, cs, hc, ?_⟩
    rintro rfl
    exact halone.not_isSourceBlank rfl
  refine ⟨tokens_settings .start ts, htext, hwhite, ?_, ?_, ?_⟩
  · intro front s back h hn
    obtain ⟨xs, ys, rfl, rfl, hg⟩ := settings_split h
    have hxs : ∀ t ∈ xs, t.Stands := fun t ht => hs t (List.mem_append_left _ ht)
    have hcol := Pen.one_le_col_past (p := .start) (Int.le_refl 1) hxs
    rw [hg]
    refine Pen.gap_ne_nil (hcol.2 ?_)
    rintro rfl
    exact hn rfl
  · intro front s back h
    obtain ⟨xs, ys, rfl, -, -, hpen⟩ := pen_place h
    have hlines : ∀ t ∈ xs ++ s.token :: ys, 1 ≤ t.loc.line := fun t ht => (hs t ht).line
    rw [← Pen.line_onto (Pen.line_past_le (p := .start) hlines hts), ← hpen]
    rfl
  · rw [htext]
    refine inked_of_white ?_ hwhite hhead
    intro c hc
    split at hc
    · cases hc
    · exact List.mem_singleton.mp hc

/-! ## Surviving tokens -/

theorem preprocess_kept {env : Environment} {source : String}
    (h : preprocess env file source = .ok ts) :
    ∃ ps kept, pieces source.toList = .ok ps ∧ ts = kept ++ [endToken file source.toList] ∧
      kept.Sublist (bodyTokens file ps) := by
  rw [preprocess] at h
  split at h
  · cases h
  next as ha =>
  obtain ⟨ps, hps, rfl⟩ := tokenize_eq ha
  obtain ⟨kept, rfl, hkept⟩ := filterTokens_ending rfl h
  exact ⟨ps, kept, hps, rfl, hkept⟩

/-- The layout of the tokens that survive holds them in order and nothing else but white space, each
on the line where it stood. -/
theorem layout_sets {ts : List Token} {env : Environment} {file source : String}
    (h : preprocess env file source = .ok ts) :
    ∃ (kept : List Token) (e : Token) (ss : List Setting),
      ts = kept ++ [e] ∧ e.kind = .eof ∧ (∀ t ∈ kept, t.kind ≠ .eof) ∧
      Sets (layout ts).toList kept ss := by
  obtain ⟨ps, kept, hps, rfl, hkept⟩ := preprocess_kept h
  have ha : ∀ t ∈ kept, t.kind ≠ .eof ∧ Standalone t.kind t.lexeme.toList :=
    fun t ht => standalone_of_token hps (hkept.subset ht)
  refine ⟨kept, _, _, rfl, rfl, fun t ht => (ha t ht).1, sets_layout rfl ha ?_ ?_⟩
  · exact fun t ht => stands_of_token hps (hkept.subset ht)
  · exact (bodyTokens_lines file ps).sublist hkept

/-- The line of a dropped marker stays as an empty one. -/
theorem layout_sets_dropped :
    let kept := [Token.mk .identifier "a" ⟨"f", 9, 2, 1, 1⟩,
      .mk .string "\"b\n\"" ⟨"f", 11, 2, 3, 4⟩, .mk .identifier "c" ⟨"f", 21, 5, 1, 1⟩]
    let last := Token.mk .eof "" ⟨"f", 22, 5, 2, 0⟩
    preprocess .empty "f" "#if true\na \"b\n\"\n#end\nc" = .ok (kept ++ [last]) ∧
      layout (kept ++ [last]) = "\na \"b\n\"\n\nc\n" ∧
      ∃ ss, Sets (layout (kept ++ [last])).toList kept ss := by
  intro kept last
  have h : preprocess .empty "f" "#if true\na \"b\n\"\n#end\nc" = .ok (kept ++ [last]) := by cbv
  obtain ⟨front, e, ss, hts, -, -, hset⟩ := layout_sets h
  obtain ⟨rfl, -⟩ := List.append_inj' hts rfl
  exact ⟨h, by cbv, ss, hset⟩

end HashIf
