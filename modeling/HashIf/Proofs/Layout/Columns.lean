import HashIf.Proofs.Layout.Settings

/-! Columns of a laid-out text. A token is laid at its own column where the tokens before it on its
line leave room for it and a space. Otherwise they push it to the right, and it pushes those behind
it. In the text of a source there is room for all if and only if no two neighbours touch. -/

namespace HashIf

/-! ## Where tokens end -/

/-- The place behind a token where it stood. -/
def Token.ending (t : Token) : Pen := Pen.behind ⟨t.loc.line, t.loc.col⟩ t.lexeme.toList

namespace Token

theorem line_ending (t : Token) : t.ending.line = t.lastLine := Pen.line_behind _

/-- A token on a single line ends behind its characters. -/
theorem col_ending {t : Token} (h : '\n' ∉ t.lexeme.toList) :
    t.ending.col = t.loc.col + t.lexeme.toList.length := by
  simp [ending, Pen.behind, h]

theorem mem_lineFeed_iff (t : Token) : '\n' ∈ t.lexeme.toList ↔ t.loc.line < t.lastLine := by
  rw [← List.count_pos_iff, lastLine]
  omega

end Token

namespace Pen

variable {p : Pen} {t : Token}

/-- A token is laid at its own column, or behind a space if it does not fit there. -/
theorem col_onto_le_iff (hp : p.line ≤ t.loc.line) (hc : 1 ≤ t.loc.col) (hpc : 1 ≤ p.col) :
    (p.onto t).col ≤ x ↔
      t.loc.col ≤ x ∧ (p.line = t.loc.line → 1 < p.col → p.col + 1 ≤ x) := by
  have hcol (q : Pen) : (q.toColumn t.loc.col).2.col =
      if q.col < t.loc.col then t.loc.col else if 1 < q.col then q.col + 1 else q.col := by
    unfold toColumn
    split
    · rfl
    split <;> rfl
  rw [onto, hcol]
  by_cases hl : p.line < t.loc.line
  · have hq : (p.toLine t.loc.line).2.col = 1 := by rw [toLine, if_pos hl]
    rw [hq]
    split <;> omega
  · have hq : (p.toLine t.loc.line).2.col = p.col := by rw [toLine, if_neg hl]
    rw [hq]
    split
    · omega
    split <;> omega

theorem col_after_ending (h : '\n' ∈ t.lexeme.toList) : (p.after t).col = t.ending.col := by
  simp [after, Token.ending, behind, h]

theorem col_after_onto (h : '\n' ∉ t.lexeme.toList) :
    (p.after t).col = (p.onto t).col + t.lexeme.toList.length := by
  simp [after, onto, behind, h]

end Pen

/-! ## Room -/

/-- The columns that tokens take, each with a space behind it. -/
def width (ts : List Token) : Nat := (ts.map fun t => t.lexeme.toList.length + 1).sum

/-- Each of the tokens that ends on a line, and those behind it, each with a space, end in front of
the column `x`. -/
def RoomUpTo (x line : Int) (ts : List Token) : Prop :=
  ∀ t bs, t :: bs <:+ ts → t.lastLine = line → t.ending.col + 1 + width bs ≤ x

theorem suffix_concat_cons_iff {t v : α} {bs init : List α} :
    t :: bs <:+ init ++ [v] ↔ bs = [] ∧ t = v ∨ ∃ ds, bs = ds ++ [v] ∧ t :: ds <:+ init := by
  constructor
  · rintro ⟨as, h⟩
    rcases List.eq_nil_or_concat bs with rfl | ⟨ds, w, rfl⟩
    · exact .inl ⟨rfl, (List.append_inj' h rfl).2 |> List.singleton_inj.mp⟩
    · rw [List.concat_eq_append] at h ⊢
      rw [← List.cons_append, ← List.append_assoc] at h
      obtain ⟨h, hw⟩ := List.append_inj' h rfl
      exact .inr ⟨ds, by rw [List.singleton_inj.mp hw], as, h⟩
  · rintro (⟨rfl, rfl⟩ | ⟨ds, rfl, as, rfl⟩)
    · exact List.suffix_append init [t]
    · exact ⟨as, by simp⟩

theorem width_concat (ts : List Token) (v : Token) :
    width (ts ++ [v]) = width ts + (v.lexeme.toList.length + 1) := by
  simp [width]

theorem roomUpTo_of_lt {xs : List Token} (h : ∀ t ∈ xs, t.lastLine < line) :
    RoomUpTo x line xs :=
  fun t _ hs hl => absurd hl (Int.ne_of_lt (h t (hs.subset List.mem_cons_self)))

theorem roomUpTo_concat {x line : Int} {xs : List Token} {v : Token} :
    RoomUpTo x line (xs ++ [v]) ↔ (v.lastLine = line → v.ending.col + 1 ≤ x) ∧
      RoomUpTo (x - (v.lexeme.toList.length + 1)) line xs := by
  constructor
  · refine fun h => ⟨fun hl => ?_, fun t bs hs hl => ?_⟩
    · have hv := h v [] (List.suffix_append xs [v]) hl
      simpa [width] using hv
    · have ht := h t (bs ++ [v]) (suffix_concat_cons_iff.mpr (.inr ⟨bs, rfl, hs⟩)) hl
      rw [width_concat] at ht
      omega
  · rintro ⟨hv, hxs⟩ t bs hs hl
    rcases suffix_concat_cons_iff.mp hs with ⟨rfl, rfl⟩ | ⟨ds, rfl, hds⟩
    · simpa [width] using hv hl
    · have ht := hxs t ds hds hl
      rw [width_concat]
      omega

/-- How far the pen is behind tokens on the line of the next one. -/
theorem col_past_lt_iff {u : Token} {xs : List Token} (hs : ∀ t ∈ xs, t.Stands)
    (hts : (xs ++ [u]).Pairwise fun t u => t.lastLine ≤ u.loc.line) :
    ((Pen.start.past xs).line = u.loc.line → 1 < (Pen.start.past xs).col →
      (Pen.start.past xs).col + 1 ≤ x) ↔ RoomUpTo x u.loc.line xs := by
  induction xs using List.reverseRecOn generalizing u x with
  | nil =>
    refine ⟨fun _ t bs h => ?_, fun _ _ h => absurd h (Int.lt_irrefl 1)⟩
    cases List.suffix_nil.mp h
  | append_singleton xs v ih =>
    obtain ⟨hxv, -, hvu⟩ := List.pairwise_append.mp hts
    have hvu : v.lastLine ≤ u.loc.line := hvu v (by simp) u (by simp)
    have hv := hs v (by simp)
    have hxs : ∀ t ∈ xs, t.Stands := fun t ht => hs t (List.mem_append_left _ ht)
    have htv : ∀ t ∈ xs, t.lastLine ≤ v.loc.line := fun t ht =>
      (List.pairwise_append.mp hxv).2.2 t ht v (by simp)
    have hline : (Pen.start.past xs).line ≤ v.loc.line :=
      Pen.line_past_le (p := .start) (fun t ht => (hs t ht).line) hxv
    have hcol : 1 ≤ (Pen.start.past xs).col :=
      (Pen.one_le_col_past (Int.le_refl 1) hxs).1
    have hlt := Pen.col_after hcol hv.ne_nil hv.getLast_ne
    have hle := v.line_le_lastLine
    rw [roomUpTo_concat, Pen.past_concat, Pen.line_after hline]
    have behind (hn : ∀ t ∈ xs, t.lastLine < u.loc.line) :
        RoomUpTo (x - (v.lexeme.toList.length + 1)) u.loc.line xs := roomUpTo_of_lt hn
    by_cases hvl : v.lastLine = u.loc.line
    rotate_left
    · have hlater : ∀ t ∈ xs, t.lastLine < u.loc.line := fun t ht => by
        have := htv t ht
        omega
      exact ⟨fun _ => ⟨fun h => absurd h hvl, behind hlater⟩, fun _ h => absurd h hvl⟩
    by_cases hn : '\n' ∈ v.lexeme.toList
    · -- What stands on the line where `v` begins is on an earlier one than `u`.
      have hlater : ∀ t ∈ xs, t.lastLine < u.loc.line := fun t ht =>
        hvl ▸ Int.lt_of_le_of_lt (htv t ht) (v.mem_lineFeed_iff.mp hn)
      rw [Pen.col_after_ending hn] at hlt ⊢
      exact ⟨fun h => ⟨fun hl => h hl hlt, behind hlater⟩, fun h hl _ => h.1 hl⟩
    · have hvline : v.loc.line = u.loc.line := by
        have := mt v.mem_lineFeed_iff.mpr hn
        omega
      have hlaid := Pen.col_onto_le_iff (x := x - (v.lexeme.toList.length + 1)) hline hv.col hcol
      rw [ih hxs hxv, hvline] at hlaid
      rw [Pen.col_after_onto hn] at hlt ⊢
      rw [Token.col_ending hn]
      constructor
      · intro h
        have hx := h hvl hlt
        obtain ⟨hvx, hroom⟩ := hlaid.mp (by omega)
        exact ⟨fun _ => by omega, hroom⟩
      · rintro ⟨hvx, hroom⟩ hl -
        have := hlaid.mpr ⟨by have := hvx hl; omega, hroom⟩
        omega

/-! ## Neighbours in a source -/

theorem placesFrom_follow (p : Position) (ps : List Piece) : (placesFrom p ps).Pairwise
    fun x y => ∃ between, y.1 = (x.1.advance x.2.chars).advance between := by
  induction ps generalizing p with
  | nil => exact .nil
  | cons piece ps ih =>
    refine .cons (fun ⟨q, other⟩ h => ?_) (ih _)
    obtain ⟨-, front, back, -, rfl⟩ := of_mem_placesFrom h
    exact ⟨front, rfl⟩

/-- In a text there is a column between two tokens of a line unless they touch. -/
theorem bodyTokens_spaced (file : String) (ps : List Piece) : (bodyTokens file ps).Pairwise
    fun t u => (t.lastLine = u.loc.line → t.ending.col < u.loc.col) ↔
      t.loc.index + t.loc.length ≠ u.loc.index := by
  refine (placesFrom_follow .start ps).filterMap _ fun x y hxy t ht u hu => ?_
  obtain ⟨p, piece⟩ := x
  obtain ⟨q, other⟩ := y
  obtain ⟨between, rfl⟩ := hxy
  cases piece with
  | blank | comment => cases ht
  | token kind cs =>
  cases other with
  | blank | comment => cases hu
  | token kind' ds =>
  cases ht
  cases hu
  have hend : Token.ending ⟨kind, String.ofList cs, .ofPosition file p cs.length⟩ =
      (p.advance cs).pen := by
    rw [Token.ending, String.toList_ofList]
    exact (p.pen_advance cs).symm
  have hlast := Token.line_ending ⟨kind, String.ofList cs, .ofPosition file p cs.length⟩
  have hu := (p.advance cs).pen_advance between
  rw [hend] at hlast ⊢
  rw [← hlast]
  show ((p.advance cs).pen.line = ((p.advance cs).advance between).pen.line →
      (p.advance cs).pen.col < ((p.advance cs).advance between).pen.col) ↔
    (p.index : Int) + cs.length ≠ ((p.advance cs).advance between).index
  rw [hu, Position.index_advance, Position.index_advance]
  generalize (p.advance cs).pen = r
  cases between with
  | nil =>
    rw [Pen.behind_nil]
    simp
  | cons c between =>
    refine ⟨fun _ => ?_, fun _ hl => ?_⟩
    · rw [List.length_cons]
      omega
    · have hn : '\n' ∉ c :: between := by
        rw [Pen.line_behind] at hl
        rw [← List.count_eq_zero]
        omega
      simp [Pen.behind, hn]

/-! ## Columns -/

/-- No token touches the next one. -/
def Apart (ts : List Token) : Prop :=
  ∀ (xs : List Token) (t u : Token) (ys : List Token), ts = xs ++ t :: u :: ys →
    t.loc.index + t.loc.length ≠ u.loc.index

theorem roomUpTo_all_iff {ts : List Token}
    (hts : ts.Pairwise fun t u => t.lastLine ≤ u.loc.line) :
    (∀ (xs : List Token) (u : Token) (ys : List Token), ts = xs ++ u :: ys →
        RoomUpTo u.loc.col u.loc.line xs) ↔
      ∀ (xs : List Token) (t u : Token) (ys : List Token), ts = xs ++ t :: u :: ys →
        t.lastLine = u.loc.line → t.ending.col < u.loc.col := by
  constructor
  · rintro h xs t u ys rfl hl
    have ht := h (xs ++ [t]) u ys (by simp) t [] (List.suffix_append xs [t]) hl
    simpa [width] using ht
  · rintro h xs u ys hxs t bs ⟨as, rfl⟩ hl
    rw [List.append_assoc, List.cons_append] at hxs
    induction bs generalizing as t with
    | nil =>
      have ht := h as t u ys hxs hl
      simpa [width] using ht
    | cons b bs ih =>
      rw [List.cons_append] at hxs
      have hb := ih b (as ++ [t]) (by rw [hxs, List.append_assoc]; rfl)
      -- `b` stands between `t` and `u`, so on a single line.
      have hsub : [t, b, u].Sublist ts := by
        rw [hxs]
        refine .trans (.cons_cons t (.cons_cons b ?_)) (List.sublist_append_right as _)
        exact .trans (.cons_cons u (List.nil_sublist ys)) (List.sublist_append_right bs _)
      have hlines := hts.sublist hsub
      simp only [List.pairwise_cons, List.mem_cons, List.not_mem_nil, or_false,
        forall_eq_or_imp, forall_eq] at hlines
      obtain ⟨⟨htb, -⟩, hbu, -⟩ := hlines
      have hle := b.line_le_lastLine
      have hbl : b.lastLine = u.loc.line := by omega
      have hn : '\n' ∉ b.lexeme.toList := by
        rw [b.mem_lineFeed_iff]
        omega
      have htb' := h as t b (bs ++ u :: ys) hxs (by omega)
      have hroom := hb hbl
      rw [Token.col_ending hn] at hroom
      simp only [width, List.map_cons, List.sum_cons] at hroom ⊢
      omega

theorem forall_split_map {f : α → β} {P : List β → β → Prop} {as : List α} :
    (∀ front a back, as = front ++ a :: back → P (front.map f) (f a)) ↔
      ∀ xs x ys, as.map f = xs ++ x :: ys → P xs x := by
  constructor
  · intro h xs x ys hm
    obtain ⟨front, rest, rfl, rfl, hr⟩ := List.map_eq_append_iff.mp hm
    obtain ⟨a, back, rfl, rfl, -⟩ := List.map_eq_cons_iff.mp hr
    exact h front a back rfl
  · rintro h front a back rfl
    exact h _ _ (back.map f) (by simp)

/-- A token is laid at its own column or to the right of it, and at its own if and only if there is
room for it. -/
theorem col_place {ts : List Token} {front back : List Setting} {s : Setting}
    (hs : ∀ t ∈ ts, t.Stands)
    (hts : ts.Pairwise fun t u => t.lastLine ≤ u.loc.line)
    (h : settings .start ts = front ++ s :: back) :
    s.token.loc.col ≤ (s.place front).col ∧ (((s.place front).col : Int) = s.token.loc.col ↔
      RoomUpTo s.token.loc.col s.token.loc.line (front.map (·.token))) := by
  obtain ⟨xs, ys, rfl, rfl, -, hpen⟩ := pen_place h
  have hxs : ∀ t ∈ xs, t.Stands := fun t ht => hs t (List.mem_append_left _ ht)
  have hline : (Pen.start.past xs).line ≤ s.token.loc.line :=
    Pen.line_past_le (p := .start) (fun t ht => (hs t ht).line) hts
  have hcol : 1 ≤ (Pen.start.past xs).col :=
    (Pen.one_le_col_past (Int.le_refl 1) hxs).1
  have hplace : ((s.place (settings .start xs)).col : Int) =
      ((Pen.start.past xs).onto s.token).col := congrArg Pen.col hpen
  have hle (x : Int) := Pen.col_onto_le_iff (x := x) hline (hs s.token (by simp)).col hcol
  have hroom := hle s.token.loc.col
  rw [col_past_lt_iff hxs (hts.sublist (by simp))] at hroom
  rw [hplace, tokens_settings]
  have hge := ((hle _).mp (Int.le_refl _)).1
  refine ⟨hge, fun he => (hroom.mp (Int.le_of_eq he)).2, fun h => ?_⟩
  exact Int.le_antisymm (hroom.mpr ⟨Int.le_refl _, h⟩) hge

/-- In the layout of the tokens that survive no token stands to the left of its column, and one
stands at it if and only if there is room. All do if and only if no token touches the next one. -/
theorem layout_columns {ts : List Token} {env : Environment} {file source : String}
    (h : preprocess env file source = .ok ts) :
    ∃ (kept : List Token) (e : Token) (ss : List Setting),
      ts = kept ++ [e] ∧ e.kind = .eof ∧ Sets (layout ts).toList kept ss ∧
      (∀ (front : List Setting) (s : Setting) (back : List Setting), ss = front ++ s :: back →
        s.token.loc.col ≤ (s.place front).col ∧
          (((s.place front).col : Int) = s.token.loc.col ↔
            RoomUpTo s.token.loc.col s.token.loc.line (front.map (·.token)))) ∧
      ((∀ (front : List Setting) (s : Setting) (back : List Setting), ss = front ++ s :: back →
        ((s.place front).col : Int) = s.token.loc.col) ↔ Apart kept) := by
  obtain ⟨ps, kept, hps, rfl, hkept⟩ := preprocess_kept h
  have hs : ∀ t ∈ kept, t.Stands := fun t ht => stands_of_token hps (hkept.subset ht)
  have halone : ∀ t ∈ kept, t.kind ≠ .eof ∧ Standalone t.kind t.lexeme.toList :=
    fun t ht => standalone_of_token hps (hkept.subset ht)
  have hts := (bodyTokens_lines file ps).sublist hkept
  have hcols (front s back) (hss : settings .start kept = front ++ s :: back) :=
    col_place hs hts hss
  refine ⟨kept, _, _, rfl, rfl, sets_layout rfl halone hs hts, hcols, ?_⟩
  have hspaced := (bodyTokens_spaced file ps).sublist hkept
  calc
    _ ↔ ∀ front s back, settings .start kept = front ++ s :: back →
          RoomUpTo s.token.loc.col s.token.loc.line (front.map (·.token)) :=
      forall_congr' fun front => forall_congr' fun s => forall_congr' fun back =>
        forall_congr' fun hss => (hcols front s back hss).2
    _ ↔ ∀ xs u ys, kept = xs ++ u :: ys → RoomUpTo u.loc.col u.loc.line xs := by
      conv => rhs; rw [← tokens_settings .start kept]
      exact forall_split_map (P := fun xs u => RoomUpTo u.loc.col u.loc.line xs)
    _ ↔ _ := roomUpTo_all_iff hts
    _ ↔ Apart kept :=
      forall_congr' fun xs => forall_congr' fun t => forall_congr' fun u => forall_congr' fun ys =>
        forall_congr' fun hk => by
          rw [hk] at hspaced
          exact (List.pairwise_append.mp hspaced).2.1.rel_head_tail (by simp)

/-- A name that touches a parenthesis pushes it off its column. -/
theorem layout_columns_touching :
    let kept := [Token.mk .identifier "f" ⟨"f", 0, 1, 1, 1⟩,
      .mk (.symbol "(") "(" ⟨"f", 1, 1, 2, 1⟩, .mk .identifier "x" ⟨"f", 2, 1, 3, 1⟩,
      .mk (.symbol ")") ")" ⟨"f", 3, 1, 4, 1⟩]
    let last := Token.mk .eof "" ⟨"f", 4, 1, 5, 0⟩
    preprocess .empty "f" "f(x)" = .ok (kept ++ [last]) ∧
      layout (kept ++ [last]) = "f ( x )\n" ∧
      ∃ ss, Sets (layout (kept ++ [last])).toList kept ss ∧
        ¬∀ (front : List Setting) (s : Setting) (back : List Setting), ss = front ++ s :: back →
          ((s.place front).col : Int) = s.token.loc.col := by
  intro kept last
  have h : preprocess .empty "f" "f(x)" = .ok (kept ++ [last]) := by cbv
  obtain ⟨front, e, ss, hts, -, hset, -, hall⟩ := layout_columns h
  obtain ⟨rfl, -⟩ := List.append_inj' hts rfl
  refine ⟨h, by cbv, ss, hset, fun hcols => ?_⟩
  exact hall.mp hcols [] _ _ _ rfl rfl

end HashIf
