import HashIf.Proofs.Source.Concatenation
import Mathlib

/-! The line that a lexical error quotes. Lines are counted by line feeds, but the line of an error
is looked up among lines that other characters end too. It is the right one as long as each line in
front of it counts as one there, and it is quoted whole if no line end stands inside it. -/

namespace HashIf

/-! ## Lines and line ends -/

theorem linesFrom_append {current cs : List Char} (h : ∀ c ∈ cs, isLineEnd c = false)
    (rest : List Char) :
    linesFrom current (cs ++ rest) = linesFrom (cs.reverse ++ current) rest := by
  induction cs generalizing current with
  | nil => rfl
  | cons c cs ih =>
    obtain ⟨hc, hcs⟩ := List.forall_mem_cons.mp h
    have hr : ∀ ds, c = '\r' → cs ++ rest = '\n' :: ds → False := by
      rintro ds rfl
      cases hc
    rw [List.cons_append, linesFrom, if_neg (by simp [hc]), ih hcs, List.reverse_cons,
      List.append_assoc]
    · rfl
    · exact hr

theorem linesFrom_lineEnd {current cs : List Char} (hc : isLineEnd c = true)
    (hr : c = '\r' → cs.head? ≠ some '\n') :
    linesFrom current (c :: cs) = (c :: current).reverse :: lines cs := by
  rw [linesFrom, if_pos hc, lines]
  rintro ds rfl rfl
  exact hr rfl rfl

/-- A line end ends the first line, unless it is the carriage return in front of a line feed. -/
theorem lines_lineEnd {cs : List Char} (h : ∀ c ∈ cs, isLineEnd c = false) (hc : isLineEnd c = true)
    (hr : c = '\r' → rest.head? ≠ some '\n') :
    lines (cs ++ c :: rest) = (cs ++ [c]) :: lines rest := by
  rw [lines, linesFrom_append h, linesFrom_lineEnd hc hr]
  simp

theorem lines_carriageReturn {cs : List Char} (h : ∀ c ∈ cs, isLineEnd c = false)
    (rest : List Char) :
    lines (cs ++ '\r' :: '\n' :: rest) = (cs ++ ['\r', '\n']) :: lines rest := by
  rw [lines, linesFrom_append h, linesFrom, lines]
  simp

/-- A line is over with a line feed, and the text behind it is divided as by itself. -/
theorem linesFrom_lineFeed (current a b : List Char) :
    linesFrom current (a ++ '\n' :: b) = linesFrom current (a ++ ['\n']) ++ lines b := by
  have feed (current b : List Char) :
      linesFrom current ('\n' :: b) = ('\n' :: current).reverse :: lines b :=
    linesFrom_lineEnd (by decide) nofun
  fun_induction linesFrom current a with
  | case1 current | case2 current =>
    rw [List.nil_append, List.nil_append, feed, feed]
    rfl
  | case3 current cs ih =>
    simp only [List.cons_append, linesFrom, ih]
  | case4 current c cs hcrlf hc ih =>
    by_cases hcr : c = '\r' ∧ cs = []
    · obtain ⟨rfl, rfl⟩ := hcr
      simp only [List.cons_append, List.nil_append, linesFrom, List.isEmpty_nil, if_true]
      rfl
    · have hr (b : List Char) : c = '\r' → (cs ++ '\n' :: b).head? ≠ some '\n' := by
        intro he
        cases cs with
        | nil => exact (hcr ⟨he, rfl⟩).elim
        | cons d cs =>
          rintro ⟨⟩
          exact hcrlf cs he rfl
      rw [List.cons_append, List.cons_append, linesFrom_lineEnd hc (hr b),
        linesFrom_lineEnd hc (hr []), lines, ih]
      rfl
  | case5 current c cs _ hc ih =>
    have hplain : ∀ d ∈ [c], isLineEnd d = false := by simpa using hc
    have step (rest : List Char) : linesFrom current (c :: rest) = linesFrom (c :: current) rest :=
      linesFrom_append hplain rest
    rw [List.cons_append, List.cons_append, step, step, ih]

theorem ne_nil_of_mem_linesFrom {current : List Char} (h : line ∈ linesFrom current cs) :
    line ≠ [] := by
  fun_induction linesFrom current cs with
  | case1 => cases h
  | case2 current he =>
    cases List.mem_singleton.mp h
    simpa using he
  | case3 current cs ih | case4 current c cs _ _ ih =>
    rcases List.mem_cons.mp h with rfl | h
    · simp
    · exact ih h
  | case5 current c cs _ _ ih => exact ih h

/-! ## Lines that count as one -/

/-- No line end stands in the line, except at its end. -/
def Unbroken (line : List Char) : Prop := ∀ c ∈ line.dropLast, isLineEnd c = false

/-- In front of its line feed the line counts as one: only a carriage return may stand there. -/
def CountsOnce (line : List Char) : Prop :=
  Unbroken line ∧ ∀ c ∈ line.getLast?, isLineEnd c = true → c = '\r'

/-- The first line end of a line, if there is one. -/
theorem firstLineEnd (line : List Char) : (∀ c ∈ line, isLineEnd c = false) ∨
    ∃ cs c rest, line = cs ++ c :: rest ∧ (∀ d ∈ cs, isLineEnd d = false) ∧ isLineEnd c = true := by
  cases h : line.find? isLineEnd with
  | none =>
    left
    intro c hc
    simpa using List.find?_eq_none.mp h c hc
  | some c =>
    obtain ⟨hc, cs, rest, rfl, hcs⟩ := List.find?_eq_some_iff_append.mp h
    exact .inr ⟨cs, c, rest, rfl, fun d hd => by simpa using hcs d hd, hc⟩

section

variable {cs rest : List Char} {c : Char}

theorem countsOnce_of_plain (h : ∀ c ∈ cs, isLineEnd c = false) : CountsOnce cs := by
  refine ⟨fun c hc => h c (List.mem_of_mem_dropLast hc), fun c hc he => ?_⟩
  have hplain := h c (List.mem_of_mem_getLast? hc)
  rw [he] at hplain
  cases hplain

variable (h : ∀ d ∈ cs, isLineEnd d = false) (hc : isLineEnd c = true)

include h hc

theorem unbroken_iff : Unbroken (cs ++ c :: rest) ↔ rest = [] := by
  constructor
  · intro hu
    by_contra hr
    rw [Unbroken, List.dropLast_append_of_ne_nil (List.cons_ne_nil _ _),
      List.dropLast_cons_of_ne_nil hr] at hu
    have hplain := hu c (List.mem_append_right _ List.mem_cons_self)
    rw [hc] at hplain
    cases hplain
  · rintro rfl
    rw [Unbroken, List.dropLast_concat]
    exact h

theorem countsOnce_iff : CountsOnce (cs ++ c :: rest) ↔ c = '\r' ∧ rest = [] := by
  rw [CountsOnce, unbroken_iff h hc, and_comm]
  refine and_congr_left fun hr => ?_
  subst hr
  simp [hc]

end

theorem lines_of_countsOnce (h : CountsOnce line) (hl : '\n' ∉ line) (rest : List Char) :
    lines (line ++ '\n' :: rest) = (line ++ ['\n']) :: lines rest := by
  rcases firstLineEnd line with hplain | ⟨cs, c, more, rfl, hcs, hc⟩
  · exact lines_lineEnd hplain (by decide) nofun
  · obtain ⟨rfl, rfl⟩ := (countsOnce_iff hcs hc).mp h
    rw [List.append_assoc, List.append_assoc]
    exact lines_carriageReturn hcs rest

/-- A line that counts more than once is cut behind its first line end. -/
theorem lines_of_not_countsOnce (h : ¬CountsOnce line) (hl : '\n' ∉ line) :
    ∃ cs c more, line = cs ++ c :: more ∧ (∀ d ∈ cs, isLineEnd d = false) ∧ isLineEnd c = true ∧
      ∀ rest, lines (line ++ '\n' :: rest) = (cs ++ [c]) :: lines (more ++ '\n' :: rest) := by
  rcases firstLineEnd line with hplain | ⟨cs, c, more, rfl, hcs, hc⟩
  · exact (h (countsOnce_of_plain hplain)).elim
  refine ⟨cs, c, more, rfl, hcs, hc, fun rest => ?_⟩
  rw [List.append_assoc]
  refine lines_lineEnd hcs hc ?_
  rintro rfl hhead
  cases more with
  | nil => exact h ((countsOnce_iff hcs hc).mpr ⟨rfl, rfl⟩)
  | cons d more =>
    cases hhead
    simp at hl

/-! ## The first line of a text -/

/-- The text without the line feed at its end, if there is one. -/
def withoutLineFeed (cs : List Char) : List Char :=
  if cs.getLast? = some '\n' then cs.dropLast else cs

theorem withoutLineFeed_concat (cs : List Char) : withoutLineFeed (cs ++ ['\n']) = cs := by
  rw [withoutLineFeed, if_pos List.getLast?_concat, List.dropLast_concat]

theorem withoutLineFeed_of_not_mem (h : '\n' ∉ cs) : withoutLineFeed cs = cs := by
  exact if_neg fun hl => h (List.mem_of_mem_getLast? hl)

/-- What is left of a line that is cut behind its first line end is the whole line exactly if
nothing else stands behind. -/
theorem withoutLineFeed_cut {cs more : List Char} (hl : '\n' ∉ cs ++ c :: more)
    (h : ∀ d ∈ cs, isLineEnd d = false) (hc : isLineEnd c = true) :
    withoutLineFeed (cs ++ [c]) = cs ++ c :: more ↔ Unbroken (cs ++ c :: more) := by
  have hcut : '\n' ∉ cs ++ [c] := by
    intro hm
    apply hl
    simp only [List.mem_append, List.mem_cons, List.not_mem_nil, or_false] at hm ⊢
    exact hm.imp_right .inl
  rw [withoutLineFeed_of_not_mem hcut, unbroken_iff h hc, List.append_right_inj,
    List.cons.injEq, and_iff_right rfl, eq_comm]

def firstLine (cs : List Char) : List Char := (lines cs)[0]?.getD []

/-- The first of the lines of a text is the text up to the first line feed exactly if no line end
stands inside that. -/
theorem firstLine_eq_iff (hl : '\n' ∉ line) (ha : after = [] ∨ ∃ rest, after = '\n' :: rest) :
    withoutLineFeed (firstLine (line ++ after)) = line ↔ Unbroken line := by
  rcases ha with rfl | ⟨rest, rfl⟩
  · rw [List.append_nil]
    rcases firstLineEnd line with hplain | ⟨cs, c, more, rfl, hcs, hc⟩
    · have hfirst : firstLine line = line := by
        have hlines : lines (line ++ []) = linesFrom (line.reverse ++ []) [] :=
          linesFrom_append hplain []
        rw [List.append_nil, List.append_nil, linesFrom] at hlines
        rw [firstLine, hlines]
        cases line with
        | nil => rfl
        | cons c cs => simp
      rw [hfirst, withoutLineFeed_of_not_mem hl]
      exact iff_of_true rfl (countsOnce_of_plain hplain).1
    · have hr : c = '\r' → more.head? ≠ some '\n' := by
        rintro - hm
        exact hl (List.mem_append_right _ (List.mem_cons_of_mem _ (List.mem_of_mem_head? hm)))
      rw [firstLine, lines_lineEnd hcs hc hr]
      exact withoutLineFeed_cut hl hcs hc
  · by_cases h : CountsOnce line
    · rw [firstLine, lines_of_countsOnce h hl]
      exact iff_of_true (withoutLineFeed_concat line) h.1
    · obtain ⟨cs, c, more, rfl, hcs, hc, hlines⟩ := lines_of_not_countsOnce h hl
      rw [firstLine, hlines]
      exact withoutLineFeed_cut hl hcs hc

/-! ## The lines in front of a line -/

/-- The text of lines each of which a line feed ends. -/
def ended (front : List (List Char)) : List Char := front.flatMap fun line => line ++ ['\n']

theorem ended_cons (line : List Char) (front : List (List Char)) (rest : List Char) :
    ended (line :: front) ++ rest = line ++ '\n' :: (ended front ++ rest) := by
  simp [ended]

/-- The lines of a text up to its last line feed, as they are looked up. -/
def linesOf (front : List (List Char)) : List (List Char) :=
  front.flatMap fun line => lines (line ++ ['\n'])

theorem linesOf_cons (line : List Char) (front : List (List Char)) :
    linesOf (line :: front) = lines (line ++ ['\n']) ++ linesOf front := List.flatMap_cons

theorem lines_ended (front : List (List Char)) (rest : List Char) :
    lines (ended front ++ rest) = linesOf front ++ lines rest := by
  induction front with
  | nil => rfl
  | cons line front ih =>
    rw [ended_cons, lines, linesFrom_lineFeed, ih, linesOf_cons, List.append_assoc]
    rfl

theorem flatten_linesOf (front : List (List Char)) : (linesOf front).flatten = ended front := by
  have h := flatten_lines (ended front ++ [])
  rw [lines_ended, List.flatten_append, flatten_lines, List.append_nil, List.append_nil] at h
  exact h

theorem infix_of_mem_linesOf (h : line ∈ linesOf front) : line <:+: ended front := by
  obtain ⟨xs, ys, hxs⟩ := List.append_of_mem h
  rw [← flatten_linesOf, hxs, List.flatten_append, List.flatten_cons]
  exact ⟨xs.flatten, ys.flatten, by rw [List.append_assoc]⟩

theorem ne_nil_of_mem_linesOf (h : line ∈ linesOf front) : line ≠ [] := by
  obtain ⟨l, -, hl⟩ := List.mem_flatMap.mp h
  exact ne_nil_of_mem_linesFrom hl

theorem length_linesOf_of_countsOnce (hl : ∀ line ∈ front, '\n' ∉ line)
    (h : ∀ line ∈ front, CountsOnce line) : (linesOf front).length = front.length := by
  induction front with
  | nil => rfl
  | cons line front ih =>
    obtain ⟨hl, hls⟩ := List.forall_mem_cons.mp hl
    obtain ⟨h, hs⟩ := List.forall_mem_cons.mp h
    have hone : lines (line ++ ['\n']) = [line ++ ['\n']] := lines_of_countsOnce h hl []
    rw [linesOf_cons, hone, List.singleton_append, List.length_cons, ih hls hs, List.length_cons]

theorem length_lines_pos (h : cs ≠ []) : 0 < (lines cs).length := by
  rw [List.length_pos_iff]
  intro hn
  apply h
  rw [← flatten_lines cs, hn]
  rfl

theorem length_le_linesOf (front : List (List Char)) : front.length ≤ (linesOf front).length := by
  induction front with
  | nil => exact Nat.le_refl _
  | cons line front ih =>
    have hpos := length_lines_pos (List.concat_ne_nil '\n' line)
    rw [linesOf_cons, List.length_append, List.length_cons]
    omega

/-- A line that counts more than once shifts all lines behind it. -/
theorem length_lt_linesOf (hl : ∀ line ∈ front, '\n' ∉ line)
    (h : ¬∀ line ∈ front, CountsOnce line) : front.length < (linesOf front).length := by
  push Not at h
  obtain ⟨line, hm, hline⟩ := h
  obtain ⟨xs, ys, rfl⟩ := List.append_of_mem hm
  obtain ⟨cs, c, more, -, -, -, hlines⟩ := lines_of_not_countsOnce hline (hl line hm)
  have hpos := length_lines_pos (List.concat_ne_nil '\n' more)
  have hxs := length_le_linesOf xs
  have hys := length_le_linesOf ys
  have happ : linesOf (xs ++ line :: ys) = linesOf xs ++ linesOf (line :: ys) :=
    List.flatMap_append
  simp only [happ, linesOf_cons, hlines, List.length_append, List.length_cons]
  omega

/-! ## The line of an error -/

theorem exists_ended (cs : List Char) :
    ∃ front rest, cs = ended front ++ rest ∧ (∀ line ∈ front, '\n' ∉ line) ∧ '\n' ∉ rest := by
  induction cs with
  | nil => exact ⟨[], [], rfl, nofun, nofun⟩
  | cons c cs ih =>
    obtain ⟨front, rest, rfl, hf, hr⟩ := ih
    by_cases hc : c = '\n'
    · subst hc
      refine ⟨[] :: front, rest, (ended_cons [] front rest).symm, ?_, hr⟩
      exact List.forall_mem_cons.mpr ⟨nofun, hf⟩
    · cases front with
      | nil => exact ⟨[], c :: rest, rfl, nofun, List.not_mem_cons_of_ne_of_not_mem (Ne.symm hc) hr⟩
      | cons line front =>
        obtain ⟨hl, hf⟩ := List.forall_mem_cons.mp hf
        refine ⟨(c :: line) :: front, rest, ?_, List.forall_mem_cons.mpr ⟨?_, hf⟩, hr⟩
        · rw [ended_cons, ended_cons]
          rfl
        · exact List.not_mem_cons_of_ne_of_not_mem (Ne.symm hc) hl

theorem exists_flat (cs : List Char) : ∃ line after, cs = line ++ after ∧ '\n' ∉ line ∧
    (after = [] ∨ ∃ rest, after = '\n' :: rest) := by
  by_cases h : '\n' ∈ cs
  · obtain ⟨line, rest, rfl, hl⟩ := List.eq_append_cons_of_mem h
    exact ⟨line, _, rfl, hl, .inr ⟨rest, rfl⟩⟩
  · exact ⟨cs, [], (List.append_nil cs).symm, h, .inl rfl⟩

theorem splitOn_ended (hl : ∀ line ∈ front, '\n' ∉ line) (rest : List Char) :
    (ended front ++ rest).splitOn '\n' = front ++ rest.splitOn '\n' := by
  induction front with
  | nil => rfl
  | cons line front ih =>
    obtain ⟨hl, hls⟩ := List.forall_mem_cons.mp hl
    rw [ended_cons, List.splitOn_append_cons_self_of_not_mem hl, ih hls, List.cons_append]

theorem Position.advance_flat (h : '\n' ∉ cs) (p : Position) :
    p.advance cs = ⟨p.index + cs.length, p.line, p.col + cs.length⟩ := by
  induction cs generalizing p with
  | nil => rfl
  | cons c cs ih =>
    rw [List.mem_cons, not_or] at h
    obtain ⟨hc, hcs⟩ := h
    rw [advance_cons, ih hcs, step, if_neg (Ne.symm hc), List.length_cons, Position.mk.injEq]
    dsimp only
    omega

theorem Position.advance_ended (hl : ∀ line ∈ front, '\n' ∉ line) :
    start.advance (ended front) = ⟨(ended front).length, front.length + 1, 1⟩ := by
  induction front with
  | nil => rfl
  | cons line front ih =>
    obtain ⟨hl, hls⟩ := List.forall_mem_cons.mp hl
    have happ : ended (line :: front) = line ++ '\n' :: ended front := by simp [ended]
    rw [happ, advance_lineFeed, ih hls, List.count_eq_zero_of_not_mem hl, shift, Position.mk.injEq,
      List.length_append, List.length_cons, List.length_cons]
    dsimp only
    omega

section

variable {front : List (List Char)} (hf : ∀ line ∈ front, '\n' ∉ line)

include hf

/-- If the lines in front count as one each, the line with the next number is the one behind. -/
theorem lineOf_of_countsOnce (h : ∀ line ∈ front, CountsOnce line) (cs : List Char) :
    (LexicalError.lineOf (ended front ++ cs) (front.length + 1)).toList = firstLine cs := by
  rw [LexicalError.lineOf, String.toList_ofList, lines_ended, Nat.add_sub_cancel,
    ← length_linesOf_of_countsOnce hf h, List.getElem?_append_right (Nat.le_refl _), Nat.sub_self,
    firstLine]

/-- If one of the lines in front counts more than once, the line with the next number is one of the
lines that they are divided into. -/
theorem lineOf_of_not_countsOnce (h : ¬∀ line ∈ front, CountsOnce line) (cs : List Char) :
    (LexicalError.lineOf (ended front ++ cs) (front.length + 1)).toList ∈ linesOf front := by
  have hlt := length_lt_linesOf hf h
  rw [LexicalError.lineOf, String.toList_ofList, lines_ended, Nat.add_sub_cancel,
    List.getElem?_append_left hlt, List.getElem?_eq_getElem hlt, Option.getD_some]
  exact List.getElem_mem hlt

theorem splitOn_line (hl : '\n' ∉ line) (ha : after = [] ∨ ∃ rest, after = '\n' :: rest) :
    ∃ back, (ended front ++ (line ++ after)).splitOn '\n' = front ++ line :: back := by
  rw [splitOn_ended hf]
  rcases ha with rfl | ⟨rest, rfl⟩
  · rw [List.append_nil, List.splitOn_eq_singleton hl]
    exact ⟨[], rfl⟩
  · rw [List.splitOn_append_cons_self_of_not_mem hl]
    exact ⟨_, rfl⟩

end

/-- The lines in front of a place of a text, and the line on which it stands. -/
theorem exists_line (text : List Char) (i : Nat) : ∃ front before behind after,
    text = ended front ++ (before ++ behind ++ after) ∧ (∀ line ∈ front, '\n' ∉ line) ∧
      '\n' ∉ before ++ behind ∧ (after = [] ∨ ∃ rest, after = '\n' :: rest) ∧
      Position.start.advance (text.take i) =
        ⟨(ended front).length + before.length, front.length + 1, before.length + 1⟩ := by
  obtain ⟨front, before, hbefore, hf, hb⟩ := exists_ended (text.take i)
  obtain ⟨behind, after, hbehind, hb', ha⟩ := exists_flat (text.drop i)
  refine ⟨front, before, behind, after, ?_, hf, ?_, ha, ?_⟩
  · rw [List.append_assoc, ← hbehind, ← List.append_assoc, ← hbefore, List.take_append_drop]
  · rw [List.mem_append, not_or]
    exact ⟨hb, hb'⟩
  · rw [hbefore, Position.advance_append, Position.advance_ended hf, Position.advance_flat hb,
      Nat.add_comm 1]

/-- A lexical error stands on the line with its number, lines being what line feeds divide the text
into. If each line in front of it counts as one, the line that it quotes is that line exactly if no
line end stands inside it. Otherwise the line that it quotes is taken from the text in front. -/
theorem tokenize_quotes (h : tokenize file source = .error e) :
    ∃ front line back, ∃ n : Nat,
      source.toList.splitOn '\n' = front ++ line :: back ∧ n ≤ line.length ∧
      e.loc = ⟨file, (ended front).length + n, front.length + 1, n + 1, e.loc.length⟩ ∧
      ((∀ l ∈ front, CountsOnce l) →
        (withoutLineFeed e.lineText.toList = line ↔ Unbroken line)) ∧
      ((¬∀ l ∈ front, CountsOnce l) →
        e.lineText.toList ≠ [] ∧ e.lineText.toList <:+: ended front) := by
  obtain ⟨f, rfl⟩ : ∃ f, e = .ofFault file source.toList f := by
    rw [tokenize] at h
    split at h <;> cases h
    exact ⟨_, rfl⟩
  obtain ⟨front, before, behind, after, htext, hf, hl, ha, hposition⟩ :=
    exists_line source.toList f.offset
  obtain ⟨back, hsplit⟩ := splitOn_line hf hl ha
  have hquoted : (LexicalError.ofFault file source.toList f).lineText =
      LexicalError.lineOf (ended front ++ (before ++ behind ++ after)) (front.length + 1) := by
    rw [LexicalError.ofFault, hposition, htext]
  refine ⟨front, before ++ behind, back, before.length, ?_, ?_, ?_, fun hone => ?_, fun hmore => ?_⟩
  · rw [htext, hsplit]
  · rw [List.length_append]
    exact Nat.le_add_right _ _
  · rw [LexicalError.ofFault, hposition]
    rfl
  · rw [hquoted, lineOf_of_countsOnce hf hone]
    exact firstLine_eq_iff hl ha
  · have hm := lineOf_of_not_countsOnce hf hmore (before ++ behind ++ after)
    rw [hquoted]
    exact ⟨ne_nil_of_mem_linesOf hm, infix_of_mem_linesOf hm⟩

/-- A line feed behind a form feed is a line of its own where the line of an error is looked up, so
that it is quoted for the next one. -/
theorem tokenize_quotes_formFeed :
    let source := "\x0c\nlet s = \"oops\n"
    let e : LexicalError := ⟨⟨"<input>", 10, 2, 9, 6⟩, .openString, "\n"⟩
    tokenize "<input>" source = .error e ∧
      source.toList.splitOn '\n' = [['\x0c'], "let s = \"oops".toList, []] ∧
      ¬CountsOnce ['\x0c'] ∧ e.lineText.toList ≠ [] ∧ e.lineText.toList <:+: ended [['\x0c']] := by
  intro source e
  have h : tokenize "<input>" source = .error e := by cbv
  have hsplit : source.toList.splitOn '\n' = [['\x0c'], "let s = \"oops".toList, []] := by cbv
  have hfeed : ¬CountsOnce ['\x0c'] := by
    intro hc
    cases hc.2 '\x0c' rfl (by decide)
  obtain ⟨front, line, back, n, hlines, -, hloc, -, hshifted⟩ := tokenize_quotes h
  -- The error stands on the second line, so one line is in front of it.
  obtain ⟨rfl, -⟩ : front = [['\x0c']] ∧ line :: back = ["let s = \"oops".toList, []] := by
    have hnumber : (2 : Int) = front.length + 1 := congrArg Location.line hloc
    apply List.append_inj (hlines.symm.trans hsplit)
    simp only [List.length_singleton]
    omega
  exact ⟨h, hsplit, hfeed, hshifted fun hone => hfeed (hone _ List.mem_cons_self)⟩

end HashIf
