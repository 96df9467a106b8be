import HashIf.Proofs.Condition.Judgement
import HashIf.Proofs.Filter.HeaderExtent
import Mathlib

/-! Which headers are accepted: a header is read exactly if the grammar derives it, and otherwise
reading fails at the first token with which no header goes on. -/

namespace HashIf

namespace Header

open Parsed (Gives)

/-! ## Whole headers -/

variable {stop : Token} {ts : List Token} {cond : Condition}

theorem viable_conditionForm : Viable ConditionForm [] :=
  .one 0 .identifier "x" nofun (by decide) fun _ =>
    ⟨_, .conjunction (.predicate (.alone (.name rfl)))⟩

theorem condition_nil :
    (condition stop []).result = .error (.diagnostic (.header stop .operand)) := by
  rw [condition, conjunction, predicate]
  rfl

theorem ne_nil_of_conditionForm (h : ConditionForm ts cond) : ts ≠ [] := by
  rintro rfl
  have hr : (condition (Token.filling 0 0 .eof "") []).Gives cond [] :=
    condition_of_form h .nil (conditionTail_of_notNext .nil)
  cases condition_nil.symm.trans hr.1

section

variable {directive t : Token} {rest : List Token}

theorem parse_of_error (hn : ts ≠ []) (h : (condition stop ts).result = .error f) :
    (parse stop directive ts).result = .error f := by
  rw [parse, if_neg (by simpa using hn)]
  exact Parsed.error_andThen h

theorem parse_of_whole (hn : ts ≠ []) (h : (condition stop ts).Gives cond []) :
    (parse stop directive ts).Gives cond [] := by
  rw [parse, if_neg (by simpa using hn)]
  exact h.andThen fun _ => ⟨rfl, rfl⟩

theorem parse_of_then (h : (condition stop (ts ++ t :: rest)).Gives cond (t :: rest))
    (ht : t.kind = .thenWord) : (parse stop directive (ts ++ t :: rest)).Gives cond rest := by
  rw [parse, if_neg (by simp)]
  refine h.andThen fun _ => ?_
  simp only [if_pos ht]
  exact ⟨rfl, rfl⟩

theorem parse_of_other (h : (condition stop (ts ++ t :: rest)).Gives cond (t :: rest))
    (ht : t.kind ≠ .thenWord) : (parse stop directive (ts ++ t :: rest)).result =
      .error (.diagnostic (.header t .thenWord)) := by
  rw [parse, if_neg (by simp)]
  refine h.andThen_error fun _ => ?_
  simp only [if_neg ht]
  rfl

end

/-- Every header of the grammar is read, and its condition is given. -/
theorem parse_of_form {directive : Token} (h : HeaderForm ts cond n) :
    (parse stop directive ts).Gives cond (ts.drop n) := by
  cases h with
  | whole h =>
    have hr : (condition stop (ts ++ [])).Gives cond [] :=
      condition_of_form h .nil (conditionTail_of_notNext .nil)
    rw [List.append_nil] at hr
    rw [List.drop_length]
    exact parse_of_whole (ne_nil_of_conditionForm h) hr
  | @upToThen us _ t more h ht =>
    have hn (kinds : List Kind) (hk : Kind.thenWord ∉ kinds) : NotNext kinds (t :: more) :=
      .cons (ht ▸ hk)
    have hr : (condition stop (us ++ t :: more)).Gives cond (t :: more) :=
      condition_of_form h (hn _ (by decide)) (conditionTail_of_notNext (hn _ (by decide)))
    have hd : (us ++ t :: more).drop (us.length + 1) = more := by simp
    rw [hd]
    exact parse_of_then hr ht

/-- A header that is not of the grammar gets reading stuck, in front of the same token whatever
stands behind it. -/
theorem parse_judged (ts : List Token) :
    (∃ cond n, HeaderForm ts cond n) ∨
      ∃ used left, ts = used ++ left ∧ Viable ConditionForm used ∧
        ∀ stop directive left', left'.head? = left.head? →
          ∃ f, (parse stop directive (used ++ left')).result = .error f ∧
            Blames (peek stop left') f := by
  by_cases hn : ts = []
  · subst hn
    refine .inr ⟨[], [], rfl, viable_conditionForm, fun stop directive left' hl => ?_⟩
    obtain rfl := List.head?_eq_none_iff.mp hl
    exact ⟨_, rfl, .demand⟩
  cases condition_judged ts with
  | stuck used h hv refused =>
    refine .inr ⟨used, _, h, hv, fun stop directive left' hl => ?_⟩
    have hne : used ++ left' ≠ [] := by
      intro he
      have hh : (used ++ left').head? = (used ++ _).head? := head?_append_congr hl
      rw [← h, he] at hh
      exact hn (List.head?_eq_none_iff.mp hh.symm)
    obtain ⟨f, hf, hb⟩ := refused stop left' hl
    exact ⟨f, parse_of_error hne hf, hb⟩
  | @read cond used rest h hf steady =>
    cases rest with
    | nil =>
      obtain rfl : ts = used := h.trans (List.append_nil used)
      exact .inl ⟨cond, _, .whole hf⟩
    | cons t rest =>
      by_cases ht : t.kind = .thenWord
      · subst h
        exact .inl ⟨cond, _, .upToThen hf ht⟩
      refine .inr ⟨used, _, h, viable_of_form hf, fun stop directive left' hl => ?_⟩
      obtain ⟨us, rfl⟩ := cons_of_head? hl
      exact ⟨_, parse_of_other (steady stop _ hl) ht, .demand⟩

end Header

/-! ## Headers behind a line -/

variable {t : Token} {cond cond' : Condition}

theorem headerTokens_cons_iff {l : Int} : headerTokens l (t :: ts) = t :: ts ↔
    ¬(t.kind = .eof ∨ l < t.loc.line) ∧ headerTokens t.lastLine ts = ts := by
  rw [headerTokens]
  by_cases h : t.kind = .eof ∨ l < t.loc.line
  · simp [h]
  · simp [h]

theorem headerTokens_append_iff {l : Int} {xs ys : List Token} :
    headerTokens l (xs ++ ys) = xs ++ ys ↔
      headerTokens l xs = xs ∧ headerTokens (lineBehind l xs) ys = ys := by
  induction xs generalizing l with
  | nil => simp [headerTokens]
  | cons x xs ih =>
    rw [List.cons_append, headerTokens_cons_iff, headerTokens_cons_iff, ih, lineBehind_cons,
      and_assoc]

theorem headerTokens_headerTokens (l : Int) (ts : List Token) :
    headerTokens l (headerTokens l ts) = headerTokens l ts := by
  induction ts generalizing l with
  | nil => rfl
  | cons t ts ih =>
    by_cases h : t.kind = .eof ∨ l < t.loc.line
    · rw [headerTokens, if_pos h, headerTokens]
    · rw [headerTokens, if_neg h]
      exact headerTokens_cons_iff.mpr ⟨h, ih t.lastLine⟩

theorem Token.StaysOn.lastLine_eq {line : Int} (h : t.StaysOn line) : t.lastLine = line := by
  rw [Token.lastLine, List.count_eq_zero_of_not_mem h.flat, h.line]
  omega

theorem headerTokens_of_staysOn {line : Int} (h : ∀ t ∈ ts, t.StaysOn line) :
    headerTokens line ts = ts := by
  induction ts with
  | nil => rfl
  | cons t ts ih =>
    have ht : t.StaysOn line := h t List.mem_cons_self
    refine headerTokens_cons_iff.mpr ⟨?_, ?_⟩
    · rw [ht.line]
      simp [ht.kind]
    · rw [ht.lastLine_eq]
      exact ih fun u hu => h u (List.mem_cons_of_mem t hu)

/-- The tokens behind a line are the beginning of a header that the grammar derives. -/
def HeaderForm.Begins (l : Int) (ts : List Token) : Prop :=
  ∃ more cond n, headerTokens l (ts ++ more) = ts ++ more ∧ HeaderForm (ts ++ more) cond n

theorem HeaderForm.begins_of_viable {l : Int} (h : headerTokens l ts = ts)
    (hv : Viable ConditionForm ts) : HeaderForm.Begins l ts := by
  obtain ⟨more, cond, hm, hc⟩ := hv (lineBehind l ts)
  exact ⟨more, cond, _, headerTokens_append_iff.mpr ⟨h, headerTokens_of_staysOn hm⟩, .whole hc⟩

theorem HeaderForm.le_length (h : HeaderForm ts cond n) : n ≤ ts.length := by
  cases h with
  | whole => exact Nat.le_refl _
  | upToThen => simp

theorem ConditionForm.unique (h : ConditionForm ts cond) (h' : ConditionForm ts cond') :
    cond = cond' := by
  have reads {cond : Condition} (h : ConditionForm ts cond) :
      (Header.condition (Token.filling 0 0 .eof "") (ts ++ [])).Gives cond [] :=
    Header.condition_of_form h .nil (Header.conditionTail_of_notNext .nil)
  exact Except.ok.inj ((reads h).1.symm.trans (reads h').1)

theorem Cursor.condition_of_form {c : Cursor} {directive : Token}
    (h : HeaderForm (headerTokens c.lastLine c.unread) cond n) :
    c.condition directive = (.ok cond, n) := by
  have hr : (Header.parse (Header.ofCursor directive c).stop directive
      (headerTokens c.lastLine c.unread)).Gives cond _ := Header.parse_of_form h
  have hn := h.le_length
  refine Prod.ext hr.1 ?_
  have he : (c.condition directive).2 = (headerTokens c.lastLine c.unread).length -
      ((headerTokens c.lastLine c.unread).drop n).length := by
    rw [← hr.2]
    rfl
  rw [he, List.length_drop]
  show _ - (_ - n) = n
  omega

/-- Reading the header behind a directive gives a condition that the grammar derives, or fails at
the first token with which no header of the grammar goes on. -/
theorem Cursor.condition_cases (c : Cursor) (directive : Token) :
    let h := Header.ofCursor directive c
    (∃ cond n, c.condition directive = (.ok cond, n) ∧ HeaderForm h.tokens cond n) ∨
      ∃ used left f n, c.condition directive = (.error f, n) ∧ h.tokens = used ++ left ∧
        HeaderForm.Begins c.lastLine used ∧
        (∀ more, more.head? = left.head? → ∀ cond n, ¬HeaderForm (used ++ more) cond n) ∧
        Blames (left.headD h.stop) f := by
  intro h
  rcases Header.parse_judged h.tokens with ⟨cond, n, hc⟩ | ⟨used, left, ht, hv, refused⟩
  · exact .inl ⟨cond, n, condition_of_form hc, hc⟩
  obtain ⟨f, hf, hb⟩ := refused h.stop directive left rfl
  rw [← ht] at hf
  refine .inr ⟨used, left, f, _, Prod.ext hf rfl, ht, ?_, fun more hm cond n hc => ?_, hb⟩
  · have hh := headerTokens_headerTokens c.lastLine c.unread
    rw [show headerTokens c.lastLine c.unread = used ++ left from ht] at hh
    exact HeaderForm.begins_of_viable (headerTokens_append_iff.mp hh).1 hv
  · obtain ⟨e, he, -⟩ := refused h.stop directive more hm
    cases (Header.parse_of_form hc).1.symm.trans he

theorem Cursor.form_of_condition {c : Cursor} {directive : Token}
    (h : c.condition directive = (.ok cond, n)) :
    HeaderForm (headerTokens c.lastLine c.unread) cond n := by
  rcases c.condition_cases directive with ⟨cond', n', hc, hf⟩ | ⟨_, _, f, n', hf, -⟩
  · cases h.symm.trans hc
    exact hf
  · cases h.symm.trans hf

/-- The header behind a directive is read exactly if the grammar derives it, to the only condition
that its tokens stand for, and with the tokens up to `then` or the end. In front of any other
header, reading fails at the first token with which no header of the grammar goes on; at the end of
the header that is the token for its end. -/
theorem Cursor.condition_grammar (c : Cursor) (directive : Token) :
    let h := Header.ofCursor directive c
    (∀ cond n, c.condition directive = (.ok cond, n) ↔ HeaderForm h.tokens cond n) ∧
    (∀ ts cond cond', ConditionForm ts cond → ConditionForm ts cond' → cond = cond') ∧
    ((∀ cond n, ¬HeaderForm h.tokens cond n) →
      ∃ used left f n, c.condition directive = (.error f, n) ∧ h.tokens = used ++ left ∧
        HeaderForm.Begins c.lastLine used ∧
        (∀ more, more.head? = left.head? → ∀ cond n, ¬HeaderForm (used ++ more) cond n) ∧
        Blames (left.headD h.stop) f) := by
  intro h
  refine ⟨fun cond n => ⟨form_of_condition, condition_of_form⟩, fun _ _ _ => ConditionForm.unique,
    fun hn => ?_⟩
  rcases c.condition_cases directive with ⟨cond, n, -, hf⟩ | stuck
  · exact (hn cond n hf).elim
  · exact stuck

/-- No line may end behind a connective: the token for its end is the first that is not read. -/
theorem Cursor.condition_behindConnective :
    let name := Token.onLine 1 .identifier "x"
    let both := Token.onLine 1 (.symbol "&&") "&&"
    let directive := Token.onLine 1 .hashWord "#if"
    let c : Cursor := ⟨1, [name, both, .onLine 2 .hashWord "#end"]⟩
    (∀ cond n, ¬HeaderForm [name, both] cond n) ∧
      ∃ used left f n, c.condition directive = (.error f, n) ∧ [name, both] = used ++ left ∧
        HeaderForm.Begins 1 used ∧
        (∀ more, more.head? = left.head? → ∀ cond n, ¬HeaderForm (used ++ more) cond n) ∧
        Blames (left.headD (.onLine 2 .newline "\n")) f := by
  intro name both directive c
  obtain ⟨hc, -, hs⟩ := condition_grammar c directive
  have ht : Header.ofCursor directive c = ⟨[name, both], .onLine 2 .newline "\n"⟩ := by cbv
  rw [ht] at hc hs
  have hf : (c.condition directive).1.toOption = none := by cbv
  have hn : ∀ cond n, ¬HeaderForm [name, both] cond n := by
    intro cond n hh
    rw [(hc cond n).mpr hh] at hf
    cases hf
  exact ⟨hn, hs hn⟩

end HashIf
