import HashIf.Proofs.Condition.Limits
import HashIf.Proofs.Filter.Nesting

/-! When a pass goes beyond a limit: at the first condition that it consults and that does, if
nothing has failed before. All other failures have a place. -/

namespace HashIf

variable {env : Environment}

/-! ## Conditions -/

/-- Reading the header or evaluating its condition comes to a number beyond a limit. -/
def Query.Large (env : Environment) (q : Query) : Prop :=
  (∃ t ∈ q.header.tokens.take q.length, t.LargeEscape) ∨
    ∃ cond, q.parsed.result = .ok cond ∧ cond.Large env

theorem Query.truth_breaksOff_iff (q : Query) : BreaksOff (q.truth env) ↔ q.Large env := by
  have agree : Parsed.Agree q.parsed q.parsed := Header.parse_agree
  have hread := agree.breaksOff_iff
  rw [Query.Large, Query.length, ← hread, truth]
  cases q.parsed.result with
  | error f => simp [breaksOff_error_iff]
  | ok cond =>
    simp only [Except.ok.injEq, exists_eq_left']
    rw [cond.evaluate_breaksOff_iff env]
    exact ⟨.inr, fun h => h.resolve_left not_breaksOff_ok⟩

theorem Query.failure?_limit_iff (q : Query) :
    (∃ l, q.failure? env = some (.limit l)) ↔ q.Large env := by
  rw [← q.truth_breaksOff_iff, failure?]
  cases q.truth env with
  | error f => simp [BreaksOff]
  | ok b => simp [BreaksOff]

/-! ## Traces -/

/-- Nothing in a trace fails before a condition that it consults. -/
def Reaches (env : Environment) (es : List Event) (q : Query) : Prop :=
  ∃ front back, es = front ++ .consult q :: back ∧ (outcome env front).failure = none

theorem not_reaches_nil (q : Query) : ¬Reaches env [] q := by
  rintro ⟨front, back, h, -⟩
  cases front <;> cases h

theorem reaches_cons {e : Event} {es : List Event} {q : Query} :
    Reaches env (e :: es) q ↔
      e = .consult q ∨ (e.outcome env).failure = none ∧ Reaches env es q := by
  constructor
  · rintro ⟨_ | ⟨e', front⟩, back, h, hf⟩
    · exact .inl (List.cons.inj h).1
    · obtain ⟨rfl, rfl⟩ := List.cons.inj h
      rw [outcome_cons, Outcome.andThen] at hf
      cases he : (e.outcome env).failure with
      | none =>
        rw [he] at hf
        exact .inr ⟨rfl, front, back, rfl, hf⟩
      | some f =>
        simp only [he] at hf
        cases hf
  · rintro (rfl | ⟨he, front, back, rfl, hf⟩)
    · exact ⟨[], es, rfl, rfl⟩
    · refine ⟨e :: front, back, rfl, ?_⟩
      rw [outcome_cons, Outcome.andThen, he]
      exact hf

/-- A trace breaks off at the first condition beyond a limit if nothing fails before it. -/
theorem outcome_limit_iff (es : List Event) :
    (∃ l, (outcome env es).failure = some (.limit l)) ↔ ∃ q, Reaches env es q ∧ q.Large env := by
  induction es with
  | nil =>
    constructor
    · exact nofun
    · rintro ⟨q, h, -⟩
      exact (not_reaches_nil q h).elim
  | cons e es ih =>
    simp only [reaches_cons, outcome_cons]
    cases e with
    | keep t =>
      simp only [Event.outcome, reduceCtorEq, false_or, true_and]
      exact ih
    | fault loc f =>
      simp [Event.outcome, Outcome.andThen]
    | consult q =>
      have hq : (∃ l, q.failure? env = some (.limit l)) ↔ q.Large env := q.failure?_limit_iff
      simp only [Event.outcome, Event.consult.injEq]
      cases hf : q.failure? env with
      | none =>
        rw [hf] at hq
        have hsmall : ¬q.Large env := fun h => by
          obtain ⟨l, h⟩ := hq.mpr h
          cases h
        refine ih.trans (exists_congr fun q' => and_congr_left fun hl => ?_)
        refine ⟨fun h => .inr ⟨rfl, h⟩, fun h => (h.resolve_left ?_).2⟩
        rintro rfl
        exact hsmall hl
      | some f =>
        rw [hf] at hq
        refine hq.trans ⟨fun h => ⟨q, .inl rfl, h⟩, ?_⟩
        rintro ⟨q', rfl | ⟨h, -⟩, hl⟩
        · exact hl
        · cases h

def Failure.Located : Failure → Prop
  | .limit _ => True
  | .diagnostic d => d.loc?.isSome = true

theorem Failure.OfCondition.located {f : Failure} (h : f.OfCondition) : f.Located := by
  cases f with
  | limit l => trivial
  | diagnostic d =>
    cases d with
    | structural loc s => rfl
    | _ => exact h

theorem outcome_located {es : List Event} (h : (outcome env es).failure = some f) : f.Located := by
  induction es with
  | nil => cases h
  | cons e es ih =>
    rw [outcome_cons] at h
    cases e with
    | keep t => exact ih h
    | fault loc s =>
      cases h
      rfl
    | consult q =>
      simp only [Event.outcome] at h
      cases hq : q.failure? env with
      | none =>
        rw [hq] at h
        exact ih h
      | some g =>
        rw [hq] at h
        cases h
        exact (Query.failure?_ofCondition hq).located

/-! ## Passes -/

/-- A pass over a stream consults a condition, and nothing fails before. -/
def Consults (env : Environment) (ts : List Token) (q : Query) : Prop :=
  ∃ (s : Outline) (more : List Marked), classify ts = s.marked ++ more ∧ s.Guarded ∧ s.Fits more ∧
    Reaches env (s.events env 0) q

/-- What a pass over a stream brings: the trace of an outline, and at most a stray marker. -/
theorem exists_trace (env : Environment) {ts : List Token} (he : EofLast (classify ts)) :
    ∃ (s : Outline) (more : List Marked), classify ts = s.marked ++ more ∧ s.Guarded ∧
      s.Fits more ∧ (passOutcome env (.start ts) [] = outcome env (s.events env 0) ∨
        ∃ loc m, passOutcome env (.start ts) [] = (outcome env (s.events env 0)).andThen
          ⟨[], some (.diagnostic (.structural loc (.unmatched m)))⟩) := by
  obtain ⟨s, more, hm, hg, hf, rfl | ⟨t, m, ms, rfl, hne⟩⟩ := exists_outline _ he
  · have hw : classify ts = s.marked := hm.trans (List.append_nil _)
    exact ⟨s, [], hm, hg, hf, .inl (Outline.run_whole hg hf hw)⟩
  · have hd := Cursor.marked_drop_append (c := .start ts) hm
    refine ⟨s, _, hm, hg, hf, .inr ⟨t.loc, m, ?_⟩⟩
    rw [Outline.run_start hg hf hm, passOutcome_stray hd hne]

theorem Outcome.andThen_of_failure {o : Outcome} (h : o.failure = some f) (p : Outcome) :
    (o.andThen p).failure = some f := by
  rw [andThen, h]
  exact h

theorem Outcome.failure_andThen {o p : Outcome} (h : (o.andThen p).failure = some f) :
    o.failure = some f ∨ p.failure = some f := by
  cases ho : o.failure with
  | some g =>
    rw [andThen_of_failure ho] at h
    exact .inl h
  | none =>
    simp only [andThen, ho] at h
    exact .inr h

theorem filterTokens_breaksOff_iff (he : EofLast (classify ts)) :
    BreaksOff (filterTokens env ts) ↔ ∃ q, Consults env ts q ∧ q.Large env := by
  simp only [BreaksOff, filterTokens_eq, Outcome.result_eq_error]
  constructor
  · rintro ⟨l, h⟩
    obtain ⟨s, more, hm, hg, hf, hrun | ⟨loc, m, hrun⟩⟩ := exists_trace env he
    all_goals rw [hrun] at h
    · obtain ⟨q, hq, hl⟩ := (outcome_limit_iff _).mp ⟨l, h⟩
      exact ⟨q, ⟨s, more, hm, hg, hf, hq⟩, hl⟩
    · rcases Outcome.failure_andThen h with h | h
      · obtain ⟨q, hq, hl⟩ := (outcome_limit_iff _).mp ⟨l, h⟩
        exact ⟨q, ⟨s, more, hm, hg, hf, hq⟩, hl⟩
      · cases h
  · rintro ⟨q, ⟨s, more, hm, hg, hf, hq⟩, hl⟩
    obtain ⟨l, h⟩ := (outcome_limit_iff _).mpr ⟨q, hq, hl⟩
    rw [Outline.run_start hg hf hm]
    exact ⟨l, Outcome.andThen_of_failure h _⟩

theorem filterTokens_located (he : EofLast (classify ts)) (h : filterTokens env ts = .error f) :
    f.Located := by
  rw [filterTokens_eq, Outcome.result_eq_error] at h
  obtain ⟨s, more, hm, hg, hf, hrun | ⟨loc, m, hrun⟩⟩ := exists_trace env he
  all_goals rw [hrun] at h
  · exact outcome_located h
  · rcases Outcome.failure_andThen h with h | h
    · exact outcome_located h
    · cases h
      rfl

end HashIf
