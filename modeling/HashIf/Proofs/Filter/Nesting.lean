import HashIf.Proofs.Condition.Failing
import HashIf.Proofs.Filter.OutlineReading
import HashIf.Proofs.Filter.Run
import Mathlib

/-! Nesting: a pass checks the order of the markers. Whether blocks match does not depend on the
environment, and of the other faults of structure only those count that stand in no dropped
segment. -/

namespace HashIf

/-! ## Blocks outside dropped segments -/

section
variable (env : Environment)

mutual

/-- The `#if` and the further segments of every block that stands in no dropped segment, in the
order of the stream. -/
def Outline.shown : Outline → List (Token × Branches)
  | .done => []
  | .token _ rest => rest.shown
  | .block opener body branches rest =>
    (opener, branches) ::
      ((if (Query.ofSegment opener body branches).holds env then body.shown else branches.shown) ++
        rest.shown)

def Branches.shown : Branches → List (Token × Branches)
  | .close _ | .cut _ => []
  | .orIf t body more =>
    if (Query.ofSegment t body more).holds env then body.shown else more.shown
  | .orElse _ body _ => body.shown

end

def Branches.isOpen : Branches → Bool
  | .close _ => false
  | .cut _ => true
  | .orIf _ _ more | .orElse _ _ more => more.isOpen

/-- The blocks without `#end` that stand in no dropped segment, the innermost one last. -/
def Outline.unfinished (s : Outline) : List (Token × Branches) :=
  (s.shown env).filter (·.2.isOpen)

/-- The markers of a block that stand behind its own `#else`, each with its fault. -/
def Branches.misplaced : (elseMet : Bool) → Branches → List (Token × StructureFault)
  | _, .close _ | _, .cut _ => []
  | elseMet, .orIf t _ more =>
    (if elseMet then [(t, .elifAfterElse)] else []) ++ more.misplaced elseMet
  | elseMet, .orElse t _ more =>
    (if elseMet then [(t, .repeatedElse)] else []) ++ more.misplaced true

mutual

/-- The misplaced markers of the blocks outside dropped segments, in the order of the stream. -/
def Outline.late : Outline → List (Token × StructureFault)
  | .done => []
  | .token _ rest => rest.late
  | .block opener body branches rest =>
    (if (Query.ofSegment opener body branches).holds env then
      body.late ++ branches.misplaced false
      else branches.late) ++ rest.late

def Branches.late : Branches → List (Token × StructureFault)
  | .close _ | .cut _ => []
  | .orIf t body more =>
    if (Query.ofSegment t body more).holds env then body.late ++ more.misplaced false
    else more.late
  | .orElse _ body more => body.late ++ more.misplaced true

end

end

section
variable {env : Environment}

theorem Branches.misplaced_orIf :
    (Branches.orIf t body more).misplaced false = more.misplaced false := rfl

theorem Branches.misplaced_orElse :
    (Branches.orElse t body more).misplaced false = more.misplaced true := rfl

mutual

theorem Outline.mem_late : (s : Outline) →
    (x ∈ s.late env ↔ ∃ b ∈ s.shown env, x ∈ b.2.misplaced false)
  | .done => by simp [Outline.late, Outline.shown]
  | .token _ rest => Outline.mem_late rest
  | .block opener body branches rest => by
    rw [Outline.late, Outline.shown, List.mem_append, Outline.mem_late rest]
    simp only [List.mem_cons, List.mem_append, or_and_right, exists_or, exists_eq_left]
    rw [← or_assoc]
    refine or_congr ?_ Iff.rfl
    split
    · rw [List.mem_append, Outline.mem_late body, or_comm]
    · exact Branches.mem_late branches

theorem Branches.mem_late : (br : Branches) →
    (x ∈ br.late env ↔ x ∈ br.misplaced false ∨ ∃ b ∈ br.shown env, x ∈ b.2.misplaced false)
  | .close _ | .cut _ => by simp [Branches.late, Branches.shown, Branches.misplaced]
  | .orIf t body more => by
    rw [Branches.late, Branches.shown, Branches.misplaced_orIf]
    split
    · rw [List.mem_append, Outline.mem_late body, or_comm]
    · exact Branches.mem_late more
  | .orElse _ body more => by
    rw [Branches.late, Branches.shown, Branches.misplaced_orElse, List.mem_append,
      Outline.mem_late body, or_comm]

end

theorem Outline.late_ne_nil_iff (s : Outline) :
    s.late env ≠ [] ↔ ∃ b ∈ s.shown env, b.2.misplaced false ≠ [] := by
  constructor
  · intro h
    obtain ⟨x, hx⟩ := List.exists_mem_of_ne_nil _ h
    obtain ⟨b, hb, hx⟩ := s.mem_late.mp hx
    exact ⟨b, hb, List.ne_nil_of_mem hx⟩
  · rintro ⟨b, hb, h⟩
    obtain ⟨x, hx⟩ := List.exists_mem_of_ne_nil _ h
    exact List.ne_nil_of_mem (s.mem_late.mpr ⟨b, hb, hx⟩)

/-! ## Order -/

theorem Branches.misplaced_sublist {elseMet : Bool} : (br : Branches) →
    ((br.misplaced elseMet).map Prod.fst).Sublist (br.marked.map Prod.fst)
  | .close _ | .cut _ => List.nil_sublist _
  | .orIf t body more | .orElse t body more => by
    have own (f : StructureFault) :
        ((if elseMet then [(t, f)] else []).map Prod.fst).Sublist [t] := by
      cases elseMet with
      | true => exact List.Sublist.refl _
      | false => exact List.nil_sublist _
    rw [Branches.misplaced, Branches.marked, List.map_append, List.map_cons, List.map_append]
    refine (own _).append ?_
    exact more.misplaced_sublist.trans (List.sublist_append_right _ _)

mutual

theorem Outline.late_sublist : (s : Outline) →
    ((s.late env).map Prod.fst).Sublist s.tokens
  | .done => List.nil_sublist _
  | .token t rest => (Outline.late_sublist rest).cons t
  | .block opener body branches rest => by
    rw [Outline.late, Outline.tokens, Outline.marked, List.map_append, List.map_cons,
      List.map_append, List.map_append, ← List.append_assoc]
    refine ((List.Sublist.append ?_ rest.late_sublist).cons _)
    split
    · rw [List.map_append]
      exact body.late_sublist.append branches.misplaced_sublist
    · exact branches.late_sublist.trans (List.sublist_append_right _ _)

theorem Branches.late_sublist : (br : Branches) →
    ((br.late env).map Prod.fst).Sublist (br.marked.map Prod.fst)
  | .close _ | .cut _ => List.nil_sublist _
  | .orIf t body more => by
    rw [Branches.late, Branches.marked, List.map_cons, List.map_append]
    refine .cons _ ?_
    split
    · rw [List.map_append]
      exact body.late_sublist.append more.misplaced_sublist
    · exact more.late_sublist.trans (List.sublist_append_right _ _)
  | .orElse t body more => by
    rw [Branches.late, Branches.marked, List.map_cons, List.map_append, List.map_append]
    exact .cons _ (body.late_sublist.append more.misplaced_sublist)

end

/-! ## Faults of traces -/

def lateFault (x : Token × StructureFault) : Location × StructureFault := (x.1.loc, x.2)

def openFault (b : Token × Branches) : Location × StructureFault := (b.1.loc, .openBlock)

/-- The fault of a block that begins at a place, if it has no `#end`. -/
def Branches.ownFault (opener : Location) (br : Branches) : List (Location × StructureFault) :=
  if br.isOpen then [(opener, .openBlock)] else []

mutual

theorem Outline.Closed.unfinished : (s : Outline) → s.Closed → s.unfinished env = []
  | .done, _ => rfl
  | .token _ rest, h => Outline.Closed.unfinished rest h
  | .block opener body branches rest, ⟨hb, hr, hs⟩ => by
    obtain ⟨ho, hi⟩ := Branches.Closed.unfinished branches hr
    have hrest := Outline.Closed.unfinished rest hs
    have hbody := Outline.Closed.unfinished body hb
    rw [Outline.unfinished] at hrest hbody
    rw [Outline.unfinished, Outline.shown, List.filter_cons_of_neg (by simp [ho]),
      List.filter_append, hrest, List.append_nil]
    split
    · exact hbody
    · exact hi

theorem Branches.Closed.unfinished : (br : Branches) → br.Closed →
    br.isOpen = false ∧ (br.shown env).filter (·.2.isOpen) = []
  | .close _, _ => ⟨rfl, rfl⟩
  | .orIf t body more, ⟨hb, hm⟩ => by
    obtain ⟨ho, hi⟩ := Branches.Closed.unfinished more hm
    refine ⟨ho, ?_⟩
    rw [Branches.shown]
    split
    · exact Outline.Closed.unfinished body hb
    · exact hi
  | .orElse t body more, ⟨hb, hm⟩ =>
    ⟨(Branches.Closed.unfinished more hm).1, Outline.Closed.unfinished body hb⟩

end

/-- Branches with an `#end` are closed, since a segment that is cut is the last of its block. -/
theorem Branches.Fits.closed_of_isOpen : (br : Branches) → br.Fits more → br.isOpen = false →
    br.Closed
  | .close _, _, _ => trivial
  | .orIf _ body next, ⟨hb, hn⟩, ho | .orElse _ body next, ⟨hb, hn⟩, ho => by
    have hc := Branches.Fits.closed_of_isOpen next hn ho
    exact ⟨hb.closed (List.append_ne_nil_of_left_ne_nil hc.marked_ne_nil _), hc⟩

/-- An outline that is not closed has an unfinished block outside dropped segments. -/
theorem Outline.Fits.closed_of_unfinished : (s : Outline) → s.Fits more →
    s.unfinished env = [] → s.Closed
  | .done, _, _ => trivial
  | .token _ rest, h, hu => Outline.Fits.closed_of_unfinished rest h hu
  | .block opener body branches rest, ⟨hb, hr, hs⟩, hu => by
    rw [Outline.unfinished, Outline.shown, List.filter_cons] at hu
    cases ho : branches.isOpen with
    | true => simp [ho] at hu
    | false =>
      rw [ho, if_neg Bool.false_ne_true, List.filter_append] at hu
      have hc := Branches.Fits.closed_of_isOpen branches hr ho
      exact ⟨hb.closed (List.append_ne_nil_of_left_ne_nil hc.marked_ne_nil _), hc,
        Outline.Fits.closed_of_unfinished rest hs (List.append_eq_nil_iff.mp hu).2⟩

theorem Outline.eq_done {s : Outline} (h : s.marked = []) : s = .done := by
  cases s with
  | done => rfl
  | token | block => cases h

theorem Branches.faultsOf_later {opener : Location} {elseMet : Bool} : (br : Branches) →
    faultsOf (br.later opener elseMet) = (br.misplaced elseMet).map lateFault ++ br.ownFault opener
  | .close _ | .cut _ => rfl
  | .orIf t body more | .orElse t body more => by
    rw [Branches.later, Branches.misplaced, faultsOf_append, more.faultsOf_later, List.map_append,
      List.append_assoc]
    cases elseMet <;> rfl

/-- A segment with a block that is cut is the last of its own block. -/
theorem Outline.Fits.unfinished {body : Outline} {next : Branches}
    (hf : body.Fits (next.marked ++ more)) : body.unfinished env = [] ∨ next = .cut none := by
  by_cases hm : next.marked ++ more = []
  · exact .inr (Branches.eq_cut (List.append_eq_nil_iff.mp hm).1)
  · exact .inl (Outline.Closed.unfinished body (hf.closed hm))

theorem faultsOf_segment {body : Outline} {next : Branches} {opener : Location} {es : List Event}
    (hf : body.Fits (next.marked ++ more))
    (hb : faultsOf es = (body.late env).map lateFault ++
      (body.unfinished env).reverse.map openFault) :
    faultsOf (es ++ next.later opener elseMet) =
      (body.late env ++ next.misplaced elseMet).map lateFault ++
        ((body.unfinished env).reverse.map openFault ++ next.ownFault opener) := by
  rw [faultsOf_append, hb, next.faultsOf_later, List.map_append, List.append_assoc,
    List.append_assoc]
  obtain h | rfl : body.unfinished env = [] ∨ next = .cut none := hf.unfinished
  · rw [h]; rfl
  · rfl

mutual

/-- The faults of structure that a pass meets in an outline: first its misplaced markers, and at
the end of the stream the unfinished blocks from the inside out. -/
theorem Outline.faultsOf_events : (n : Nat) → (s : Outline) → s.Fits more →
    faultsOf (s.events env n) =
      (s.late env).map lateFault ++ (s.unfinished env).reverse.map openFault
  | _, .done, _ => by
    simp [Outline.events, Outline.late, Outline.unfinished, Outline.shown, faultsOf]
  | 0, .token _ rest, h => Outline.faultsOf_events 0 rest h
  | n + 1, .token _ rest, h => Outline.faultsOf_events n rest h
  | n, .block opener body branches rest, ⟨hb, hr, hs⟩ => by
    have hseg : faultsOf (if (Query.ofSegment opener body branches).holds env then
          body.events env (Query.ofSegment opener body branches).length ++
            branches.later opener.loc false
          else branches.events env opener.loc) =
        (if (Query.ofSegment opener body branches).holds env then
          body.late env ++ branches.misplaced false else branches.late env).map lateFault ++
        (((if (Query.ofSegment opener body branches).holds env then body.shown env
          else branches.shown env).filter (·.2.isOpen)).reverse.map openFault ++
          branches.ownFault opener.loc) := by
      split
      · exact faultsOf_segment hb (Outline.faultsOf_events _ body hb)
      · exact Branches.faultsOf_events branches hr
    rw [Outline.events, faultsOf_consult, faultsOf_append, Outline.late, List.map_append]
    rw [hseg, Outline.faultsOf_events 0 rest hs, Outline.unfinished, Outline.unfinished,
      Outline.shown]
    by_cases hm : rest.marked ++ more = []
    · -- nothing follows the block, which may be cut
      obtain rfl := Outline.eq_done (List.append_eq_nil_iff.mp hm).1
      simp only [Outline.late, Outline.shown, List.append_nil, List.filter_nil, List.map_nil,
        List.reverse_nil, Branches.ownFault]
      cases ho : branches.isOpen with
      | true => simp [ho, openFault]
      | false => simp [ho]
    · -- the block is closed, so only what follows it may be cut
      have hc := hr.closed hm
      have hbc := hb.closed (List.append_ne_nil_of_right_ne_nil _ hm)
      obtain ⟨ho, hi⟩ : branches.isOpen = false ∧ (branches.shown env).filter (·.2.isOpen) = [] :=
        Branches.Closed.unfinished branches hc
      have hu : (if (Query.ofSegment opener body branches).holds env then body.shown env
          else branches.shown env).filter (·.2.isOpen) = [] := by
        split
        · exact Outline.Closed.unfinished body hbc
        · exact hi
      rw [List.filter_cons_of_neg (by simp [ho]), List.filter_append, hu, Branches.ownFault, ho]
      simp

theorem Branches.faultsOf_events {opener : Location} : (br : Branches) → br.Fits more →
    faultsOf (br.events env opener) = (br.late env).map lateFault ++
      (((br.shown env).filter (·.2.isOpen)).reverse.map openFault ++ br.ownFault opener)
  | .close _, _ | .cut _, _ => rfl
  | .orIf t body more, ⟨hb, hm⟩ => by
    rw [Branches.events, faultsOf_consult, Branches.late, Branches.shown]
    split
    · exact faultsOf_segment hb (Outline.faultsOf_events _ body hb)
    · exact Branches.faultsOf_events more hm
  | .orElse _ body more, ⟨hb, hm⟩ => by
    exact faultsOf_segment hb (Outline.faultsOf_events _ body hb)

end

/-! ## Failures of passes -/

theorem Query.failure?_ofCondition {q : Query} (h : q.failure? env = some f) : f.OfCondition := by
  simp only [Query.failure?, Query.truth] at h
  cases hp : q.parsed.result with
  | error g =>
    rw [hp] at h
    cases h
    exact Header.parse_error hp
  | ok cond =>
    simp only [hp] at h
    cases he : cond.evaluate env with
    | error g =>
      rw [he] at h
      cases h
      exact cond.evaluate_error he
    | ok b => rw [he] at h; cases h

theorem outcome_structural {es : List Event}
    (h : (outcome env es).failure = some (structuralFailure x)) : (faultsOf es).head? = some x := by
  induction es with
  | nil => cases h
  | cons e es ih =>
    rw [outcome_cons] at h
    cases e with
    | keep t => exact ih h
    | fault loc f => cases h; rfl
    | consult q =>
      simp only [Event.outcome] at h
      cases hq : q.failure? env with
      | none => rw [hq] at h; exact ih h
      | some f =>
        rw [hq] at h
        cases h
        exact (Query.failure?_ofCondition hq).elim

theorem Branches.misplaced_ne_openBlock {elseMet : Bool} : (br : Branches) →
    ∀ x ∈ br.misplaced elseMet, x.2 = .elifAfterElse ∨ x.2 = .repeatedElse
  | .close _ | .cut _ => by simp [Branches.misplaced]
  | .orIf t _ more | .orElse t _ more => by
    intro x hx
    rcases List.mem_append.mp hx with hx | hx
    · cases elseMet with
      | true => simp_all
      | false => cases hx
    · exact more.misplaced_ne_openBlock x hx

/-- The outline is what a stream reads as from its start to its end. -/
structure Outline.Reads (s : Outline) (ts : List Token) : Prop where
  guarded : s.Guarded
  fits : s.Fits []
  marked : classify ts = s.marked

theorem Outline.Reads.result_eq {s : Outline} (h : s.Reads ts) :
    filterTokens env ts = (outcome env (s.events env 0)).result := by
  rw [filterTokens_eq, Outline.run_whole h.guarded h.fits h.marked]

theorem Outline.Closed.reads {s : Outline} (hs : s.Closed) (hm : classify ts = s.marked)
    (he : EofLast (classify ts)) : s.Reads ts :=
  ⟨hs.guarded (hm ▸ he), hs.fits, hm⟩

theorem Outline.Closed.faultsOf_events {s : Outline} (hs : s.Closed) (n : Nat) :
    faultsOf (s.events env n) = (s.late env).map lateFault := by
  have hf : s.Fits [] := hs.fits
  rw [Outline.faultsOf_events n s hf, Outline.Closed.unfinished s hs]
  exact List.append_nil _

theorem Outline.late_fault : {s : Outline} → ∀ x ∈ s.late env,
    x.2 = .elifAfterElse ∨ x.2 = .repeatedElse := by
  intro s x hx
  obtain ⟨b, -, hb⟩ := s.mem_late.mp hx
  exact b.2.misplaced_ne_openBlock x hb

/-- The fault of structure that ends a closed outline is that of its first misplaced marker. -/
theorem Outline.Closed.structural {s : Outline} (hs : s.Closed)
    (h : (outcome env (s.events env 0)).failure = some (.diagnostic (.structural loc f))) :
    f = .elifAfterElse ∨ f = .repeatedElse := by
  have hf := outcome_structural (x := (loc, f)) h
  rw [hs.faultsOf_events] at hf
  obtain ⟨x, hx, he⟩ := List.mem_map.mp (List.mem_of_mem_head? hf)
  obtain rfl : x.2 = f := congrArg Prod.snd he
  exact Outline.late_fault x hx

theorem filterTokens_of_not_balanced (env : Environment) (he : EofLast (classify ts))
    (hb : ¬Balanced (classify ts)) : ∃ f, filterTokens env ts = .error f := by
  obtain ⟨s, more, hm, hg, hf, rfl | ⟨t, m, ms, rfl, hne⟩⟩ := exists_outline _ he
  · rw [List.append_nil] at hm
    have hr : s.Reads ts := ⟨hg, hf, hm⟩
    have hu : s.unfinished env ≠ [] := fun hu =>
      hb (hm ▸ hf.balanced_iff.mpr (Outline.Fits.closed_of_unfinished s hf hu))
    have hfail : (outcome env (s.events env 0)).failure ≠ none := by
      refine outcome_failure_ne_none ?_
      rw [Outline.faultsOf_events 0 s hf]
      simp [hu]
    obtain ⟨f, hf⟩ := Option.ne_none_iff_exists'.mp hfail
    exact ⟨f, hr.result_eq.trans (Outcome.result_eq_error.mpr hf)⟩
  · have hd := Cursor.marked_drop_append (c := .start ts) hm
    rw [filterTokens_eq, Outline.run_start hg hf hm, passOutcome_stray hd hne]
    cases h : (outcome env (s.events env 0)).failure with
    | none => exact ⟨_, Outcome.result_eq_error.mpr (by rw [Outcome.andThen, h])⟩
    | some f => exact ⟨f, Outcome.result_eq_error.mpr (by rw [Outcome.andThen, h]; exact h)⟩

theorem filterTokens_of_balanced (he : EofLast (classify ts)) (hb : Balanced (classify ts))
    (h : filterTokens env ts = .error (.diagnostic (.structural loc f))) :
    f = .elifAfterElse ∨ f = .repeatedElse := by
  obtain ⟨s, hs, hm⟩ := (balanced_iff he).mp hb
  rw [(hs.reads hm he).result_eq, Outcome.result_eq_error] at h
  exact hs.structural h

/-- Where every condition that is consulted has a truth, a closed outline fails at its first
misplaced marker. -/
theorem Outline.Closed.error_iff {s : Outline} (hs : s.Closed) (hm : classify ts = s.marked)
    (he : EofLast (classify ts)) (hd : Decided env (consultedOf (s.events env 0))) :
    filterTokens env ts = .error f ↔
      ∃ x, (s.late env).head? = some x ∧ f = .diagnostic (.structural x.1.loc x.2) := by
  rw [(hs.reads hm he).result_eq, Outcome.result_eq_error, outcome_failure hd,
    hs.faultsOf_events, List.head?_map, Option.map_map, Option.map_eq_some_iff]
  exact exists_congr fun x => and_congr_right fun _ => eq_comm

/-- The fault of a stream that ends in a block is that of the innermost block outside dropped
segments. -/
theorem Outline.Reads.unterminated {s : Outline} (hr : s.Reads ts)
    (h : filterTokens env ts = .error (.diagnostic (.structural loc .openBlock))) :
    (s.unfinished env).getLast?.map (·.1.loc) = some loc := by
  rw [hr.result_eq, Outcome.result_eq_error] at h
  have hf := outcome_structural (x := (loc, .openBlock)) h
  rw [Outline.faultsOf_events 0 s hr.fits] at hf
  cases hl : s.late env with
  | cons x xs =>
    rw [hl] at hf
    have hx := Outline.late_fault x (hl ▸ List.mem_cons_self)
    obtain ⟨-, h2⟩ := Prod.mk.inj (Option.some.inj hf)
    rcases hx with hx | hx <;> rw [hx] at h2 <;> cases h2
  | nil =>
    rw [hl, List.map_nil, List.nil_append, List.head?_map, List.head?_reverse,
      Option.map_eq_some_iff] at hf
    obtain ⟨b, hb, ho⟩ := hf
    rw [hb]
    exact congrArg some (Prod.mk.inj ho).1

theorem exists_reads_of_unterminated (he : EofLast (classify ts))
    (h : filterTokens env ts = .error (.diagnostic (.structural loc .openBlock))) :
    ∃ s : Outline, s.Reads ts := by
  obtain ⟨s, more, hm, hg, hf, rfl | ⟨t, m, ms, rfl, hne⟩⟩ := exists_outline _ he
  · exact ⟨s, hg, hf, by rw [hm, List.append_nil]⟩
  · have hs := hf.closed (List.cons_ne_nil _ _)
    have hd := Cursor.marked_drop_append (c := .start ts) hm
    rw [filterTokens_eq, Outline.run_start hg hf hm, passOutcome_stray hd hne,
      Outcome.result_eq_error, Outcome.andThen] at h
    split at h
    · rcases hs.structural h with h | h <;> cases h
    · cases h

end

/-- A pass checks the order of the markers: a stream that is not balanced always fails, one that is
balanced only at misplaced markers outside dropped segments, the first of which is named, and a
block without `#end` is named at its `#if`, the innermost one outside dropped segments. -/
theorem filterTokens_nesting (env : Environment) {ts : List Token} (he : EofLast (classify ts)) :
    (¬Balanced (classify ts) → ∃ f, filterTokens env ts = .error f) ∧
    (Balanced (classify ts) →
      (∀ loc f, filterTokens env ts = .error (.diagnostic (.structural loc f)) →
        f ≠ .openBlock ∧ ∀ m, f ≠ .unmatched m) ∧
      (∃ s : Outline, s.Closed ∧ classify ts = s.marked) ∧
      ∀ s : Outline, s.Closed → classify ts = s.marked →
        Decided env (consultedOf (s.events env 0)) →
        ((∃ f, filterTokens env ts = .error f) ↔ ∃ b ∈ s.shown env, b.2.misplaced false ≠ []) ∧
        ((s.late env).map Prod.fst).Sublist ts ∧
        ∀ f, filterTokens env ts = .error f →
          ∃ x, (s.late env).head? = some x ∧ f = .diagnostic (.structural x.1.loc x.2)) ∧
    ∀ loc, filterTokens env ts = .error (.diagnostic (.structural loc .openBlock)) →
      (∃ s : Outline, s.Reads ts) ∧
      ∀ s : Outline, s.Reads ts → (s.unfinished env).getLast?.map (·.1.loc) = some loc := by
  refine ⟨filterTokens_of_not_balanced env he, fun hb => ⟨?_, (balanced_iff he).mp hb, ?_⟩,
    fun loc h => ⟨exists_reads_of_unterminated he h, fun s hr => hr.unterminated h⟩⟩
  · intro loc f h
    rcases filterTokens_of_balanced he hb h with rfl | rfl <;> simp
  · intro s hs hm hd
    refine ⟨?_, ?_, fun f => (hs.error_iff hm he hd).mp⟩
    · rw [← s.late_ne_nil_iff]
      constructor
      · rintro ⟨f, hf⟩ hl
        obtain ⟨x, hx, -⟩ := (hs.error_iff hm he hd).mp hf
        rw [hl] at hx
        cases hx
      · intro hl
        obtain ⟨x, xs, hl⟩ := List.exists_cons_of_ne_nil hl
        exact ⟨_, (hs.error_iff hm he hd).mpr ⟨x, by rw [hl]; rfl, rfl⟩⟩
    · have ht : s.tokens = ts := by
        rw [Outline.tokens, ← hm]
        exact (Cursor.start ts).map_fst_marked
      exact ht ▸ s.late_sublist

/-- Two blocks without `#end`, the second in the segment of the condition `defined x`. -/
def Outline.nestedOpenings : Outline :=
  .block (.onLine 1 .hashWord "#if")
    (.token (.onLine 1 .definedWord "defined") (.token (.onLine 1 .identifier "x")
      (.block (.onLine 2 .hashWord "#if") .done (.cut (some (.onLine 3 .eof ""))) .done)))
    (.cut none) .done

/-- Where `x` is not defined the inner block is dropped, and the outer one is at fault. -/
theorem filterTokens_nestedOpenings :
    (∃ f, filterTokens .empty Outline.nestedOpenings.tokens = .error f) ∧
      (Outline.nestedOpenings.unfinished .empty).getLast?.map (·.1.loc.line) = some 1 := by
  have he : EofLast (classify Outline.nestedOpenings.tokens) := by decide
  have hs : Outline.nestedOpenings.Reads Outline.nestedOpenings.tokens :=
    ⟨by simp [Outline.nestedOpenings, Outline.Guarded, Outline.Plain, Branches.Plain, Token.onLine],
      by simp [Outline.nestedOpenings, Outline.Fits, Branches.Fits, Outline.marked, Branches.marked,
        Token.onLine],
      by decide⟩
  have herr : filterTokens .empty Outline.nestedOpenings.tokens =
      .error (.diagnostic (.structural ⟨"", 0, 1, 0, 0⟩ .openBlock)) :=
    hs.result_eq.trans (by cbv)
  obtain ⟨h, -, hu⟩ := filterTokens_nesting .empty he
  refine ⟨h (by decide), ?_⟩
  have hl := congrArg (Option.map (·.line)) ((hu _ herr).2 _ hs)
  rwa [Option.map_map] at hl

end HashIf
