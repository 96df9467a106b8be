import HashIf.Proofs.Filter.Outline

/-! Traces: what a pass does on a stream with a given outline, in the order of the stream. A
segment that is dropped leaves nothing in the trace, whatever stands in it. -/

namespace HashIf

/-! ## Queries -/

/-- A condition as a pass meets it: its marker and its header. -/
structure Query where
  marker : Token
  header : Header

namespace Query

def behind (marker : Token) (ts : List Token) : Query :=
  ⟨marker, .ofCursor marker ⟨marker.lastLine, ts⟩⟩

/-- The condition of a marker in front of a segment. The header ends before the segment does, so
besides the segment only the token behind it matters. -/
def ofSegment (marker : Token) (body : Outline) (next : Branches) : Query :=
  behind marker (body.tokens ++ next.first?.toList)

variable (env : Environment) (q : Query)

def parsed : Parsed Condition q.header.tokens :=
  Header.parse q.header.stop q.marker q.header.tokens

/-- The number of tokens of the header that are read. -/
def length : Nat := q.header.tokens.length - q.parsed.rest.length

def truth : Except Failure Bool :=
  match q.parsed.result with
  | .error f => .error f
  | .ok cond => cond.evaluate env

def holds : Bool :=
  match q.truth env with
  | .error _ => false
  | .ok b => b

/-- Why the condition has no truth. -/
def failure? : Option Failure :=
  match q.truth env with
  | .error f => some f
  | .ok _ => none

end Query

/-! ## Events -/

inductive Event
  | keep (t : Token)
  | consult (q : Query)
  | fault (loc : Location) (f : StructureFault)

namespace Event

def token? : Event → Option Token
  | keep t => some t
  | _ => none

def query? : Event → Option Query
  | consult q => some q
  | _ => none

def fault? : Event → Option (Location × StructureFault)
  | fault loc f => some (loc, f)
  | _ => none

end Event

/-- What is met behind a segment that has been kept: no segment is kept and no condition consulted
any more, but the order of the markers is still checked. -/
def Branches.later (opener : Location) : (elseMet : Bool) → Branches → List Event
  | _, .close _ => []
  | _, .cut _ => [.fault opener .openBlock]
  | elseMet, .orIf t _ more =>
    (if elseMet then [.fault t.loc .elifAfterElse] else []) ++ more.later opener elseMet
  | elseMet, .orElse t _ more =>
    (if elseMet then [.fault t.loc .repeatedElse] else []) ++ more.later opener true

section
variable (env : Environment)

mutual

/-- The trace of an outline without its first `skipped` tokens, as if nothing failed. -/
def Outline.events : (skipped : Nat) → Outline → List Event
  | _, .done => []
  | 0, .token t rest => .keep t :: rest.events 0
  | skipped + 1, .token _ rest => rest.events skipped
  | _, .block opener body branches rest =>
    let q := Query.ofSegment opener body branches
    .consult q :: ((if q.holds env then
      body.events q.length ++ branches.later opener.loc false
      else branches.events opener.loc) ++ rest.events 0)

/-- The trace of the branches of a block no segment of which has been kept. -/
def Branches.events (opener : Location) : Branches → List Event
  | .close _ => []
  | .cut _ => [.fault opener .openBlock]
  | .orIf t body more =>
    let q := Query.ofSegment t body more
    .consult q :: (if q.holds env then body.events q.length ++ more.later opener false
      else more.events opener)
  | .orElse _ body more => body.events 0 ++ more.later opener true

end

end

/-! ## Outcomes -/

/-- What a pass brings: the tokens kept, and the failure that ended it if one did. -/
structure Outcome where
  tokens : List Token
  failure : Option Failure

namespace Outcome

def empty : Outcome := ⟨[], none⟩

/-- One outcome and then, if nothing failed, another. -/
def andThen (o p : Outcome) : Outcome :=
  match o.failure with
  | some _ => o
  | none => ⟨o.tokens ++ p.tokens, p.failure⟩

def result (o : Outcome) : Except Failure (List Token) :=
  match o.failure with
  | some f => .error f
  | none => .ok o.tokens

@[simp] theorem empty_andThen (o : Outcome) : empty.andThen o = o := rfl

@[simp] theorem andThen_empty (o : Outcome) : o.andThen empty = o := by
  obtain ⟨ts, _ | f⟩ := o
  · exact congrArg (Outcome.mk · none) (List.append_nil ts)
  · rfl

theorem andThen_assoc (o p q : Outcome) : (o.andThen p).andThen q = o.andThen (p.andThen q) := by
  obtain ⟨ts, _ | f⟩ := o
  · obtain ⟨us, _ | g⟩ := p
    · exact congrArg (Outcome.mk · q.failure) (List.append_assoc ts us q.tokens)
    · rfl
  · rfl

end Outcome

theorem Outcome.result_eq_error {o : Outcome} : o.result = .error f ↔ o.failure = some f := by
  obtain ⟨ts, _ | g⟩ := o
  · simp [result]
  · simp [result]

theorem Outcome.result_eq_ok {o : Outcome} : o.result = .ok ts ↔ o = ⟨ts, none⟩ := by
  obtain ⟨us, _ | g⟩ := o
  · simp [result]
  · simp [result]

def Event.outcome (env : Environment) : Event → Outcome
  | keep t => ⟨[t], none⟩
  | consult q => ⟨[], q.failure? env⟩
  | fault loc f => ⟨[], some (.diagnostic (.structural loc f))⟩

/-- What a trace brings: its events happen in order, up to the first that fails. -/
def outcome (env : Environment) : List Event → Outcome
  | [] => .empty
  | e :: es => (e.outcome env).andThen (outcome env es)

section
variable {env : Environment}

@[simp] theorem outcome_nil : outcome env [] = .empty := rfl

@[simp] theorem outcome_cons (e : Event) (es : List Event) :
    outcome env (e :: es) = (e.outcome env).andThen (outcome env es) := rfl

@[simp] theorem outcome_append (es fs : List Event) :
    outcome env (es ++ fs) = (outcome env es).andThen (outcome env fs) := by
  induction es with
  | nil => rfl
  | cons e es ih => rw [List.cons_append, outcome_cons, outcome_cons, ih, Outcome.andThen_assoc]

end

/-- The tokens that a trace keeps if nothing in it fails. -/
def keptOf (es : List Event) : List Token := es.filterMap Event.token?

/-- The conditions that a trace consults up to its first fault of structure. -/
def consultedOf (es : List Event) : List Query :=
  (es.takeWhile fun e => e.fault?.isNone).filterMap Event.query?

def faultsOf (es : List Event) : List (Location × StructureFault) := es.filterMap Event.fault?

@[simp] theorem keptOf_consult (q : Query) (es : List Event) :
    keptOf (.consult q :: es) = keptOf es := rfl

@[simp] theorem faultsOf_consult (q : Query) (es : List Event) :
    faultsOf (.consult q :: es) = faultsOf es := rfl

@[simp] theorem keptOf_append (es fs : List Event) : keptOf (es ++ fs) = keptOf es ++ keptOf fs :=
  List.filterMap_append

@[simp] theorem faultsOf_append (es fs : List Event) :
    faultsOf (es ++ fs) = faultsOf es ++ faultsOf fs := List.filterMap_append

/-- The conditions have a truth. -/
def Decided (env : Environment) (qs : List Query) : Prop := ∀ q ∈ qs, ∃ b, q.truth env = .ok b

/-- The failure for a fault of structure. -/
def structuralFailure (x : Location × StructureFault) : Failure := .diagnostic (.structural x.1 x.2)

section
variable {env : Environment} {es : List Event}

theorem Query.failure?_of_truth {q : Query} (h : q.truth env = .ok b) : q.failure? env = none := by
  rw [failure?, h]

/-- A trace that does not fail brings all tokens that it keeps. -/
theorem outcome_tokens (h : (outcome env es).failure = none) :
    (outcome env es).tokens = keptOf es := by
  induction es with
  | nil => rfl
  | cons e es ih =>
    rw [outcome_cons] at h ⊢
    cases e with
    | keep t => exact congrArg (t :: ·) (ih h)
    | fault loc f => cases h
    | consult q =>
      simp only [Event.outcome] at h ⊢
      cases hq : q.failure? env with
      | some f => rw [hq] at h; cases h
      | none => rw [hq] at h; exact ih h

/-- A trace whose conditions all have a truth fails at its first fault of structure. -/
theorem outcome_failure (h : Decided env (consultedOf es)) :
    (outcome env es).failure = (faultsOf es).head?.map structuralFailure := by
  induction es with
  | nil => rfl
  | cons e es ih =>
    rw [outcome_cons]
    cases e with
    | keep t => exact ih h
    | fault loc f => rfl
    | consult q =>
      obtain ⟨b, hq⟩ := h q List.mem_cons_self
      rw [Event.outcome, Query.failure?_of_truth hq]
      exact ih fun q' hq' => h q' (List.mem_cons_of_mem _ hq')

theorem outcome_failure_ne_none (h : faultsOf es ≠ []) : (outcome env es).failure ≠ none := by
  induction es with
  | nil => exact (h rfl).elim
  | cons e es ih =>
    rw [outcome_cons]
    cases e with
    | keep t => exact ih h
    | fault loc f => exact Option.some_ne_none _
    | consult q =>
      simp only [Event.outcome]
      cases q.failure? env with
      | some f => exact Option.some_ne_none f
      | none => exact ih h

end

end HashIf
