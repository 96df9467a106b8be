import Mathlib
import HashIf.Proofs.Filter.HeaderExtent

/-! Headers read token by token. A parser reads a header through a cursor that it shares with its
caller. Every move of it asks first whether the header is over, and one that took a token at the end
of the stream would halt. The procedures below are that parser, each with a bound on the depth of
its calls. With enough depth they end as `Header.parse` and its parts do on the tokens of a header,
so no move of theirs halts so, and none goes past the header, in whatever order they are called and
however the calls before have ended. -/

namespace HashIf

/-! ## Steps that may halt -/

/-- What ends a run early: a failure that is reported, or a token taken at the end of the stream. -/
inductive Halt
  | failure (f : Failure)
  | exhausted
  deriving DecidableEq

/-- Steps on a state. They may halt in it, and they may not end. -/
abbrev Stepwise (σ : Type) := ExceptT Halt (StateT σ Option)

namespace Stepwise

variable {σ α β : Type} {m : Stepwise σ α} {s s' : σ}

/-- How steps end from a state on, and in which state; `none` if they do not. -/
def ending (m : Stepwise σ α) (s : σ) : Option (Except Halt α × σ) := (ExceptT.run m).run s

def never : Stepwise σ α := ExceptT.mk fun _ => none

def fail (f : Failure) : Stepwise σ α := throw (.failure f)

/-- Goes on behind steps that have halted too, and gives how they ended. -/
def attempt (m : Stepwise σ α) : Stepwise σ (Except Halt α) := ExceptT.mk fun s =>
  (m.ending s).map fun r => (.ok r.1, r.2)

def ofExcept : Except Failure α → Stepwise σ α
  | .ok a => pure a
  | .error f => fail f

@[simp] theorem ending_pure (a : α) : ending (pure a) s = some (.ok a, s) := rfl

@[simp] theorem ending_get : ending (σ := σ) get s = some (.ok s, s) := rfl

@[simp] theorem ending_set : ending (set s') s = some (.ok (), s') := rfl

@[simp] theorem ending_throw (h : Halt) : ending (α := α) (throw h) s = some (.error h, s) := rfl

@[simp] theorem ending_fail (f : Failure) :
    ending (α := α) (fail f) s = some (.error (.failure f), s) := rfl

@[simp] theorem ending_attempt : ending (attempt m) s =
    (ending m s).map fun r => (.ok r.1, r.2) := rfl

@[simp] theorem ending_ofExcept (r : Except Failure α) :
    ending (ofExcept r) s = some (r.mapError .failure, s) := by
  cases r <;> rfl

@[simp] theorem ending_bind (f : α → Stepwise σ β) :
    ending (m >>= f) s = (ending m s).bind fun r =>
      match r with
      | (.ok a, s) => ending (f a) s
      | (.error h, s) => some (.error h, s) := by
  show Option.bind (ending m s) _ = _
  congr 1
  funext ⟨r, s'⟩
  cases r <;> rfl

@[simp] theorem ending_map (f : α → β) :
    ending (f <$> m) s = (ending m s).map fun r =>
      match r with
      | (.ok a, s) => (.ok (f a), s)
      | (.error h, s) => (.error h, s) := by
  show Option.bind (ending m s) _ = _
  rw [Option.map_eq_bind]
  congr 1
  funext ⟨r, s'⟩
  cases r <;> rfl

theorem ending_bind_ok {f : α → Stepwise σ β} (h : ending m s = some (.ok a, s')) :
    ending (m >>= f) s = ending (f a) s' := by
  rw [ending_bind, h]
  rfl

theorem ending_bind_error {f : α → Stepwise σ β} (h : ending m s = some (.error e, s')) :
    ending (m >>= f) s = some (.error e, s') := by
  rw [ending_bind, h]
  rfl

/-- Steps with a bound on the depth of their calls end so as soon as the bound is high enough. -/
def Ends (m : Nat → Stepwise σ α) (s : σ) (r : Except Halt α × σ) : Prop :=
  ∃ n, ∀ depth, n ≤ depth → ending (m depth) s = some r

end Stepwise

/-! ## The parser -/

/-- The next token begins a line or stands for the end of the source, or there is none. -/
def Cursor.atHeaderEnd (c : Cursor) : Bool := c.atEof || c.startsLine

/-- Steps that read tokens. -/
abbrev Reading := Stepwise Cursor

namespace Reading

open Stepwise (never fail ofExcept)

/-- Moves past the next token, whatever it is. -/
def take : Reading Token := do
  match (← get).read? with
  | none => throw .exhausted
  | some (t, c) =>
    set c
    return t

/-- What takes a token is halted by the end of the stream, and by nothing else. -/
theorem ending_take_iff (c : Cursor) :
    take.ending c = some (.error .exhausted, c) ↔ c.unread = [] := by
  cases hu : c.unread with
  | nil => simp [take, Cursor.read?, hu]
  | cons t ts => simp [take, Cursor.read?, hu]

section
variable (d : Token)

def atEnd : Reading Bool := return (← get).atHeaderEnd

/-- The next token of the header; at its end one that stands for the end. -/
def peek : Reading Token := do
  let c ← get
  let stop := Header.stopToken d c.unread
  return if c.atHeaderEnd then stop else c.next?.getD stop

def demand (t : Token) (demanded : Demand) : Reading α := fail (.diagnostic (.header t demanded))

def advance : Reading Token := do
  if ← atEnd then demand (← peek d) .moreTokens else take

def accept (kinds : List Kind) : Reading (Option Token) := do
  if (← peek d).kind ∈ kinds then some <$> advance d else return none

def expect (kind : Kind) (demanded : Demand) : Reading Token := do
  let t ← peek d
  if t.kind = kind then advance d else demand t demanded

/-- The negated number; other terms stand behind no minus sign. -/
def negated : Term → Term
  | .int v => .int (-v)
  | .float x => .float x.neg
  | t => t

def operand : Nat → Reading Operand
  | 0 => never
  | depth + 1 => do
    let t ← peek d
    if t.kind = .symbol "-" then
      let _ ← advance d
      let number ← peek d
      if Header.isNumber number && number.loc.index == t.loc.index + 1 then
        return ⟨t.loc, negated (← operand depth).term⟩
      else demand number .number
    else
      match Header.operandTerm? t with
      | some term => do
        let _ ← advance d
        ofExcept (term.map (⟨t.loc, ·⟩))
      | none => demand t .operand

def simplePredicate (depth : Nat) : Reading Condition := do
  let t ← peek d
  if t.kind = .definedWord ∨ t.kind = .undefinedWord then
    let _ ← advance d
    let name ← expect d .identifier (.variableName t.lexeme)
    return if t.kind = .definedWord then .defined t.loc name.lexeme
      else .undefined t.loc name.lexeme
  else
    let lhs ← operand d depth
    let t ← peek d
    match Header.comparison? t with
    | some op => do
      let _ ← advance d
      return .compare t.loc op lhs (← operand d depth)
    | none => return .ofOperand lhs

mutual

def condition : Nat → Reading Condition
  | 0 => never
  | depth + 1 => do conditionTail depth (← conjunction depth)

def conditionTail (depth : Nat) (lhs : Condition) : Reading Condition :=
  match depth with
  | 0 => never
  | depth + 1 => do
    match ← accept d [.symbol "||"] with
    | none => return lhs
    | some op => conditionTail depth (.or op.loc lhs (← conjunction depth))

def conjunction : Nat → Reading Condition
  | 0 => never
  | depth + 1 => do conjunctionTail depth (← predicate depth)

def conjunctionTail (depth : Nat) (lhs : Condition) : Reading Condition :=
  match depth with
  | 0 => never
  | depth + 1 => do
    match ← accept d [.symbol "&&"] with
    | none => return lhs
    | some op => conjunctionTail depth (.and op.loc lhs (← predicate depth))

def predicate : Nat → Reading Condition
  | 0 => never
  | depth + 1 => do
    if (← peek d).kind = .symbol "(" then
      let _ ← advance d
      let inner ← condition depth
      let _ ← expect d (.symbol ")") .closing
      return inner
    else simplePredicate d depth

end

def parse (depth : Nat) : Reading Condition := do
  if ← atEnd then demand (← peek d) (.condition d.lexeme)
  else
    let cond ← condition d depth
    if (← accept d [.thenWord]).isNone && !(← atEnd) then demand (← peek d) .thenWord
    else return cond

end

end Reading

/-! ## Cursors in headers -/

section
variable {d stop : Token} {c : Cursor} {ts : List Token}

theorem Cursor.parseWith_eq (h : Header.ofCursor d c = ⟨ts, stop⟩)
    (step : (stop : Token) → (ts : List Token) → Parsed α ts) :
    c.parseWith d step = ((step stop ts).result, ts.length - (step stop ts).rest.length) := by
  rw [parseWith, h]

namespace Header

theorem ofCursor_of_atEnd (h : c.atHeaderEnd = true) :
    ofCursor d c = ⟨[], stopToken d c.unread⟩ := by
  obtain ⟨l, _ | ⟨t, us⟩⟩ := c
  · rfl
  · have ht : t.kind = .eof ∨ l < t.loc.line := by
      simpa [Cursor.atHeaderEnd, Cursor.atEof, Cursor.startsLine] using h
    simp [ofCursor, headerTokens, ht]

theorem ofCursor_of_not_atEnd (h : c.atHeaderEnd = false) :
    ∃ t, c.read? = some (t, c.tail) ∧ c.next? = some t ∧
      ofCursor d c = ⟨t :: (ofCursor d c.tail).tokens, (ofCursor d c.tail).stop⟩ := by
  obtain ⟨l, _ | ⟨t, us⟩⟩ := c
  · cases h
  · have ht : ¬(t.kind = .eof ∨ l < t.loc.line) := by
      simpa [Cursor.atHeaderEnd, Cursor.atEof, Cursor.startsLine] using h
    refine ⟨t, rfl, rfl, ?_⟩
    simp [ofCursor, headerTokens, ht, Cursor.tail]

theorem atEnd_iff (h : ofCursor d c = ⟨ts, stop⟩) : c.atHeaderEnd = ts.isEmpty := by
  cases he : c.atHeaderEnd with
  | true =>
    cases h.symm.trans (ofCursor_of_atEnd he)
    rfl
  | false =>
    obtain ⟨t, -, -, ht⟩ := ofCursor_of_not_atEnd (d := d) he
    cases h.symm.trans ht
    rfl

theorem ofCursor_tail (h : ofCursor d c = ⟨t :: ts, stop⟩) :
    c.read? = some (t, c.tail) ∧ ofCursor d c.tail = ⟨ts, stop⟩ := by
  obtain ⟨u, hr, -, hu⟩ := ofCursor_of_not_atEnd (d := d) (atEnd_iff h)
  cases h.symm.trans hu
  exact ⟨hr, rfl⟩

/-- Behind some of its tokens a header goes on with the others. -/
theorem ofCursor_drop (h : ofCursor d c = ⟨ts, stop⟩) (hr : rest <:+ ts) :
    ofCursor d (c.drop (ts.length - rest.length)) = ⟨rest, stop⟩ := by
  induction ts generalizing c with
  | nil => rw [List.suffix_nil.mp hr]; exact h
  | cons t ts ih =>
    rcases List.suffix_cons_iff.mp hr with rfl | hr
    · rw [Nat.sub_self]; exact h
    · rw [List.length_cons, Nat.succ_sub hr.length_le]
      exact ih (ofCursor_tail h).2 hr

/-- No token of a header begins a line or stands for the end of the source. -/
theorem not_atEnd_of_lt (h : ofCursor d c = ⟨ts, stop⟩) (hk : k < ts.length) :
    (c.drop k).atHeaderEnd = false := by
  have hd := ofCursor_drop h (List.drop_suffix k ts)
  rw [List.length_drop, Nat.sub_sub_self (Nat.le_of_lt hk)] at hd
  rw [atEnd_iff hd, List.isEmpty_eq_false_iff, Ne, List.drop_eq_nil_iff, Nat.not_le]
  exact hk

/-- The token for the end of a header is of no kind that a condition is made of. -/
theorem stop_kind (h : ofCursor d c = ⟨ts, stop⟩) : stop.kind = .eof ∨ stop.kind = .newline := by
  induction ts generalizing c with
  | cons t ts ih => exact ih (ofCursor_tail h).2
  | nil =>
    cases h.symm.trans (ofCursor_of_atEnd (atEnd_iff h))
    cases c.unread with
    | nil => exact .inl rfl
    | cons t us =>
      by_cases ht : t.kind = .eof <;> simp [stopToken, ht]

end Header

end

/-! ## Procedures and steps -/

namespace Reading

section
variable {d stop t : Token} {ts : List Token} {m : Reading α} {p : Parsed α ts}

/-- In front of the header `ts`, the end of which is `stop`, the procedure ends as the step does:
with the same result, behind as many tokens. -/
def Agrees (d stop : Token) (m : Reading α) (ts : List Token) (p : Parsed α ts) : Prop :=
  ∀ c : Cursor, Header.ofCursor d c = ⟨ts, stop⟩ →
    m.ending c = some (p.result.mapError .failure, c.drop (ts.length - p.rest.length))

namespace Agrees

theorem pure (a : α) : Agrees d stop (pure a) ts (.pure a ts) := fun c _ => by
  simp [Parsed.pure, Except.mapError]

theorem demand (t : Token) (demanded : Demand) :
    Agrees (α := α) d stop (Reading.demand t demanded) ts (.demand t demanded ts) := fun c _ => by
  simp [Reading.demand, Parsed.demand, Parsed.fail, Except.mapError]

theorem map (f : α → β) (h : Agrees d stop m ts p) : Agrees d stop (f <$> m) ts (p.map f) := by
  intro c hc
  rw [Stepwise.ending_map, h c hc]
  obtain ⟨_ | a, rest, hr⟩ := p <;> rfl

theorem andThen {f : α → Reading β} {k : α → (rest : List Token) → rest <:+ ts → Parsed β rest}
    (h : Agrees d stop m ts p) (hf : ∀ a rest hr, Agrees d stop (f a) rest (k a rest hr)) :
    Agrees d stop (m >>= f) ts (p.andThen k) := by
  intro c hc
  rw [Stepwise.ending_bind, h c hc]
  obtain ⟨e | a, rest, hr⟩ := p
  · rfl
  · refine (hf a rest hr _ (Header.ofCursor_drop hc hr)).trans ?_
    have hle := hr.length_le
    have hle' := (k a rest hr).suffix.length_le
    rw [← Cursor.drop_add]
    have hn : ts.length - rest.length + (rest.length - (k a rest hr).rest.length) =
        ts.length - (k a rest hr).rest.length := by omega
    rw [hn]
    rfl

/-- What reads no token gives what it gives to the procedure behind it. -/
theorem after {f : α → Reading β} {q : Parsed β ts} (h : Agrees d stop m ts (.pure a ts))
    (hf : Agrees d stop (f a) ts q) : Agrees d stop (m >>= f) ts q := by
  intro c hc
  rw [Stepwise.ending_bind, h c hc]
  simpa [Parsed.pure, Except.mapError] using hf c hc

theorem ofExcept (r : Except Failure α) :
    Agrees d stop (Stepwise.ofExcept r) ts ⟨r, ts, List.suffix_refl ts⟩ := fun c _ => by
  simp

/-- The token for the end of a header is none that a condition goes on with. -/
theorem of_stop (h : stop.kind = .eof ∨ stop.kind = .newline → Agrees d stop m ts p) :
    Agrees d stop m ts p := fun c hc => h (Header.stop_kind hc) c hc

theorem ite {b : Prop} [Decidable b] {m' : Reading α} {q : Parsed α ts}
    (ht : b → Agrees d stop m ts p) (hf : ¬b → Agrees d stop m' ts q) :
    Agrees d stop (if b then m else m') ts (if b then p else q) := by
  by_cases hb : b
  · rw [if_pos hb, if_pos hb]; exact ht hb
  · rw [if_neg hb, if_neg hb]; exact hf hb

end Agrees

theorem peek_agrees : Agrees d stop (peek d) ts (.pure (Header.peek stop ts) ts) := by
  intro c hc
  cases he : c.atHeaderEnd with
  | true =>
    cases hc.symm.trans (Header.ofCursor_of_atEnd he)
    simp [peek, he, Header.peek, Parsed.pure, Except.mapError]
  | false =>
    obtain ⟨t, -, hn, ht⟩ := Header.ofCursor_of_not_atEnd (d := d) he
    cases hc.symm.trans ht
    simp [peek, he, hn, Header.peek, Parsed.pure, Except.mapError]

theorem atEnd_agrees : Agrees d stop atEnd ts (.pure ts.isEmpty ts) := fun c hc => by
  simp [atEnd, Header.atEnd_iff hc, Parsed.pure, Except.mapError]

theorem Agrees.peek {f : Token → Reading α} (h : Agrees d stop (f (Header.peek stop ts)) ts p) :
    Agrees d stop (Reading.peek d >>= f) ts p := .after peek_agrees h

theorem Agrees.atEnd {f : Bool → Reading α} (h : Agrees d stop (f ts.isEmpty) ts p) :
    Agrees d stop (Reading.atEnd >>= f) ts p := .after atEnd_agrees h

theorem ending_advance {c : Cursor} (h : Header.ofCursor d c = ⟨t :: ts, stop⟩) :
    (advance d).ending c = some (.ok t, c.tail) := by
  have hr := (Header.ofCursor_tail h).1
  simp [advance, atEnd, Header.atEnd_iff h, take, hr]

/-- What moves past the next token goes on behind it. -/
theorem Agrees.move {m : Reading α} {f : α → Reading β} {q : Parsed β ts}
    (hm : ∀ c, Header.ofCursor d c = ⟨t :: ts, stop⟩ → m.ending c = some (.ok a, c.tail))
    (h : Agrees d stop (f a) ts q) : Agrees d stop (m >>= f) (t :: ts) (q.behind t) := by
  intro c hc
  rw [Stepwise.ending_bind, hm c hc]
  refine (h c.tail (Header.ofCursor_tail hc).2).trans ?_
  have hn : (t :: ts).length - q.rest.length = ts.length - q.rest.length + 1 :=
    Nat.succ_sub q.suffix.length_le
  rw [Parsed.behind, hn]
  rfl

theorem Agrees.behind {f : Token → Reading β} {q : Parsed β ts} (h : Agrees d stop (f t) ts q) :
    Agrees d stop (advance d >>= f) (t :: ts) (q.behind t) := .move (fun _ => ending_advance) h

theorem advance_agrees : Agrees d stop (advance d) ts (Header.advance stop ts) := by
  cases ts with
  | nil => exact .atEnd (.peek (.demand stop .moreTokens))
  | cons t ts =>
    intro c hc
    rw [ending_advance hc]
    simp [Header.advance, Parsed.behind, Parsed.pure, Except.mapError, Cursor.drop]

theorem accept_agrees {kinds : List Kind} :
    Agrees d stop (accept d kinds) ts (Header.accept stop kinds ts) :=
  .peek (.ite (fun _ => .map some advance_agrees) fun _ => .pure none)

/-- What finds the token that it asks for goes on behind it. -/
theorem Agrees.accepted {kind : Kind} {f : Option Token → Reading β} {q : Parsed β ts}
    (ht : t.kind = kind) (h : Agrees d stop (f (some t)) ts q) :
    Agrees d stop (accept d [kind] >>= f) (t :: ts) (q.behind t) := by
  refine .move (fun c hc => ?_) h
  have ha := (accept_agrees : Agrees d stop (accept d [kind]) (t :: ts) _) c hc
  rwa [Header.accept, if_pos (by simp [Header.peek, ht]), Header.advance, Parsed.behind, Parsed.map,
    Parsed.pure, List.length_cons, Nat.add_sub_cancel_left] at ha

theorem Agrees.refused {kind : Kind} {f : Option Token → Reading β} {q : Parsed β ts}
    (ht : (Header.peek stop ts).kind ≠ kind) (h : Agrees d stop (f none) ts q) :
    Agrees d stop (accept d [kind] >>= f) ts q := by
  have ha : Agrees d stop (accept d [kind]) ts (Header.accept stop [kind] ts) := accept_agrees
  rw [Header.accept, if_neg (by simp [ht])] at ha
  exact .after ha h

theorem expect_agrees {kind : Kind} {demanded : Demand} :
    Agrees d stop (expect d kind demanded) ts (Header.expect stop kind demanded ts) :=
  .peek (.ite (fun _ => advance_agrees) fun _ => .demand _ demanded)

theorem stop_kind_ne {kind : Kind} (hs : stop.kind = .eof ∨ stop.kind = .newline)
    (he : kind ≠ .eof) (hn : kind ≠ .newline) : stop.kind ≠ kind := by
  rcases hs with hs | hs
  · rw [hs]; exact he.symm
  · rw [hs]; exact hn.symm

/-! ## Operands -/

theorem negated_numberTerm (t : Token) :
    (Header.numberTerm false t).map negated = Header.numberTerm true t := by
  unfold Header.numberTerm
  by_cases hk : t.kind = .integer
  · rw [if_pos hk, if_pos hk]
    cases integerOfNumeral? t.lexeme <;> rfl
  · rw [if_neg hk, if_neg hk]
    cases binary64OfNumeral? t.lexeme <;> rfl

theorem plainOperand_agrees (ht : t.kind ≠ .symbol "-") :
    Agrees d stop (operand d (depth + 1)) (t :: ts) (Header.operand stop (t :: ts)) := by
  refine .peek (.ite (fun h => absurd h ht) fun _ => ?_)
  show Agrees d stop (match Header.operandTerm? t with | some term => _ | none => _) (t :: ts) _
  cases Header.operandTerm? t with
  | none => exact .demand t .operand
  | some term => exact .behind (q := ⟨_, ts, List.suffix_refl ts⟩) (.ofExcept _)

/-- A number in a header is read as an operand by itself. -/
theorem operand_of_isNumber (stop t : Token) (ts : List Token) (h : Header.isNumber t = true) :
    t.kind ≠ .symbol "-" ∧ Header.operand stop (t :: ts) =
      ⟨(Header.numberTerm false t).map (⟨t.loc, ·⟩), ts, List.suffix_cons t ts⟩ := by
  have hk : t.kind = .integer ∨ t.kind = .float := by simpa [Header.isNumber] using h
  rcases hk with hk | hk <;> simp [Header.operand, Header.operandTerm?, hk]

theorem negatedNumber_agrees {minus : Token} :
    Agrees d stop (Reading.peek d >>= fun number =>
        if Header.isNumber number && number.loc.index == minus.loc.index + 1 then do
          return ⟨minus.loc, negated (← operand d (depth + 1)).term⟩
        else Reading.demand number .number) ts (Header.negatedNumber stop minus ts) := by
  refine .of_stop fun hs => .peek (.ite (fun h => ?_) fun _ => .demand _ .number)
  have hn := (Bool.and_eq_true_iff.mp h).1
  cases ts with
  | nil => rcases hs with hs | hs <;> simp [Header.isNumber, Header.peek, hs] at hn
  | cons u us =>
    obtain ⟨hu, ho⟩ := operand_of_isNumber stop u us hn
    have hp : Agrees d stop (operand d (depth + 1)) (u :: us) (Header.operand stop (u :: us)) :=
      plainOperand_agrees hu
    rw [ho] at hp
    replace hp := hp.map fun a => (⟨minus.loc, negated a.term⟩ : Operand)
    show Agrees d stop _ (u :: us) ⟨(Header.numberTerm true u).map _, us, _⟩
    rw [← negated_numberTerm]
    cases hr : Header.numberTerm false u <;> rw [hr] at hp <;> exact hp

theorem operand_agrees (hd : 2 ≤ depth) :
    Agrees d stop (operand d depth) ts (Header.operand stop ts) := by
  obtain ⟨depth, rfl⟩ := Nat.exists_eq_add_of_le' hd
  cases ts with
  | cons t ts =>
    by_cases ht : t.kind = .symbol "-"
    · exact .peek (.ite (fun _ => .behind negatedNumber_agrees) fun h => absurd ht h)
    · exact plainOperand_agrees ht
  | nil =>
    refine .of_stop fun hs => .peek ?_
    have ho : Header.operandTerm? stop = none ∧ stop.kind ≠ .symbol "-" := by
      rcases hs with hs | hs <;> simp [Header.operandTerm?, hs]
    show Agrees d stop (if stop.kind = _ then _ else match Header.operandTerm? stop with
      | some term => _ | none => _) [] _
    rw [if_neg ho.2, ho.1]
    exact .demand stop .operand

/-! ## Conditions -/

theorem comparisonTail_agrees {lhs : Operand} (hd : 2 ≤ depth) :
    Agrees d stop (Reading.peek d >>= fun t =>
        match Header.comparison? t with
        | some op => do
          let _ ← advance d
          return .compare t.loc op lhs (← operand d depth)
        | none => return .ofOperand lhs) ts (Header.comparisonTail stop lhs ts) := by
  refine .of_stop fun hs => .peek ?_
  cases ts with
  | nil =>
    have hc : Header.comparison? stop = none := by
      rcases hs with hs | hs <;> simp [Header.comparison?, hs]
    show Agrees d stop (match Header.comparison? stop with | some op => _ | none => _) [] _
    rw [hc]
    exact .pure _
  | cons t ts =>
    show Agrees d stop (match Header.comparison? t with | some op => _ | none => _) (t :: ts)
      (match Header.comparison? t with | some op => _ | none => _)
    cases Header.comparison? t with
    | none => exact .pure _
    | some op => exact .behind (.map _ (operand_agrees hd))

theorem simplePredicate_agrees (hd : 2 ≤ depth) :
    Agrees d stop (simplePredicate d depth) ts (Header.simplePredicate stop ts) := by
  refine .of_stop fun hs => .peek ?_
  cases ts with
  | nil =>
    have hw : ¬(stop.kind = .definedWord ∨ stop.kind = .undefinedWord) := by
      rcases hs with hs | hs <;> simp [hs]
    show Agrees d stop (if stop.kind = _ ∨ stop.kind = _ then _ else _) [] _
    rw [if_neg hw]
    exact (operand_agrees hd).andThen fun lhs rest _ => comparisonTail_agrees hd
  | cons t ts =>
    show Agrees d stop (if t.kind = _ ∨ t.kind = _ then _ else _) (t :: ts)
      (if t.kind = _ then _ else if t.kind = _ then _ else _)
    by_cases hdef : t.kind = .definedWord
    · rw [if_pos (.inl hdef), if_pos hdef]
      simp only [Header.peek, List.headD_cons, hdef, ↓reduceIte]
      exact .behind (.map _ expect_agrees)
    by_cases hundef : t.kind = .undefinedWord
    · rw [if_pos (.inr hundef), if_neg hdef, if_pos hundef]
      simp only [Header.peek, List.headD_cons, hdef, ↓reduceIte]
      exact .behind (.map _ expect_agrees)
    · rw [if_neg (not_or.mpr ⟨hdef, hundef⟩), if_neg hdef, if_neg hundef]
      exact (operand_agrees hd).andThen fun lhs rest _ => comparisonTail_agrees hd

mutual

theorem condition_agrees (depth : Nat) (ts : List Token) (hd : ts.length * 5 + 5 ≤ depth) :
    Agrees d stop (condition d depth) ts (Header.condition stop ts) := by
  cases depth with
  | zero => cases hd
  | succ depth =>
    rw [condition, Header.condition]
    refine (conjunction_agrees depth ts (by omega)).andThen fun lhs rest h => ?_
    have := h.length_le
    exact conditionTail_agrees depth lhs rest (by omega)

theorem conditionTail_agrees (depth : Nat) (lhs : Condition) (ts : List Token)
    (hd : ts.length * 5 + 1 ≤ depth) :
    Agrees d stop (conditionTail d depth lhs) ts (Header.conditionTail stop lhs ts) := by
  cases depth with
  | zero => cases hd
  | succ depth =>
    rw [conditionTail]
    refine .of_stop fun hs => ?_
    cases ts with
    | nil =>
      rw [Header.conditionTail]
      exact .refused (stop_kind_ne hs nofun nofun) (.pure lhs)
    | cons t ts =>
      rw [List.length_cons] at hd
      rw [Header.conditionTail]
      by_cases ht : t.kind = .symbol "||"
      · rw [if_pos ht]
        refine .accepted ht ((conjunction_agrees depth ts (by omega)).andThen fun rhs rest h => ?_)
        have := h.length_le
        exact conditionTail_agrees depth _ rest (by omega)
      · rw [if_neg ht]
        exact .refused ht (.pure lhs)

theorem conjunction_agrees (depth : Nat) (ts : List Token) (hd : ts.length * 5 + 4 ≤ depth) :
    Agrees d stop (conjunction d depth) ts (Header.conjunction stop ts) := by
  cases depth with
  | zero => cases hd
  | succ depth =>
    rw [conjunction, Header.conjunction]
    refine (predicate_agrees depth ts (by omega)).andThen fun lhs rest h => ?_
    have := h.length_le
    exact conjunctionTail_agrees depth lhs rest (by omega)

theorem conjunctionTail_agrees (depth : Nat) (lhs : Condition) (ts : List Token)
    (hd : ts.length * 5 + 1 ≤ depth) :
    Agrees d stop (conjunctionTail d depth lhs) ts (Header.conjunctionTail stop lhs ts) := by
  cases depth with
  | zero => cases hd
  | succ depth =>
    rw [conjunctionTail]
    refine .of_stop fun hs => ?_
    cases ts with
    | nil =>
      rw [Header.conjunctionTail]
      exact .refused (stop_kind_ne hs nofun nofun) (.pure lhs)
    | cons t ts =>
      rw [List.length_cons] at hd
      rw [Header.conjunctionTail]
      by_cases ht : t.kind = .symbol "&&"
      · rw [if_pos ht]
        refine .accepted ht ((predicate_agrees depth ts (by omega)).andThen fun rhs rest h => ?_)
        have := h.length_le
        exact conjunctionTail_agrees depth _ rest (by omega)
      · rw [if_neg ht]
        exact .refused ht (.pure lhs)

theorem predicate_agrees (depth : Nat) (ts : List Token) (hd : ts.length * 5 + 3 ≤ depth) :
    Agrees d stop (predicate d depth) ts (Header.predicate stop ts) := by
  cases depth with
  | zero => cases hd
  | succ depth =>
    rw [predicate]
    refine .of_stop fun hs => .peek ?_
    cases ts with
    | nil =>
      rw [Header.predicate]
      have hp : stop.kind ≠ .symbol "(" := stop_kind_ne hs nofun nofun
      show Agrees d stop (if stop.kind = _ then _ else _) [] _
      rw [if_neg hp]
      exact simplePredicate_agrees (Nat.le_of_succ_le_succ hd)
    | cons t ts =>
      rw [List.length_cons] at hd
      rw [Header.predicate]
      refine .ite (fun _ => .behind ?_) fun _ => simplePredicate_agrees (by omega)
      exact (condition_agrees depth ts (by omega)).andThen fun inner rest _ => .map _ expect_agrees

end

theorem parse_agrees (hd : ts.length * 5 + 5 ≤ depth) :
    Agrees d stop (parse d depth) ts (Header.parse stop d ts) := by
  refine .atEnd (.ite (fun h => .peek ?_) fun _ => ?_)
  · rw [List.isEmpty_iff.mp h]
    exact .demand stop _
  refine (condition_agrees depth ts hd).andThen fun cond rest _ => .of_stop fun hs => ?_
  cases rest with
  | nil => exact .refused (stop_kind_ne hs nofun nofun) (.atEnd (.pure cond))
  | cons t rest =>
    show Agrees d stop _ (t :: rest) (if t.kind = .thenWord then _ else _)
    by_cases ht : t.kind = .thenWord
    · rw [if_pos ht]
      exact .accepted ht (.atEnd (.pure cond))
    · rw [if_neg ht]
      exact .refused ht (.atEnd (.peek (.demand t .thenWord)))

end

end Reading

/-! ## Calls

The procedures in any order on one cursor. -/

inductive HeaderCall
  | peek
  | advance
  | accept (kinds : List Kind)
  | expect (kind : Kind) (demanded : Demand)
  | atEnd
  | parse
  | condition
  | conjunction
  | predicate
  | operand

inductive HeaderAnswer
  | token (t : Token)
  | token? (t : Option Token)
  | bool (b : Bool)
  | condition (cond : Condition)
  | operand (a : Operand)

namespace HeaderCall

def reading (d : Token) (depth : Nat) : HeaderCall → Reading HeaderAnswer
  | peek => .token <$> Reading.peek d
  | advance => .token <$> Reading.advance d
  | accept kinds => .token? <$> Reading.accept d kinds
  | expect kind demanded => .token <$> Reading.expect d kind demanded
  | atEnd => .bool <$> Reading.atEnd
  | parse => .condition <$> Reading.parse d depth
  | condition => .condition <$> Reading.condition d depth
  | conjunction => .condition <$> Reading.conjunction d depth
  | predicate => .condition <$> Reading.predicate d depth
  | operand => .operand <$> Reading.operand d depth

/-- The step of parsing that a call is. -/
def step (d : Token) (call : HeaderCall) (stop : Token) (ts : List Token) :
    Parsed HeaderAnswer ts :=
  match call with
  | peek => .pure (.token (Header.peek stop ts)) ts
  | advance => (Header.advance stop ts).map .token
  | accept kinds => (Header.accept stop kinds ts).map .token?
  | expect kind demanded => (Header.expect stop kind demanded ts).map .token
  | atEnd => .pure (.bool ts.isEmpty) ts
  | parse => (Header.parse stop d ts).map .condition
  | condition => (Header.condition stop ts).map .condition
  | conjunction => (Header.conjunction stop ts).map .condition
  | predicate => (Header.predicate stop ts).map .condition
  | operand => (Header.operand stop ts).map .operand

theorem agrees (call : HeaderCall) (hd : ts.length * 5 + 5 ≤ depth) :
    Reading.Agrees d stop (call.reading d depth) ts (call.step d stop ts) := by
  cases call with
  | peek => exact Reading.peek_agrees.map HeaderAnswer.token
  | advance => exact Reading.advance_agrees.map _
  | accept kinds => exact Reading.accept_agrees.map _
  | expect kind demanded => exact Reading.expect_agrees.map _
  | atEnd => exact Reading.atEnd_agrees.map HeaderAnswer.bool
  | parse => exact (Reading.parse_agrees hd).map _
  | condition => exact (Reading.condition_agrees depth ts hd).map _
  | conjunction => exact (Reading.conjunction_agrees depth ts (by omega)).map _
  | predicate => exact (Reading.predicate_agrees depth ts (by omega)).map _
  | operand => exact (Reading.operand_agrees (by omega)).map _

/-- The calls one after another, each from where the one before it ended. -/
def run (d : Token) (depth : Nat) : List HeaderCall → Reading (List (Except Halt HeaderAnswer))
  | [] => return []
  | call :: calls => do
    let r ← Stepwise.attempt (call.reading d depth)
    return r :: (← run d depth calls)

/-- The same calls by the steps on headers. -/
def answers (d : Token) : List HeaderCall → Cursor → List (Except Failure HeaderAnswer) × Cursor
  | [], c => ([], c)
  | call :: calls, c =>
    let (r, n) := c.parseWith d (call.step d)
    let (rs, c) := answers d calls (c.drop n)
    (r :: rs, c)

/-- However many calls there are, they stay within the header in front of the first. -/
theorem answers_within (d : Token) (calls : List HeaderCall) {c : Cursor}
    (hc : Header.ofCursor d c = ⟨ts, stop⟩) :
    ∃ n ≤ ts.length, (answers d calls c).2 = c.drop n := by
  induction calls generalizing c ts with
  | nil => exact ⟨0, Nat.zero_le _, rfl⟩
  | cons call calls ih =>
    have hs := (call.step d stop ts).suffix
    have hle := hs.length_le
    obtain ⟨n, hn, he⟩ := ih (Header.ofCursor_drop hc hs)
    refine ⟨ts.length - (call.step d stop ts).rest.length + n, by omega, ?_⟩
    rw [Cursor.drop_add, ← he, answers, Cursor.parseWith_eq hc]

theorem ending_run (d : Token) (calls : List HeaderCall) {c : Cursor}
    (hc : Header.ofCursor d c = ⟨ts, stop⟩) (hd : ts.length * 5 + 5 ≤ depth) :
    (run d depth calls).ending c =
      some (.ok ((answers d calls c).1.map (·.mapError .failure)), (answers d calls c).2) := by
  induction calls generalizing c ts with
  | nil => rfl
  | cons call calls ih =>
    have hs := (call.step d stop ts).suffix
    have hle := hs.length_le
    have hcall := agrees call hd c hc
    have hr := ih (Header.ofCursor_drop hc hs) (by omega)
    rw [answers, Cursor.parseWith_eq hc]
    simp [run, hcall, hr]

end HeaderCall

end HashIf
