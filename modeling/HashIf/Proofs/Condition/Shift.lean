import HashIf.Condition.Evaluation
import HashIf.Condition.Header
import HashIf.Proofs.Source.Concatenation

/-! Conditions further down: a header that is moved is read and evaluated as where it was, only that
all places are moved along. No step of parsing compares a place with anything but another place. -/

namespace HashIf

/-! ## Moved data -/

def Operand.shift (s : Shift) (a : Operand) : Operand := { a with loc := a.loc.shift s }

def Condition.shift (s : Shift) : Condition → Condition
  | and loc lhs rhs => and (loc.shift s) (lhs.shift s) (rhs.shift s)
  | or loc lhs rhs => or (loc.shift s) (lhs.shift s) (rhs.shift s)
  | compare loc op lhs rhs => compare (loc.shift s) op (lhs.shift s) (rhs.shift s)
  | defined loc name => defined (loc.shift s) name
  | undefined loc name => undefined (loc.shift s) name

def Diagnostic.shift (s : Shift) : Diagnostic → Diagnostic
  | lexical e => lexical { e with loc := e.loc.shift s }
  | header found d => header (found.shift s) d
  | structural loc f => structural (loc.shift s) f
  | operands loc op lhs rhs => operands (loc.shift s) op lhs rhs
  | unbound loc name => unbound (loc.shift s) name
  | illegalVersion loc text => illegalVersion (loc.map (Location.shift s)) text
  | emptyRange loc => emptyRange (loc.map (Location.shift s))

def Failure.shift (s : Shift) : Failure → Failure
  | diagnostic d => .diagnostic (d.shift s)
  | limit l => .limit l

/-- An answer further down: the value as `g` moves it, or the failure at its place. -/
def moved (s : Shift) (g : α → β) : Except Failure α → Except Failure β
  | .ok a => .ok (g a)
  | .error f => .error (f.shift s)

/-! ## Moved steps -/

namespace Parsed

variable {α β α' β' : Type} {ts us : List Token} {s : Shift} {g : α → α'} {g' : β → β'}

/-- The second step does further down what the first one does: its answer is moved, and so are the
tokens that it leaves. -/
def Moved (s : Shift) (g : α → α') (p : Parsed α ts) (q : Parsed α' us) : Prop :=
  q.result = moved s g p.result ∧ q.rest = p.rest.map (Token.shift s)

namespace Moved

theorem pure {a : α} : Moved s g (.pure a ts) (.pure (g a) (ts.map (Token.shift s))) := ⟨rfl, rfl⟩

theorem demand : Moved s g (.demand t d ts) (.demand (t.shift s) d (ts.map (Token.shift s))) :=
  ⟨rfl, rfl⟩

theorem behind {p : Parsed α ts} {q : Parsed α' us} (h : Moved s g p q) :
    Moved s g (p.behind t) (q.behind (t.shift s)) := h

theorem map {p : Parsed α ts} {q : Parsed α' us} {f : α → β} {f' : α' → β'}
    (h : Moved s g p q) (hf : ∀ a, f' (g a) = g' (f a)) : Moved s g' (p.map f) (q.map f') := by
  refine ⟨?_, h.2⟩
  rw [Parsed.map, h.1, Parsed.map]
  cases p.result with
  | ok a => exact congrArg Except.ok (hf a)
  | error f => rfl

theorem andThen {p : Parsed α ts} {q : Parsed α' us}
    {k : α → (rest : List Token) → rest <:+ ts → Parsed β rest}
    {k' : α' → (rest : List Token) → rest <:+ us → Parsed β' rest}
    (h : Moved s g p q)
    (hk : ∀ a rest hs hs', Moved s g' (k a rest hs) (k' (g a) (rest.map (Token.shift s)) hs')) :
    Moved s g' (p.andThen k) (q.andThen k') := by
  obtain ⟨r, rest, hs⟩ := p
  obtain ⟨r', rest', hs'⟩ := q
  obtain ⟨rfl, rfl⟩ := h
  cases r with
  | ok a => exact hk a rest hs hs'
  | error f => exact ⟨rfl, rfl⟩

theorem ite {c c' : Prop} [Decidable c] [Decidable c'] {p p' : Parsed α ts}
    {q q' : Parsed α' us} (hc : c' ↔ c) (ht : Moved s g p q)
    (hf : Moved s g p' q') : Moved s g (if c then p else p') (if c' then q else q') := by
  by_cases h : c
  · rw [if_pos h, if_pos (hc.mpr h)]
    exact ht
  · rw [if_neg h, if_neg (mt hc.mp h)]
    exact hf

end Moved

end Parsed

/-! ## Parsing -/

namespace Header

open Parsed (Moved)

variable {s : Shift} {stop : Token} {ts : List Token}

theorem peek_shift : peek (stop.shift s) (ts.map (Token.shift s)) = (peek stop ts).shift s := by
  cases ts <;> rfl

theorem advance_moved : Moved s (Token.shift s) (advance stop ts)
    (advance (stop.shift s) (ts.map (Token.shift s))) := by
  cases ts with
  | nil => exact .demand
  | cons t ts => exact ⟨rfl, rfl⟩

theorem expect_moved {kind : Kind} : Moved s (Token.shift s) (expect stop kind d ts)
    (expect (stop.shift s) kind d (ts.map (Token.shift s))) := by
  unfold expect
  rw [peek_shift]
  exact .ite Iff.rfl advance_moved .demand

theorem numberTerm_shift (negative : Bool) (t : Token) :
    numberTerm negative (t.shift s) = moved s id (numberTerm negative t) := by
  unfold numberTerm
  by_cases h : t.kind = .integer
  · rw [if_pos h, if_pos (show (t.shift s).kind = .integer from h), Token.lexeme_shift]
    cases integerOfNumeral? t.lexeme <;> rfl
  · rw [if_neg h, if_neg (show (t.shift s).kind ≠ .integer from h), Token.lexeme_shift]
    cases binary64OfNumeral? t.lexeme <;> rfl

theorem negatedNumber_moved {minus : Token} : Moved s (Operand.shift s)
    (negatedNumber stop minus ts)
    (negatedNumber (stop.shift s) (minus.shift s) (ts.map (Token.shift s))) := by
  unfold negatedNumber
  rw [peek_shift]
  refine .ite ?_ (.andThen advance_moved fun t rest _ _ => ⟨?_, rfl⟩) .demand
  · have hi : ((peek stop ts).shift s).loc.index = (minus.shift s).loc.index + 1 ↔
        (peek stop ts).loc.index = minus.loc.index + 1 := by
      simp only [Token.loc_shift, Location.shift]
      omega
    simp only [Bool.and_eq_true, beq_iff_eq, hi]
    rfl
  · dsimp only
    rw [numberTerm_shift]
    cases numberTerm true t <;> rfl

theorem operandTerm?_shift (t : Token) :
    operandTerm? (t.shift s) = (operandTerm? t).map (moved s id) := by
  simp only [operandTerm?, Token.kind_shift, Token.lexeme_shift, numberTerm_shift]
  cases t.kind with
  | string => cases unescape t.lexeme <;> rfl
  | _ => rfl

theorem operand_moved : Moved s (Operand.shift s) (operand stop ts)
    (operand (stop.shift s) (ts.map (Token.shift s))) := by
  cases ts with
  | nil => exact .demand
  | cons t ts =>
    refine .ite Iff.rfl negatedNumber_moved.behind ?_
    rw [operandTerm?_shift]
    cases operandTerm? t with
    | none => exact .demand
    | some term => cases term <;> exact ⟨rfl, rfl⟩

theorem comparisonTail_moved {lhs : Operand} : Moved s (Condition.shift s)
    (comparisonTail stop lhs ts)
    (comparisonTail (stop.shift s) (lhs.shift s) (ts.map (Token.shift s))) := by
  cases ts with
  | nil => exact .pure
  | cons t ts =>
    have hc : comparison? (t.shift s) = comparison? t := rfl
    rw [List.map_cons, comparisonTail, comparisonTail, hc]
    cases comparison? t with
    | none => exact .pure
    | some op => exact .behind (.map operand_moved fun _ => rfl)

theorem simplePredicate_moved : Moved s (Condition.shift s) (simplePredicate stop ts)
    (simplePredicate (stop.shift s) (ts.map (Token.shift s))) := by
  cases ts with
  | nil => exact .demand
  | cons t ts =>
    refine .ite Iff.rfl (.behind (.map expect_moved fun _ => rfl)) ?_
    refine .ite Iff.rfl (.behind (.map expect_moved fun _ => rfl)) ?_
    exact .andThen operand_moved fun _ _ _ _ => comparisonTail_moved

mutual

theorem condition_moved (ts : List Token) : Moved s (Condition.shift s) (condition stop ts)
    (condition (stop.shift s) (ts.map (Token.shift s))) := by
  rw [condition, condition]
  exact .andThen (conjunction_moved ts) fun lhs rest h _ => conditionTail_moved lhs rest
  termination_by ts.length * 5 + 4
  decreasing_by
  · omega
  · have := h.length_le; omega

theorem conditionTail_moved (lhs : Condition) :
    (ts : List Token) → Moved s (Condition.shift s) (conditionTail stop lhs ts)
      (conditionTail (stop.shift s) (lhs.shift s) (ts.map (Token.shift s)))
  | [] => by rw [List.map_nil, conditionTail, conditionTail]; exact .pure
  | t :: ts => by
    rw [List.map_cons, conditionTail, conditionTail]
    refine .ite Iff.rfl (.behind ?_) .pure
    exact .andThen (conjunction_moved ts) fun rhs rest h _ => conditionTail_moved _ rest
  termination_by ts => ts.length * 5 + 3
  decreasing_by
  · simp only [List.length_cons]; omega
  · have := h.length_le; simp only [List.length_cons]; omega

theorem conjunction_moved (ts : List Token) : Moved s (Condition.shift s) (conjunction stop ts)
    (conjunction (stop.shift s) (ts.map (Token.shift s))) := by
  rw [conjunction, conjunction]
  exact .andThen (predicate_moved ts) fun lhs rest h _ => conjunctionTail_moved lhs rest
  termination_by ts.length * 5 + 2
  decreasing_by
  · omega
  · have := h.length_le; omega

theorem conjunctionTail_moved (lhs : Condition) :
    (ts : List Token) → Moved s (Condition.shift s) (conjunctionTail stop lhs ts)
      (conjunctionTail (stop.shift s) (lhs.shift s) (ts.map (Token.shift s)))
  | [] => by rw [List.map_nil, conjunctionTail, conjunctionTail]; exact .pure
  | t :: ts => by
    rw [List.map_cons, conjunctionTail, conjunctionTail]
    refine .ite Iff.rfl (.behind ?_) .pure
    exact .andThen (predicate_moved ts) fun rhs rest h _ => conjunctionTail_moved _ rest
  termination_by ts => ts.length * 5 + 1
  decreasing_by
  · simp only [List.length_cons]; omega
  · have := h.length_le; simp only [List.length_cons]; omega

theorem predicate_moved : (ts : List Token) → Moved s (Condition.shift s) (predicate stop ts)
    (predicate (stop.shift s) (ts.map (Token.shift s)))
  | [] => by rw [List.map_nil, predicate, predicate]; exact simplePredicate_moved
  | t :: ts => by
    rw [List.map_cons, predicate, predicate]
    refine .ite Iff.rfl (.behind ?_) simplePredicate_moved
    exact .andThen (condition_moved ts) fun _ rest _ _ => .map expect_moved fun _ => rfl
  termination_by ts => ts.length * 5
  decreasing_by simp only [List.length_cons]; omega

end

theorem parse_moved {directive : Token} : Moved s (Condition.shift s) (parse stop directive ts)
    (parse (stop.shift s) (directive.shift s) (ts.map (Token.shift s))) := by
  have he : (ts.map (Token.shift s)).isEmpty = ts.isEmpty := by cases ts <;> rfl
  rw [parse, parse, he]
  refine .ite Iff.rfl .demand (.andThen (condition_moved ts) fun cond rest _ _ => ?_)
  cases rest with
  | nil => exact .pure
  | cons t rest => exact .ite Iff.rfl (.behind .pure) .demand

end Header

/-! ## Headers behind a cursor -/

def Cursor.shift (s : Shift) (c : Cursor) : Cursor :=
  ⟨c.lastLine + s.line, c.unread.map (Token.shift s)⟩

section

variable {s : Shift} {env : Environment}

theorem headerTokens_shift (l : Int) (ts : List Token) :
    headerTokens (l + s.line) (ts.map (Token.shift s)) =
      (headerTokens l ts).map (Token.shift s) := by
  induction ts generalizing l with
  | nil => rfl
  | cons t ts ih =>
    have hc : (t.shift s).kind = .eof ∨ l + s.line < (t.shift s).loc.line ↔
        t.kind = .eof ∨ l < t.loc.line := by
      refine or_congr Iff.rfl ?_
      simp only [Token.loc_shift, Location.shift]
      omega
    rw [List.map_cons, headerTokens, headerTokens]
    by_cases h : t.kind = .eof ∨ l < t.loc.line
    · rw [if_pos (hc.mpr h), if_pos h]
      rfl
    · rw [if_neg (mt hc.mp h), if_neg h, Token.lastLine_shift, ih]
      rfl

theorem Header.stopToken_shift (directive : Token) (ts : List Token) :
    stopToken (directive.shift s) (ts.map (Token.shift s)) = (stopToken directive ts).shift s := by
  cases ts with
  | nil => rfl
  | cons t ts =>
    rw [List.map_cons, stopToken, stopToken]
    by_cases h : t.kind = .eof
    · rw [if_pos h, if_pos (show (t.shift s).kind = .eof from h)]
    · rw [if_neg h, if_neg (show (t.shift s).kind ≠ .eof from h)]
      rfl

/-- The header behind a directive is read further down as where it was. -/
theorem Cursor.condition_shift (c : Cursor) (directive : Token) :
    (c.shift s).condition (directive.shift s) =
      (moved s (Condition.shift s) (c.condition directive).1, (c.condition directive).2) := by
  have hh : Header.ofCursor (directive.shift s) (c.shift s) =
      ⟨(Header.ofCursor directive c).tokens.map (Token.shift s),
        (Header.ofCursor directive c).stop.shift s⟩ := by
    simp only [Header.ofCursor, shift, headerTokens_shift, List.length_map, ← List.map_drop,
      Header.stopToken_shift]
  have hp : Parsed.Moved s (Condition.shift s)
      (Header.parse (Header.ofCursor directive c).stop directive
        (Header.ofCursor directive c).tokens) _ := Header.parse_moved
  rw [condition, parseWith, hh]
  dsimp only
  rw [hp.1, hp.2, List.length_map, List.length_map]
  rfl

/-! ## Evaluation -/

theorem Operand.value_shift (a : Operand) : (a.shift s).value env = moved s id (a.value env) := by
  obtain ⟨loc, term⟩ := a
  cases term with
  | int v =>
    simp only [value, shift]
    cases decimalNumeral? v <;> rfl
  | reference name =>
    simp only [value, shift]
    cases env.lookup? name <;> rfl
  | float | string | bool => simp only [value, shift]; rfl

theorem Comparison.operands_shift (op : Comparison) (loc : Location) (lhs rhs : Operand) :
    op.operands (loc.shift s) (lhs.shift s) (rhs.shift s) env =
      moved s id (op.operands loc lhs rhs env) := by
  rw [operands, operands, Operand.value_shift, Operand.value_shift]
  cases lhs.value env with
  | error f => rfl
  | ok v =>
    cases rhs.value env with
    | error f => rfl
    | ok w =>
      simp only [moved, id]
      split <;> rfl

theorem Comparison.compare_shift (op : Comparison) (loc : Location) (v w : Value) :
    op.compare (loc.shift s) v w = moved s id (op.compare loc v w) := by
  unfold compare
  split
  · cases HashIf.satisfies _ _ with
    | ok b => rfl
    | error e => cases e <;> rfl
  · rfl

/-- A condition is as true further down as where it was. -/
theorem Condition.evaluate_shift (c : Condition) :
    (c.shift s).evaluate env = moved s id (c.evaluate env) := by
  induction c with
  | and loc lhs rhs ihl ihr =>
    rw [shift, evaluate, evaluate, ihl]
    cases lhs.evaluate env with
    | error f => rfl
    | ok b =>
      cases b with
      | true => exact ihr
      | false => rfl
  | or loc lhs rhs ihl ihr =>
    rw [shift, evaluate, evaluate, ihl]
    cases lhs.evaluate env with
    | error f => rfl
    | ok b =>
      cases b with
      | true => rfl
      | false => exact ihr
  | compare loc op lhs rhs =>
    rw [shift, evaluate, evaluate, Comparison.operands_shift]
    cases op.operands loc lhs rhs env with
    | error f => rfl
    | ok p => exact Comparison.compare_shift op loc p.1 p.2
  | defined | undefined => rfl

end

end HashIf
