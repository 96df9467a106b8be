import HashIf.Condition.Header

/-! The grammar of headers, as a relation between runs of tokens and the conditions that they stand
for. `&&` binds tighter than `||`, both associate to the left, and parentheses leave no trace.
Parsing reads every run that the grammar derives, so a run stands for one condition at most. -/

namespace HashIf

/-! ## The grammar -/

/-- A token that stands for an unsigned number. -/
inductive NumberForm (t : Token) : Term → Prop
  | integer (hk : t.kind = .integer) (hv : integerOfNumeral? t.lexeme = some v) :
    NumberForm t (.int v)
  | float (hk : t.kind = .float) (hv : binary64OfNumeral? t.lexeme = some x) :
    NumberForm t (.float x)

/-- The number with the other sign; what is no number stays as it is. -/
def Term.negated : Term → Term
  | int v => int (-v)
  | float x => float x.neg
  | a => a

/-- Tokens that stand for an operand: a literal, or a minus sign glued to a number, or a name. -/
inductive OperandForm : List Token → Operand → Prop
  | number (h : NumberForm t a) : OperandForm [t] ⟨t.loc, a⟩
  | negated {minus t : Token} (hm : minus.kind = .symbol "-")
    (hg : t.loc.index = minus.loc.index + 1) (h : NumberForm t a) :
    OperandForm [minus, t] ⟨minus.loc, a.negated⟩
  | string (hk : t.kind = .string) (hv : unescape t.lexeme = .ok text) :
    OperandForm [t] ⟨t.loc, .string text⟩
  | trueWord (hk : t.kind = .trueWord) : OperandForm [t] ⟨t.loc, .bool true⟩
  | falseWord (hk : t.kind = .falseWord) : OperandForm [t] ⟨t.loc, .bool false⟩
  | name (hk : t.kind = .identifier) : OperandForm [t] ⟨t.loc, .reference t.lexeme⟩

mutual

/-- Tokens that stand for a condition without a connective outside parentheses. -/
inductive PredicateForm : List Token → Condition → Prop
  | parentheses {opening closing : Token} (ho : opening.kind = .symbol "(")
    (h : ConditionForm ts c) (hc : closing.kind = .symbol ")") :
    PredicateForm (opening :: (ts ++ [closing])) c
  | defined {t name : Token} (hk : t.kind = .definedWord) (hn : name.kind = .identifier) :
    PredicateForm [t, name] (.defined t.loc name.lexeme)
  | undefined {t name : Token} (hk : t.kind = .undefinedWord) (hn : name.kind = .identifier) :
    PredicateForm [t, name] (.undefined t.loc name.lexeme)
  | alone (h : OperandForm ts a) : PredicateForm ts (.ofOperand a)
  | comparison (hl : OperandForm ts a) (ho : t.kind = .symbol op.symbol) (hr : OperandForm us b) :
    PredicateForm (ts ++ t :: us) (.compare t.loc op a b)

/-- Tokens that stand for predicates joined by `&&`, of which the last is split off first. -/
inductive ConjunctionForm : List Token → Condition → Prop
  | predicate (h : PredicateForm ts c) : ConjunctionForm ts c
  | and {t : Token} (hl : ConjunctionForm ts lhs) (ho : t.kind = .symbol "&&")
    (hr : PredicateForm us rhs) : ConjunctionForm (ts ++ t :: us) (.and t.loc lhs rhs)

/-- Tokens that stand for conjunctions joined by `||`, of which the last is split off first. -/
inductive ConditionForm : List Token → Condition → Prop
  | conjunction (h : ConjunctionForm ts c) : ConditionForm ts c
  | or {t : Token} (hl : ConditionForm ts lhs) (ho : t.kind = .symbol "||")
    (hr : ConjunctionForm us rhs) : ConditionForm (ts ++ t :: us) (.or t.loc lhs rhs)

end

/-- A header that stands for a condition, of which `n` tokens are read: those of the condition, and
the word `then` if the header does not end with the condition. -/
inductive HeaderForm : List Token → Condition → (n : Nat) → Prop
  | whole (h : ConditionForm ts c) : HeaderForm ts c ts.length
  | upToThen (h : ConditionForm ts c) (ht : t.kind = .thenWord) :
    HeaderForm (ts ++ t :: more) c (ts.length + 1)

/-! ## Operators -/

theorem Comparison.ofSymbol?_eq_some {op : Comparison} :
    Comparison.ofSymbol? s = some op ↔ s = op.symbol := by
  constructor
  · intro h
    have hs := List.find?_some (p := fun o : Comparison => o.symbol == s) h
    exact (eq_of_beq hs).symm
  · rintro rfl
    cases op <;> rfl

theorem Header.comparison?_eq_some : comparison? t = some op ↔ t.kind = .symbol op.symbol := by
  unfold comparison?
  cases t.kind with
  | symbol s => simp [Comparison.ofSymbol?_eq_some]
  | _ => simp

/-! ## Steps that succeed -/

namespace Parsed

variable {α β : Type} {ts rest left : List Token} {p : Parsed α ts}

/-- The step succeeds and leaves the tokens `rest`. -/
def Gives (p : Parsed α ts) (a : α) (rest : List Token) : Prop := p.result = .ok a ∧ p.rest = rest

theorem Gives.behind (h : p.Gives a rest) : (p.behind t).Gives a rest := h

theorem Gives.map {f : α → β} (h : p.Gives a rest) : (p.map f).Gives (f a) rest := by
  obtain ⟨r, left, hs⟩ := p
  obtain ⟨rfl, rfl⟩ := h
  exact ⟨rfl, rfl⟩

theorem Gives.andThen {k : α → (left : List Token) → left <:+ ts → Parsed β left}
    (h : p.Gives a rest) (hk : ∀ hs, (k a rest hs).Gives b left) : (p.andThen k).Gives b left := by
  obtain ⟨r, left, hs⟩ := p
  obtain ⟨rfl, rfl⟩ := h
  exact hk hs

end Parsed

/-! ## Reading what the grammar derives -/

/-- The next token, if there is one, is of none of the kinds. -/
def NotNext (kinds : List Kind) (ts : List Token) : Prop := ∀ t ∈ ts.head?, t.kind ∉ kinds

/-- The kinds of the operators that compare two operands. -/
def comparisonKinds : List Kind := Comparison.all.map fun op => .symbol op.symbol

theorem NotNext.nil : NotNext kinds [] := by
  intro t ht
  cases ht

theorem NotNext.cons (h : t.kind ∉ kinds) : NotNext kinds (t :: ts) := by
  rintro _ ⟨⟩
  exact h

theorem NotNext.mono (h : NotNext kinds ts) (hs : kinds' ⊆ kinds) : NotNext kinds' ts :=
  fun t ht hk => h t ht (hs hk)

namespace Header

open Parsed (Gives)

variable {stop : Token} {ts rest : List Token}

theorem numberTerm_of_form (h : NumberForm t a) :
    isNumber t = true ∧ numberTerm false t = .ok a ∧ numberTerm true t = .ok a.negated := by
  cases h with
  | integer hk hv => simp [isNumber, numberTerm, hk, hv, Term.negated]
  | float hk hv => simp [isNumber, numberTerm, hk, hv, Term.negated]

theorem operand_of_form (h : OperandForm ts a) : (operand stop (ts ++ rest)).Gives a rest := by
  have alone {t : Token} {a : Term} (hm : t.kind ≠ .symbol "-")
      (ht : operandTerm? t = some (.ok a)) :
      (operand stop ([t] ++ rest)).Gives ⟨t.loc, a⟩ rest := by
    rw [List.singleton_append, operand, if_neg hm, ht]
    exact ⟨rfl, rfl⟩
  cases h with
  | @number t a h =>
    have ht := (numberTerm_of_form h).2.1
    cases h with
    | integer hk hv => exact alone (by simp [hk]) (by simp [operandTerm?, hk, ht])
    | float hk hv => exact alone (by simp [hk]) (by simp [operandTerm?, hk, ht])
  | @negated a minus t hm hg h =>
    obtain ⟨hn, -, ht⟩ := numberTerm_of_form h
    have hg : (isNumber t && t.loc.index == minus.loc.index + 1) = true := by simp [hn, hg]
    have hr : (negatedNumber stop minus (t :: rest)).Gives ⟨minus.loc, a.negated⟩ rest := by
      have ha : (advance stop (t :: rest)).Gives t rest := ⟨rfl, rfl⟩
      rw [negatedNumber, peek, List.headD_cons, if_pos hg]
      refine ha.andThen fun _ => ?_
      rw [ht]
      exact ⟨rfl, rfl⟩
    rw [List.cons_append, operand, if_pos hm]
    exact hr.behind
  | string hk hv => exact alone (by simp [hk]) (by simp [operandTerm?, hk, hv])
  | trueWord hk => exact alone (by simp [hk]) (by simp [operandTerm?, hk])
  | falseWord hk => exact alone (by simp [hk]) (by simp [operandTerm?, hk])
  | name hk => exact alone (by simp [hk]) (by simp [operandTerm?, hk])

/-- No operand begins like another predicate. -/
theorem kind_of_operandForm (h : OperandForm ts a) :
    ∃ t us, ts = t :: us ∧ t.kind ≠ .symbol "(" ∧ t.kind ≠ .definedWord ∧
      t.kind ≠ .undefinedWord := by
  cases h with
  | number h =>
    cases h with
    | integer hk | float hk => exact ⟨_, [], rfl, by simp [hk]⟩
  | negated hm => exact ⟨_, _, rfl, by simp [hm]⟩
  | string hk | trueWord hk | falseWord hk | name hk => exact ⟨_, [], rfl, by simp [hk]⟩

/-- A predicate that begins with an operand goes on with what may follow the operand. -/
theorem predicate_of_operandForm {left : List Token} (h : OperandForm ts a)
    (ht : (comparisonTail stop a rest).Gives c left) :
    (predicate stop (ts ++ rest)).Gives c left := by
  have hr : (operand stop (ts ++ rest)).Gives a rest := operand_of_form h
  obtain ⟨t, us, rfl, hp, hd, hu⟩ := kind_of_operandForm h
  rw [List.cons_append] at hr ⊢
  rw [predicate, if_neg hp, simplePredicate, if_neg hd, if_neg hu]
  exact hr.andThen fun _ => ht

theorem comparisonTail_of_notNext {lhs : Operand} (h : NotNext comparisonKinds rest) :
    (comparisonTail stop lhs rest).Gives (.ofOperand lhs) rest := by
  cases rest with
  | nil => exact ⟨rfl, rfl⟩
  | cons t rest =>
    have hn : comparison? t = none := by
      apply Option.eq_none_iff_forall_not_mem.mpr
      intro op hop
      refine h t rfl (List.mem_map.mpr ⟨op, ?_, (comparison?_eq_some.mp hop).symm⟩)
      cases op <;> decide
    rw [comparisonTail, hn]
    exact ⟨rfl, rfl⟩

theorem conjunctionTail_of_notNext {lhs : Condition} (h : NotNext [.symbol "&&"] rest) :
    (conjunctionTail stop lhs rest).Gives lhs rest := by
  cases rest with
  | nil => rw [conjunctionTail]; exact ⟨rfl, rfl⟩
  | cons t rest =>
    rw [conjunctionTail, if_neg fun hk => h t rfl (List.mem_singleton.mpr hk)]
    exact ⟨rfl, rfl⟩

theorem conditionTail_of_notNext {lhs : Condition} (h : NotNext [.symbol "||"] rest) :
    (conditionTail stop lhs rest).Gives lhs rest := by
  cases rest with
  | nil => rw [conditionTail]; exact ⟨rfl, rfl⟩
  | cons t rest =>
    rw [conditionTail, if_neg fun hk => h t rfl (List.mem_singleton.mpr hk)]
    exact ⟨rfl, rfl⟩

theorem expect_of_kind {kind : Kind} (h : t.kind = kind) :
    (expect stop kind d (t :: rest)).Gives t rest := by
  have he : expect stop kind d (t :: rest) = advance stop (t :: rest) := if_pos h
  rw [he]
  exact ⟨rfl, rfl⟩

mutual

/-- A predicate of the grammar is read whole, unless it may go on with a comparison. -/
theorem predicate_of_form : {ts : List Token} → {c : Condition} → PredicateForm ts c →
    {rest : List Token} → NotNext comparisonKinds rest → (predicate stop (ts ++ rest)).Gives c rest
  | _, c, @PredicateForm.parentheses _ _ opening closing ho h hc, rest, _ => by
    rw [List.cons_append, List.append_assoc, List.singleton_append, predicate, if_pos ho]
    have hn : NotNext (.symbol "&&" :: comparisonKinds) (closing :: rest) :=
      .cons (by rw [hc]; decide)
    have ht : (conditionTail stop c (closing :: rest)).Gives c (closing :: rest) :=
      conditionTail_of_notNext (.cons (by rw [hc]; decide))
    exact ((condition_of_form h hn ht).andThen fun _ => (expect_of_kind hc).map).behind
  | _, _, @PredicateForm.defined t name hk hn, rest, _ => by
    have hp : t.kind ≠ .symbol "(" := by simp [hk]
    have he : (expect stop .identifier (.variableName t.lexeme) (name :: rest)).Gives name rest :=
      expect_of_kind hn
    rw [List.cons_append, predicate, if_neg hp, simplePredicate, if_pos hk]
    exact he.map.behind
  | _, _, @PredicateForm.undefined t name hk hn, rest, _ => by
    have hp : t.kind ≠ .symbol "(" := by simp [hk]
    have hd : t.kind ≠ .definedWord := by simp [hk]
    have he : (expect stop .identifier (.variableName t.lexeme) (name :: rest)).Gives name rest :=
      expect_of_kind hn
    rw [List.cons_append, predicate, if_neg hp, simplePredicate, if_neg hd, if_pos hk]
    exact he.map.behind
  | _, _, .alone h, rest, hn => predicate_of_operandForm h (comparisonTail_of_notNext hn)
  | _, _, .comparison hl ho hr, rest, _ => by
    rw [List.append_assoc]
    refine predicate_of_operandForm hl ?_
    rw [List.cons_append, comparisonTail, comparison?_eq_some.mpr ho]
    exact (operand_of_form hr).map.behind

/-- Behind a conjunction of the grammar, reading goes on as behind its condition. -/
theorem conjunction_of_form : {ts : List Token} → {c : Condition} → ConjunctionForm ts c →
    {b : Condition} → {rest left : List Token} → NotNext comparisonKinds rest →
    (conjunctionTail stop c rest).Gives b left → (conjunction stop (ts ++ rest)).Gives b left
  | _, _, .predicate h, _, rest, _, hn, ht => by
    rw [conjunction]
    exact (predicate_of_form h hn).andThen fun _ => ht
  | _, _, @ConjunctionForm.and _ lhs _ _ t hl ho hr, _, rest, _, hn, ht => by
    rw [List.append_assoc, List.cons_append]
    refine conjunction_of_form hl (.cons (by rw [ho]; decide)) ?_
    rw [conjunctionTail, if_pos ho]
    exact ((predicate_of_form hr hn).andThen fun _ => ht).behind

/-- Behind a condition of the grammar, reading goes on as behind the condition it stands for. -/
theorem condition_of_form : {ts : List Token} → {c : Condition} → ConditionForm ts c →
    {b : Condition} → {rest left : List Token} → NotNext (.symbol "&&" :: comparisonKinds) rest →
    (conditionTail stop c rest).Gives b left → (condition stop (ts ++ rest)).Gives b left
  | _, _, .conjunction h, _, rest, _, hn, ht => by
    have hn' : NotNext [.symbol "&&"] rest := hn.mono (by simp)
    rw [condition]
    exact (conjunction_of_form h (hn.mono (by simp)) (conjunctionTail_of_notNext hn')).andThen
      fun _ => ht
  | _, _, @ConditionForm.or _ lhs _ _ t hl ho hr, _, rest, _, hn, ht => by
    have hn' : NotNext [.symbol "&&"] rest := hn.mono (by simp)
    rw [List.append_assoc, List.cons_append]
    refine condition_of_form hl (.cons (by rw [ho]; decide)) ?_
    rw [conditionTail, if_pos ho]
    refine Gives.behind ?_
    exact (conjunction_of_form hr (hn.mono (by simp)) (conjunctionTail_of_notNext hn')).andThen
      fun _ => ht

end

end Header

end HashIf
