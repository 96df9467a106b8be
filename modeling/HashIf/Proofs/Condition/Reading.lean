import HashIf.Condition.Header

/-! What parsing a header depends on: the tokens of the header alone. The token for the end and the
directive only show in diagnostics, and only a string literal makes parsing go beyond a limit. -/

namespace HashIf

/-- The limit that a token goes beyond, if it is a string literal that does. -/
def Token.limit? (t : Token) : Option Excess :=
  if t.kind = .string then
    match unescape t.lexeme with
    | .error l => some l
    | .ok _ => none
  else none

theorem Token.limit?_of_kind {t : Token} {kind : Kind} (h : t.kind = kind) (hk : kind ≠ .string) :
    t.limit? = none := if_neg (h ▸ hk)

/-! ## Steps that agree -/

namespace Parsed

variable {α β : Type} {ts : List Token}

/-- Two steps on the same tokens read the same tokens to the same end, but for what they say if the
header is at fault. A step ends behind the first token that goes beyond a limit. -/
inductive Agree : Parsed α ts → Parsed α ts → Prop
  | ok (used : List Token) {left : List Token} {a : α} {s : left <:+ ts} (h : ts = used ++ left)
    (hc : ∀ u ∈ used, u.limit? = none) : Agree ⟨.ok a, left, s⟩ ⟨.ok a, left, s⟩
  | fault (used : List Token) {left : List Token} {s : left <:+ ts} (h : ts = used ++ left)
    (hc : ∀ u ∈ used, u.limit? = none) :
    Agree ⟨.error (.diagnostic (.header t d)), left, s⟩
      ⟨.error (.diagnostic (.header t' d')), left, s⟩
  | limit (used : List Token) {left : List Token} {t : Token} {s : left <:+ ts}
    (h : ts = used ++ t :: left) (hc : ∀ u ∈ used, u.limit? = none)
    (ht : t.limit? = some l) : Agree ⟨.error (.limit l), left, s⟩ ⟨.error (.limit l), left, s⟩

namespace Agree

theorem pure {a : α} : Agree (.pure a ts) (.pure a ts) :=
  .ok [] (List.nil_append _).symm (by simp)

theorem demand : Agree (α := α) (.demand t d ts) (.demand t' d' ts) :=
  .fault [] (List.nil_append _).symm (by simp)

/-- Steps that agree do so behind tokens that go beyond no limit. -/
theorem extend (used : List Token) {left : List Token} {p q : Parsed α left} (h : Agree p q)
    (hc : ∀ u ∈ used, u.limit? = none) (hp : p.rest <:+ used ++ left)
    (hq : q.rest <:+ used ++ left) : Agree ⟨p.result, p.rest, hp⟩ ⟨q.result, q.rest, hq⟩ := by
  have append {more rest : List Token} (h : left = more ++ rest) :
      used ++ left = used ++ more ++ rest := by rw [h, List.append_assoc]
  cases h with
  | ok more h hm => exact .ok (used ++ more) (append h) (List.forall_mem_append.mpr ⟨hc, hm⟩)
  | fault more h hm => exact .fault (used ++ more) (append h) (List.forall_mem_append.mpr ⟨hc, hm⟩)
  | limit more h hm ht =>
    exact .limit (used ++ more) (append h) (List.forall_mem_append.mpr ⟨hc, hm⟩) ht

theorem behind {p q : Parsed α ts} {t : Token} (ht : t.limit? = none) (h : Agree p q) :
    Agree (p.behind t) (q.behind t) :=
  h.extend [t] (by simpa using ht) _ _

theorem andThen {p q : Parsed α ts}
    {k k' : α → (left : List Token) → left <:+ ts → Parsed β left} (h : Agree p q)
    (hk : ∀ a left hl, Agree (k a left hl) (k' a left hl)) :
    Agree (p.andThen k) (q.andThen k') := by
  cases h with
  | fault used h hc => exact .fault used h hc
  | limit used h hc ht => exact .limit used h hc ht
  | ok used h hc =>
    subst h
    exact (hk _ _ _).extend used hc _ _

theorem map {p q : Parsed α ts} (f : α → β) (h : Agree p q) : Agree (p.map f) (q.map f) := by
  cases h with
  | ok used h hc => exact .ok used h hc
  | fault used h hc => exact .fault used h hc
  | limit used h hc ht => exact .limit used h hc ht

theorem ite {c : Prop} [Decidable c] {p q p' q' : Parsed α ts} (ht : c → Agree p q)
    (hf : ¬c → Agree p' q') : Agree (if c then p else p') (if c then q else q') := by
  by_cases hc : c
  · rw [if_pos hc, if_pos hc]; exact ht hc
  · rw [if_neg hc, if_neg hc]; exact hf hc

theorem of_ok {p q : Parsed α ts} (h : Agree p q) (hp : p.result = .ok a) :
    q.result = .ok a ∧ q.rest = p.rest := by
  cases h with
  | ok => exact ⟨hp, rfl⟩
  | fault | limit => cases hp

theorem of_error {p q : Parsed α ts} (h : Agree p q) (hp : p.result = .error f) :
    (∃ t d, f = .diagnostic (.header t d)) ∨ ∃ l, f = .limit l := by
  cases h with
  | ok => cases hp
  | fault => cases hp; exact .inl ⟨_, _, rfl⟩
  | limit => cases hp; exact .inr ⟨_, rfl⟩

end Agree

end Parsed

/-! ## Parsing -/

namespace Header

open Parsed (Agree)

variable {stop stop' : Token} {ts : List Token}

theorem advance_agree (h : ∀ t ∈ ts.head?, t.limit? = none) :
    Agree (advance stop ts) (advance stop' ts) := by
  cases ts with
  | nil => exact .demand
  | cons t ts => exact .behind (h t rfl) .pure

theorem expect_agree {kind : Kind} (hk : kind ≠ .string) :
    Agree (expect stop kind d ts) (expect stop' kind d ts) := by
  cases ts with
  | nil =>
    have fails (stop : Token) : ∃ d', expect stop kind d [] = .demand stop d' [] := by
      unfold expect
      split
      · exact ⟨_, rfl⟩
      · exact ⟨_, rfl⟩
    obtain ⟨_, h⟩ := fails stop
    obtain ⟨_, h'⟩ := fails stop'
    rw [h, h']
    exact .demand
  | cons t ts =>
    refine .ite (fun h => advance_agree ?_) fun _ => .demand
    rintro _ ⟨⟩
    exact Token.limit?_of_kind h hk

theorem numberTerm_cases (negative : Bool) (t : Token) :
    (∃ a, numberTerm negative t = .ok a) ∨
      ∃ d, numberTerm negative t = .error (.diagnostic (.header t d)) := by
  unfold numberTerm
  split
  · cases integerOfNumeral? t.lexeme with
    | some v => exact .inl ⟨_, rfl⟩
    | none => exact .inr ⟨_, rfl⟩
  · cases binary64OfNumeral? t.lexeme with
    | some x => exact .inl ⟨_, rfl⟩
    | none => exact .inr ⟨_, rfl⟩

theorem kind_of_isNumber (h : isNumber t = true) : t.kind ≠ .string := by
  simp only [isNumber, Bool.or_eq_true, decide_eq_true_eq] at h
  rcases h with h | h <;> rw [h] <;> exact nofun

theorem negatedNumber_agree {minus : Token} :
    Agree (negatedNumber stop minus ts) (negatedNumber stop' minus ts) := by
  cases ts with
  | nil =>
    have fails (stop : Token) : ∃ d', negatedNumber stop minus [] = .demand stop d' [] := by
      by_cases h : (isNumber stop && stop.loc.index == minus.loc.index + 1) = true
      · exact ⟨_, if_pos h⟩
      · exact ⟨_, if_neg h⟩
    obtain ⟨_, h⟩ := fails stop
    obtain ⟨_, h'⟩ := fails stop'
    rw [h, h']
    exact .demand
  | cons t ts =>
    refine .ite (fun h => .andThen (advance_agree ?_) fun u left _ => ?_) fun _ => .demand
    · rintro _ ⟨⟩
      exact Token.limit?_of_kind rfl (kind_of_isNumber (Bool.and_eq_true_iff.mp h).1)
    · rcases numberTerm_cases true u with ⟨a, ha⟩ | ⟨d, hd⟩
      · rw [ha]; exact .pure
      · rw [hd]; exact .demand

theorem operandTerm?_cases (t : Token) :
    operandTerm? t = none ∨ (∃ a, operandTerm? t = some (.ok a) ∧ t.limit? = none) ∨
      (∃ d, operandTerm? t = some (.error (.diagnostic (.header t d))) ∧ t.limit? = none) ∨
      ∃ l, operandTerm? t = some (.error (.limit l)) ∧ t.limit? = some l := by
  unfold operandTerm?
  split
  case h_3 hk =>
    unfold Token.limit?
    rw [if_pos hk]
    cases unescape t.lexeme with
    | ok text => exact .inr (.inl ⟨_, rfl, rfl⟩)
    | error l => exact .inr (.inr (.inr ⟨_, rfl, rfl⟩))
  case h_7 => exact .inl rfl
  case h_1 hk | h_2 hk =>
    have hl : t.limit? = none := Token.limit?_of_kind hk nofun
    rcases numberTerm_cases false t with ⟨a, ha⟩ | ⟨d, hd⟩
    · exact .inr (.inl ⟨a, congrArg some ha, hl⟩)
    · exact .inr (.inr (.inl ⟨d, congrArg some hd, hl⟩))
  all_goals
    next hk => exact .inr (.inl ⟨_, rfl, Token.limit?_of_kind hk nofun⟩)

theorem operand_agree : Agree (operand stop ts) (operand stop' ts) := by
  cases ts with
  | nil => exact .demand
  | cons t ts =>
    refine .ite (fun h => .behind (Token.limit?_of_kind h nofun) negatedNumber_agree)
      fun _ => ?_
    have read (hl : t.limit? = none) : ∀ u ∈ [t], u.limit? = none := by simpa using hl
    rcases operandTerm?_cases t with h | ⟨a, h, hl⟩ | ⟨d, h, hl⟩ | ⟨l, h, hl⟩
    · rw [h]; exact .demand
    · rw [h]; exact .ok [t] rfl (read hl)
    · rw [h]; exact .fault [t] rfl (read hl)
    · rw [h]; exact .limit [] rfl (by simp) hl

theorem comparisonTail_agree {lhs : Operand} :
    Agree (comparisonTail stop lhs ts) (comparisonTail stop' lhs ts) := by
  cases ts with
  | nil => exact .pure
  | cons t ts =>
    simp only [comparisonTail]
    cases h : comparison? t with
    | none => exact .pure
    | some op =>
      refine .behind (Token.limit?_of_kind rfl fun hk => ?_) (.map _ operand_agree)
      simp [comparison?, hk] at h

theorem simplePredicate_agree :
    Agree (simplePredicate stop ts) (simplePredicate stop' ts) := by
  cases ts with
  | nil => exact .demand
  | cons t ts =>
    have name {ctor : Token → Condition} : Agree
        ((expect stop .identifier (.variableName t.lexeme) ts).map ctor)
        ((expect stop' .identifier (.variableName t.lexeme) ts).map ctor) :=
      .map _ (expect_agree nofun)
    refine .ite (fun h => .behind (Token.limit?_of_kind h nofun) name) fun _ => ?_
    refine .ite (fun h => .behind (Token.limit?_of_kind h nofun) name) fun _ => ?_
    exact .andThen operand_agree fun lhs left _ => comparisonTail_agree

mutual

theorem condition_agree (ts : List Token) : Agree (condition stop ts) (condition stop' ts) := by
  rw [condition, condition]
  exact .andThen (conjunction_agree ts) fun lhs left h => conditionTail_agree lhs left
  termination_by ts.length * 5 + 4
  decreasing_by
  · omega
  · have := h.length_le; omega

theorem conditionTail_agree (lhs : Condition) :
    (ts : List Token) → Agree (conditionTail stop lhs ts) (conditionTail stop' lhs ts)
  | [] => by rw [conditionTail, conditionTail]; exact .pure
  | t :: ts => by
    rw [conditionTail, conditionTail]
    refine .ite (fun hk => .behind (Token.limit?_of_kind hk nofun) ?_) fun _ => .pure
    exact .andThen (conjunction_agree ts) fun rhs left h => conditionTail_agree _ left
  termination_by ts => ts.length * 5 + 3
  decreasing_by
  · simp only [List.length_cons]; omega
  · have := h.length_le; simp only [List.length_cons]; omega

theorem conjunction_agree (ts : List Token) :
    Agree (conjunction stop ts) (conjunction stop' ts) := by
  rw [conjunction, conjunction]
  exact .andThen (predicate_agree ts) fun lhs left h => conjunctionTail_agree lhs left
  termination_by ts.length * 5 + 2
  decreasing_by
  · omega
  · have := h.length_le; omega

theorem conjunctionTail_agree (lhs : Condition) :
    (ts : List Token) → Agree (conjunctionTail stop lhs ts) (conjunctionTail stop' lhs ts)
  | [] => by rw [conjunctionTail, conjunctionTail]; exact .pure
  | t :: ts => by
    rw [conjunctionTail, conjunctionTail]
    refine .ite (fun hk => .behind (Token.limit?_of_kind hk nofun) ?_) fun _ => .pure
    exact .andThen (predicate_agree ts) fun rhs left h => conjunctionTail_agree _ left
  termination_by ts => ts.length * 5 + 1
  decreasing_by
  · simp only [List.length_cons]; omega
  · have := h.length_le; simp only [List.length_cons]; omega

theorem predicate_agree : (ts : List Token) → Agree (predicate stop ts) (predicate stop' ts)
  | [] => by rw [predicate, predicate]; exact simplePredicate_agree
  | t :: ts => by
    rw [predicate, predicate]
    refine .ite (fun hk => .behind (Token.limit?_of_kind hk nofun) ?_)
      fun _ => simplePredicate_agree
    exact .andThen (condition_agree ts) fun _ left _ => .map _ (expect_agree (by simp))
  termination_by ts => ts.length * 5
  decreasing_by simp only [List.length_cons]; omega

end

/-- What parsing a header gives depends neither on the token for its end nor on the directive. -/
theorem parse_agree {directive directive' : Token} :
    Agree (parse stop directive ts) (parse stop' directive' ts) := by
  refine .ite (fun _ => .demand) fun _ => .andThen (condition_agree ts) fun cond left _ => ?_
  cases left with
  | nil => exact .pure
  | cons t left =>
    exact .ite (fun hk => .behind (Token.limit?_of_kind hk nofun) .pure) fun _ => .demand

end Header

end HashIf
