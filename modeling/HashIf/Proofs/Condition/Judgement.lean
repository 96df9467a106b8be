import HashIf.Proofs.Condition.Grammar
import HashIf.Proofs.Condition.Reading

/-! Steps of parsing judged by the grammar: a step reads tokens of its form, or it gets stuck behind
tokens that can be continued to tokens of its form, and in front of the token that it blames. Of the
tokens that it does not read, it looks at the next one only. -/

namespace HashIf

/-! ## Continuations -/

/-- The token belongs to a line and does not leave it. -/
structure Token.StaysOn (line : Int) (t : Token) : Prop where
  kind : t.kind ≠ .eof
  line : t.loc.line = line
  flat : '\n' ∉ t.lexeme.toList

/-- A token of which only the kind, the text, the line and the index matter. -/
def Token.filling (line index : Int) (kind : Kind) (lexeme : String) : Token :=
  ⟨kind, lexeme, ⟨"", index, line, 0, 0⟩⟩

/-- On every line the tokens can be continued to tokens of a form. -/
def Viable (form : List Token → α → Prop) (ts : List Token) : Prop :=
  ∀ line, ∃ more a, (∀ t ∈ more, t.StaysOn line) ∧ form (ts ++ more) a

theorem Token.staysOn_filling {line index : Int} {kind : Kind} {lexeme : String}
    (hk : kind ≠ .eof) (hl : '\n' ∉ lexeme.toList) :
    (Token.filling line index kind lexeme).StaysOn line := ⟨hk, rfl, hl⟩

theorem Viable.lift {form : List Token → α → Prop} {form' : List Token → β → Prop}
    (h : Viable form ts) (hf : ∀ more a, form (ts ++ more) a → ∃ b, form' (front ++ ts ++ more) b) :
    Viable form' (front ++ ts) := by
  intro line
  obtain ⟨more, a, hm, ha⟩ := h line
  obtain ⟨b, hb⟩ := hf more a ha
  exact ⟨more, b, hm, hb⟩

/-- Tokens are viable if a single token completes them. -/
theorem Viable.one {form : List Token → α → Prop} (index : Int) (kind : Kind) (lexeme : String)
    (hk : kind ≠ .eof) (hl : '\n' ∉ lexeme.toList)
    (h : ∀ line, ∃ a, form (ts ++ [Token.filling line index kind lexeme]) a) : Viable form ts := by
  intro line
  obtain ⟨a, ha⟩ := h line
  refine ⟨[_], a, ?_, ha⟩
  simpa using Token.staysOn_filling hk hl

/-! ## Judged steps -/

/-- A failure that names a token, or that is a limit beyond which the token goes. -/
inductive Blames (t : Token) : Failure → Prop
  | demand : Blames t (.diagnostic (.header t d))
  | limit (h : t.limit? = some l) : Blames t (.limit l)

abbrev Step (α : Type) := (stop : Token) → (ts : List Token) → Parsed α ts

/-- What a step does behind tokens `front` that belong to its form: it reads tokens that complete
the form, or gets stuck at a token that it blames. It does the same wherever the tokens that it
reads stand in front of the same token. -/
inductive Judged (form : List Token → α → Prop) (front : List Token) (step : Step α)
    (ts : List Token) : Prop
  | read (used : List Token) {rest : List Token} (h : ts = used ++ rest)
    (hf : form (front ++ used) a)
    (steady : ∀ stop rest', rest'.head? = rest.head? → (step stop (used ++ rest')).Gives a rest')
  | stuck (used : List Token) {left : List Token} (h : ts = used ++ left)
    (hv : Viable form (front ++ used))
    (refused : ∀ stop left', left'.head? = left.head? →
      ∃ f, (step stop (used ++ left')).result = .error f ∧ Blames (Header.peek stop left') f)

theorem Parsed.Gives.andThen_error {ts rest : List Token} {p : Parsed α ts}
    {k : α → (left : List Token) → left <:+ ts → Parsed β left} (h : p.Gives a rest)
    (hk : ∀ hs, (k a rest hs).result = .error f) : (p.andThen k).result = .error f := by
  obtain ⟨r, left, hs⟩ := p
  obtain ⟨rfl, rfl⟩ := h
  exact hk hs

theorem Parsed.error_andThen {p : Parsed α ts}
    {k : α → (left : List Token) → left <:+ ts → Parsed β left} (h : p.result = .error f) :
    (p.andThen k).result = .error f := by
  obtain ⟨r, left, hs⟩ := p
  obtain rfl : r = .error f := h
  rfl

theorem head?_append_congr {xs ys zs : List Token} (h : ys.head? = zs.head?) :
    (xs ++ ys).head? = (xs ++ zs).head? := by
  cases xs with
  | nil => exact h
  | cons => rfl

namespace Judged

variable {α β : Type} {form : List Token → α → Prop} {form' : List Token → β → Prop}
  {front ts : List Token}

theorem pure {step : Step α} (hf : form front a)
    (h : ∀ stop ts', ts'.head? = ts.head? → (step stop ts').Gives a ts') :
    Judged form front step ts :=
  .read [] rfl ((List.append_nil front).symm ▸ hf) h

theorem refuse {step : Step α} (hv : Viable form front)
    (h : ∀ stop ts', ts'.head? = ts.head? →
      ∃ f, (step stop ts').result = .error f ∧ Blames (Header.peek stop ts') f) :
    Judged form front step ts :=
  .stuck [] rfl ((List.append_nil front).symm ▸ hv) h

/-- Steps that do the same wherever the next token is the same one are judged alike. -/
theorem congr {step step' : Step α}
    (hs : ∀ stop ts', ts'.head? = ts.head? → step stop ts' = step' stop ts')
    (h : Judged form front step' ts) : Judged form front step ts := by
  cases h with
  | read used h hf steady =>
    refine .read used h hf fun stop rest' hr => ?_
    rw [hs stop _ (h ▸ head?_append_congr hr)]
    exact steady stop rest' hr
  | stuck used h hv refused =>
    refine .stuck used h hv fun stop left' hl => ?_
    rw [hs stop _ (h ▸ head?_append_congr hl)]
    exact refused stop left' hl

theorem behind {step step' : Step α}
    (hs : ∀ stop ts, step stop (t :: ts) = (step' stop ts).behind t)
    (h : Judged form (front ++ [t]) step' ts) : Judged form front step (t :: ts) := by
  cases h with
  | read used h hf steady =>
    rw [List.append_assoc] at hf
    refine .read (t :: used) (congrArg (t :: ·) h) hf fun stop rest' hr => ?_
    rw [List.cons_append, hs]
    exact (steady stop rest' hr).behind
  | stuck used h hv refused =>
    rw [List.append_assoc] at hv
    refine .stuck (t :: used) (congrArg (t :: ·) h) hv fun stop left' hl => ?_
    rw [List.cons_append, hs]
    exact refused stop left' hl

theorem map {step : Step α} {step' : Step β} {f : α → β}
    (hs : ∀ stop ts, step' stop ts = (step stop ts).map f) (h : Judged form [] step ts)
    (hf : ∀ used a, form used a → form' (front ++ used) (f a)) : Judged form' front step' ts := by
  cases h with
  | read used h ha steady =>
    refine .read used h (hf _ _ ha) fun stop rest' hr => ?_
    rw [hs]
    exact (steady stop rest' hr).map
  | stuck used h hv refused =>
    refine .stuck used h (hv.lift fun more a ha => ⟨f a, ?_⟩) fun stop left' hl => ?_
    · rw [List.append_assoc]
      exact hf _ _ ha
    · obtain ⟨e, he, hb⟩ := refused stop left' hl
      refine ⟨e, ?_, hb⟩
      rw [hs, Parsed.map, he]
      rfl

theorem andThen {step : Step α} {next : α → Step β} {step' : Step β}
    (hs : ∀ stop ts, step' stop ts = (step stop ts).andThen fun a rest _ => next a stop rest)
    (h : Judged form [] step ts)
    (hn : ∀ a used rest, ts = used ++ rest → form used a →
      Judged form' (front ++ used) (next a) rest)
    (hv : ∀ used a, form used a → Viable form' (front ++ used)) :
    Judged form' front step' ts := by
  cases h with
  | stuck used h hv' refused =>
    refine .stuck used h (fun line => ?_) fun stop left' hl => ?_
    · obtain ⟨more, a, hm, ha⟩ := hv' line
      obtain ⟨more', b, hm', hb⟩ := hv _ _ ha line
      refine ⟨more ++ more', b, List.forall_mem_append.mpr ⟨hm, hm'⟩, ?_⟩
      simpa using hb
    · obtain ⟨e, he, hb⟩ := refused stop left' hl
      rw [hs]
      exact ⟨e, Parsed.error_andThen he, hb⟩
  | @read a used rest h ha steady =>
    have steady (stop : Token) {used' rest' : List Token} (more : List Token)
        (hr : rest = used' ++ rest') (hm : more.head? = rest'.head?) :
        (step stop (used ++ (used' ++ more))).Gives a (used' ++ more) :=
      steady stop _ (hr ▸ head?_append_congr hm)
    cases hn a used rest h ha with
    | read used' h' hf steady' =>
      refine .read (used ++ used') (by rw [h, h', List.append_assoc]) (by simpa using hf)
        fun stop rest' hr => ?_
      rw [hs, List.append_assoc]
      exact (steady stop rest' h' hr).andThen fun _ => steady' stop rest' hr
    | stuck used' h' hv' refused =>
      refine .stuck (used ++ used') (by rw [h, h', List.append_assoc]) (by simpa using hv')
        fun stop left' hl => ?_
      obtain ⟨e, he, hb⟩ := refused stop left' hl
      rw [hs, List.append_assoc]
      exact ⟨e, (steady stop left' h' hl).andThen_error fun _ => he, hb⟩

end Judged

/-! ## Operands -/

theorem cons_of_head? {ts ts' : List Token} (h : ts'.head? = (t :: ts).head?) :
    ∃ us, ts' = t :: us := by
  cases ts' with
  | nil => cases h
  | cons u us =>
    obtain rfl : u = t := Option.some.inj h
    exact ⟨us, rfl⟩

theorem viable_operandForm : Viable OperandForm [] :=
  .one 0 .identifier "x" nofun (by decide) fun _ => ⟨_, .name rfl⟩

namespace Header

theorem number_cases (h : isNumber t = true) : (∃ a, NumberForm t a) ∨
    ∀ negative, ∃ d, numberTerm negative t = .error (.diagnostic (.header t d)) := by
  simp only [isNumber, Bool.or_eq_true, decide_eq_true_eq] at h
  rcases h with hk | hk
  · cases hv : integerOfNumeral? t.lexeme with
    | some v => exact .inl ⟨_, .integer hk hv⟩
    | none => exact .inr fun _ => ⟨.integerLiteral, by simp [numberTerm, hk, hv]⟩
  · cases hv : binary64OfNumeral? t.lexeme with
    | some x => exact .inl ⟨_, .float hk hv⟩
    | none => exact .inr fun _ => ⟨.floatLiteral, by simp [numberTerm, hk, hv]⟩

theorem operandTerm?_form (t : Token) :
    (∃ a, operandTerm? t = some (.ok a) ∧ OperandForm [t] ⟨t.loc, a⟩) ∨
      (∃ f, operandTerm? t = some (.error f) ∧ Blames t f) ∨ operandTerm? t = none := by
  have number (ht : operandTerm? t = some (numberTerm false t)) (hn : isNumber t = true) :
      (∃ a, operandTerm? t = some (.ok a) ∧ OperandForm [t] ⟨t.loc, a⟩) ∨
        (∃ f, operandTerm? t = some (.error f) ∧ Blames t f) ∨ operandTerm? t = none := by
    rcases number_cases hn with ⟨a, ha⟩ | hd
    · exact .inl ⟨a, by rw [ht, (numberTerm_of_form ha).2.1], .number ha⟩
    · obtain ⟨d, hd⟩ := hd false
      exact .inr (.inl ⟨_, by rw [ht, hd], .demand⟩)
  cases hk : t.kind with
  | integer | float => exact number (by simp [operandTerm?, hk]) (by simp [isNumber, hk])
  | string =>
    cases hv : unescape t.lexeme with
    | ok text => exact .inl ⟨.string text, by simp [operandTerm?, hk, hv], .string hk hv⟩
    | error l =>
      exact .inr (.inl ⟨.limit l, by simp [operandTerm?, hk, hv],
        .limit (by simp [Token.limit?, hk, hv])⟩)
  | trueWord => exact .inl ⟨.bool true, by simp [operandTerm?, hk], .trueWord hk⟩
  | falseWord => exact .inl ⟨.bool false, by simp [operandTerm?, hk], .falseWord hk⟩
  | identifier => exact .inl ⟨.reference t.lexeme, by simp [operandTerm?, hk], .name hk⟩
  | character | hashWord | thenWord | definedWord | undefinedWord | newline | eof | symbol =>
    exact .inr (.inr (by simp [operandTerm?, hk]))

theorem numberForm_zero (h : t.kind = .integer) (hl : t.lexeme = "0") : NumberForm t (.int 0) :=
  .integer h (hl ▸ by decide)

theorem negatedNumber_judged (hm : minus.kind = .symbol "-") (ts : List Token) :
    Judged OperandForm [minus] (fun stop => negatedNumber stop minus) ts := by
  have hv : Viable OperandForm [minus] :=
    .one (minus.loc.index + 1) .integer "0" nofun (by decide) fun _ =>
      ⟨_, .negated hm rfl (numberForm_zero rfl rfl)⟩
  cases ts with
  | nil =>
    refine .refuse hv fun stop ts' ht => ?_
    obtain rfl := List.head?_eq_none_iff.mp ht
    by_cases hg : (isNumber stop && stop.loc.index == minus.loc.index + 1) = true
    · exact ⟨_, congrArg Parsed.result (if_pos hg), .demand⟩
    · exact ⟨_, congrArg Parsed.result (if_neg hg), .demand⟩
  | cons t ts =>
    by_cases hg : (isNumber t && t.loc.index == minus.loc.index + 1) = true
    · have hr (stop : Token) (rest : List Token) : negatedNumber stop minus (t :: rest) =
          (advance stop (t :: rest)).andThen fun t rest _ =>
            ⟨(numberTerm true t).map (⟨minus.loc, ·⟩), rest, List.suffix_refl rest⟩ := if_pos hg
      have hs (stop : Token) (rest : List Token) : (advance stop (t :: rest)).Gives t rest :=
        ⟨rfl, rfl⟩
      obtain ⟨hn, hi⟩ := Bool.and_eq_true_iff.mp hg
      rcases number_cases hn with ⟨a, ha⟩ | hd
      · refine .read [t] rfl (.negated hm (eq_of_beq hi) ha) fun stop rest _ => ?_
        rw [List.singleton_append, hr]
        refine (hs stop rest).andThen fun _ => ?_
        rw [(numberTerm_of_form ha).2.2]
        exact ⟨rfl, rfl⟩
      · obtain ⟨d, hd⟩ := hd true
        refine .refuse hv fun stop ts' ht => ?_
        obtain ⟨us, rfl⟩ := cons_of_head? ht
        refine ⟨_, ?_, .demand (d := d)⟩
        rw [hr]
        refine (hs stop us).andThen_error fun _ => ?_
        rw [hd]
        rfl
    · refine .refuse hv fun stop ts' ht => ?_
      obtain ⟨us, rfl⟩ := cons_of_head? ht
      exact ⟨_, congrArg Parsed.result (if_neg hg), .demand⟩

theorem operand_judged (ts : List Token) : Judged OperandForm [] operand ts := by
  cases ts with
  | nil =>
    refine .refuse viable_operandForm fun stop ts' ht => ?_
    obtain rfl := List.head?_eq_none_iff.mp ht
    exact ⟨_, rfl, .demand⟩
  | cons t ts =>
    by_cases hm : t.kind = .symbol "-"
    · exact .behind (fun stop ts => if_pos hm) (negatedNumber_judged hm ts)
    · have stuck (h : ∀ stop rest, ∃ f, (operand stop (t :: rest)).result = .error f ∧ Blames t f) :
          Judged OperandForm [] operand (t :: ts) := by
        refine .refuse viable_operandForm fun stop ts' ht => ?_
        obtain ⟨us, rfl⟩ := cons_of_head? ht
        exact h stop us
      rcases operandTerm?_form t with ⟨a, ha, hf⟩ | ⟨f, ht, hb⟩ | ht
      · refine .read [t] rfl hf fun stop rest _ => ?_
        rw [List.singleton_append, operand, if_neg hm, ha]
        exact ⟨rfl, rfl⟩
      · exact stuck fun stop rest => ⟨f, by rw [operand, if_neg hm, ht]; rfl, hb⟩
      · exact stuck fun stop rest => ⟨_, by rw [operand, if_neg hm, ht]; rfl, .demand⟩

/-! ## Predicates -/

theorem comparisonTail_judged {lhs : Operand} (hl : OperandForm front lhs) (ts : List Token) :
    Judged PredicateForm front (fun stop => comparisonTail stop lhs) ts := by
  cases ts with
  | nil =>
    refine .pure (.alone hl) fun stop ts' ht => ?_
    obtain rfl := List.head?_eq_none_iff.mp ht
    exact ⟨rfl, rfl⟩
  | cons t ts =>
    cases hc : comparison? t with
    | none =>
      refine .pure (.alone hl) fun stop ts' ht => ?_
      obtain ⟨us, rfl⟩ := cons_of_head? ht
      rw [comparisonTail, hc]
      exact ⟨rfl, rfl⟩
    | some op =>
      have hs (stop : Token) (ts : List Token) : comparisonTail stop lhs (t :: ts) =
          ((operand stop ts).map (.compare t.loc op lhs)).behind t := by
        rw [comparisonTail, hc]
      refine .behind hs (.map (fun _ _ => rfl) (operand_judged ts) fun used a ha => ?_)
      rw [List.append_assoc]
      exact .comparison hl (comparison?_eq_some.mp hc) ha

/-- A token of a kind that completes a form. -/
theorem expect_judged {form : List Token → Condition → Prop} {make : Token → Condition}
    (kind : Kind) (d : Demand) (hf : ∀ u, u.kind = kind → form (front ++ [u]) (make u))
    (hv : Viable form front) (ts : List Token) :
    Judged form front (fun stop ts => (expect stop kind d ts).map make) ts := by
  cases ts with
  | nil =>
    refine .refuse hv fun stop ts' ht => ?_
    obtain rfl := List.head?_eq_none_iff.mp ht
    by_cases hk : stop.kind = kind
    · have he : expect stop kind d [] = advance stop [] := if_pos hk
      rw [he]
      exact ⟨_, rfl, .demand⟩
    · have he : expect stop kind d [] = .demand stop d [] := if_neg hk
      rw [he]
      exact ⟨_, rfl, .demand⟩
  | cons t ts =>
    by_cases hk : t.kind = kind
    · exact .read [t] rfl (hf t hk) fun stop rest _ => (expect_of_kind hk).map
    · refine .refuse hv fun stop ts' ht => ?_
      obtain ⟨us, rfl⟩ := cons_of_head? ht
      have he : expect stop kind d (t :: us) = .demand t d (t :: us) := if_neg hk
      rw [he]
      exact ⟨_, rfl, .demand⟩

/-- A name behind one of the words that ask whether it is bound. -/
theorem name_judged {t : Token} {make : Token → Condition} (d : Demand)
    (hf : ∀ name, name.kind = .identifier → PredicateForm [t, name] (make name))
    (ts : List Token) :
    Judged PredicateForm [t] (fun stop ts => (expect stop .identifier d ts).map make) ts :=
  expect_judged .identifier d hf
    (.one 0 .identifier "x" nofun (by decide) fun _ => ⟨_, hf _ rfl⟩) ts

theorem viable_predicateForm : Viable PredicateForm [] :=
  .one 0 .identifier "x" nofun (by decide) fun _ => ⟨_, .alone (.name rfl)⟩

theorem viable_of_form {form : List Token → α → Prop} (h : form ts a) : Viable form ts :=
  fun _ => ⟨[], a, nofun, (List.append_nil ts).symm ▸ h⟩

theorem simplePredicate_judged (ts : List Token) : Judged PredicateForm [] simplePredicate ts := by
  cases ts with
  | nil =>
    refine .refuse viable_predicateForm fun stop ts' ht => ?_
    obtain rfl := List.head?_eq_none_iff.mp ht
    exact ⟨_, rfl, .demand⟩
  | cons t ts =>
    by_cases hd : t.kind = .definedWord
    · exact .behind (fun _ _ => if_pos hd)
        (name_judged (.variableName t.lexeme) (fun _ => .defined hd) ts)
    by_cases hu : t.kind = .undefinedWord
    · refine .behind (fun stop ts => ?_)
        (name_judged (.variableName t.lexeme) (fun _ => .undefined hu) ts)
      exact (if_neg hd).trans (if_pos hu)
    refine .congr (fun stop us h => ?_) (.andThen (fun _ _ => rfl) (operand_judged (t :: ts))
      (fun lhs used rest _ hl => comparisonTail_judged hl rest) fun used lhs hl =>
        viable_of_form (.alone hl))
    obtain ⟨us, rfl⟩ := cons_of_head? h
    exact (if_neg hd).trans (if_neg hu)

/-! ## Conditions -/

theorem viable_closing {opening : Token} {inner : Condition} (ho : opening.kind = .symbol "(")
    (h : ConditionForm used inner) : Viable PredicateForm (opening :: used) :=
  .one 0 (.symbol ")") ")" nofun (by decide) fun _ => ⟨inner, .parentheses ho h rfl⟩

mutual

theorem condition_judged (ts : List Token) : Judged ConditionForm [] condition ts :=
  .andThen (fun stop ts => by rw [condition]) (conjunction_judged ts)
    (fun lhs used rest h hl =>
      have : rest.length ≤ ts.length := by simp [h]
      conditionTail_judged (.conjunction hl) rest)
    fun used lhs hl => viable_of_form (.conjunction hl)
  termination_by ts.length * 5 + 4

theorem conditionTail_judged {front : List Token} {lhs : Condition} (hl : ConditionForm front lhs) :
    (ts : List Token) → Judged ConditionForm front (fun stop => conditionTail stop lhs) ts
  | [] => by
    refine .pure hl fun stop ts' ht => ?_
    obtain rfl := List.head?_eq_none_iff.mp ht
    exact conditionTail_of_notNext nofun
  | t :: ts => by
    by_cases ho : t.kind = .symbol "||"
    · have hf {used : List Token} {rhs : Condition} (hr : ConjunctionForm used rhs) :
          ConditionForm (front ++ [t] ++ used) (.or t.loc lhs rhs) := by
        simpa using hl.or ho hr
      refine .behind (fun stop ts => by rw [conditionTail, if_pos ho]) ?_
      refine .andThen (fun _ _ => rfl) (conjunction_judged ts) (fun rhs used rest h hr => ?_)
        fun used rhs hr => viable_of_form (hf hr)
      have : rest.length ≤ ts.length := by simp [h]
      exact conditionTail_judged (hf hr) rest
    · refine .pure hl fun stop ts' ht => conditionTail_of_notNext fun u hu hk => ?_
      obtain rfl : t = u := Option.some.inj (ht.symm.trans hu)
      exact ho (List.mem_singleton.mp hk)
  termination_by ts => ts.length * 5 + 3

theorem conjunction_judged (ts : List Token) : Judged ConjunctionForm [] conjunction ts :=
  .andThen (fun stop ts => by rw [conjunction]) (predicate_judged ts)
    (fun lhs used rest h hl =>
      have : rest.length ≤ ts.length := by simp [h]
      conjunctionTail_judged (.predicate hl) rest)
    fun used lhs hl => viable_of_form (.predicate hl)
  termination_by ts.length * 5 + 2

theorem conjunctionTail_judged {front : List Token} {lhs : Condition}
    (hl : ConjunctionForm front lhs) :
    (ts : List Token) → Judged ConjunctionForm front (fun stop => conjunctionTail stop lhs) ts
  | [] => by
    refine .pure hl fun stop ts' ht => ?_
    obtain rfl := List.head?_eq_none_iff.mp ht
    exact conjunctionTail_of_notNext nofun
  | t :: ts => by
    by_cases ho : t.kind = .symbol "&&"
    · have hf {used : List Token} {rhs : Condition} (hr : PredicateForm used rhs) :
          ConjunctionForm (front ++ [t] ++ used) (.and t.loc lhs rhs) := by
        simpa using hl.and ho hr
      refine .behind (fun stop ts => by rw [conjunctionTail, if_pos ho]) ?_
      refine .andThen (fun _ _ => rfl) (predicate_judged ts) (fun rhs used rest h hr => ?_)
        fun used rhs hr => viable_of_form (hf hr)
      have : rest.length ≤ ts.length := by simp [h]
      exact conjunctionTail_judged (hf hr) rest
    · refine .pure hl fun stop ts' ht => conjunctionTail_of_notNext fun u hu hk => ?_
      obtain rfl : t = u := Option.some.inj (ht.symm.trans hu)
      exact ho (List.mem_singleton.mp hk)
  termination_by ts => ts.length * 5 + 1

theorem predicate_judged : (ts : List Token) → Judged PredicateForm [] predicate ts
  | [] => .congr (fun stop ts' ht => by rw [List.head?_eq_none_iff.mp ht, predicate])
      (simplePredicate_judged [])
  | t :: ts => by
    by_cases ho : t.kind = .symbol "("
    · refine .behind (fun stop ts => by rw [predicate, if_pos ho]) ?_
      refine .andThen (fun _ _ => rfl) (condition_judged ts)
        (fun inner used rest _ h => ?_) fun used inner h => viable_closing ho h
      exact expect_judged (.symbol ")") .closing (fun _ => .parentheses ho h)
        (viable_closing ho h) rest
    · refine .congr (fun stop ts' ht => ?_) (simplePredicate_judged (t :: ts))
      obtain ⟨us, rfl⟩ := cons_of_head? ht
      rw [predicate, if_neg ho]
  termination_by ts => ts.length * 5

end

end Header

end HashIf
