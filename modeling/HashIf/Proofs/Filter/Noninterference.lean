import HashIf.Proofs.Condition.Acceptance
import HashIf.Proofs.Filter.Run

/-! Noninterference: of an environment, a pass sees no more than the raw texts of the names in the
headers of `#if` and `#elif`. What else is bound, and to what, does not show in the tokens that it
keeps, in its failure or in where it ends. -/

namespace HashIf

/-! ## Names in conditions -/

def Operand.names (a : Operand) : List String :=
  match a.term with
  | .reference name => [name]
  | _ => []

/-- The names that a condition looks up or asks about. -/
def Condition.names : Condition → List String
  | and _ lhs rhs | or _ lhs rhs => lhs.names ++ rhs.names
  | compare _ _ lhs rhs => lhs.names ++ rhs.names
  | defined _ name | undefined _ name => [name]

/-- The tokens mention the name by an identifier. -/
def Mentions (ts : List Token) (name : String) : Prop :=
  ∃ t ∈ ts, t.kind = .identifier ∧ t.lexeme = name

namespace Mentions

variable {ts us : List Token} {name : String}

theorem append_left (h : Mentions ts name) : Mentions (ts ++ us) name := by
  obtain ⟨t, ht, hn⟩ := h
  exact ⟨t, List.mem_append_left us ht, hn⟩

theorem append_right (h : Mentions us name) : Mentions (ts ++ us) name := by
  obtain ⟨t, ht, hn⟩ := h
  exact ⟨t, List.mem_append_right ts ht, hn⟩

theorem cons {t : Token} (h : Mentions ts name) : Mentions (t :: ts) name := by
  obtain ⟨u, hu, hn⟩ := h
  exact ⟨u, List.mem_cons_of_mem t hu, hn⟩

end Mentions

theorem mentions_of_operandForm (h : OperandForm ts a) (hn : name ∈ a.names) :
    Mentions ts name := by
  cases h with
  | name hk =>
    obtain rfl := List.mem_singleton.mp hn
    exact ⟨_, List.mem_singleton_self _, hk, rfl⟩
  | number h => cases h <;> cases hn
  | negated _ _ h => cases h <;> cases hn
  | string | trueWord | falseWord => cases hn

mutual

/-- What a condition asks about is mentioned by the tokens that stand for it. -/
theorem mentions_of_predicateForm {name : String} : {ts : List Token} → {c : Condition} →
    PredicateForm ts c → name ∈ c.names → Mentions ts name
  | _, _, .parentheses _ h _, hn => (mentions_of_conditionForm h hn).append_left.cons
  | _, _, .defined _ hk, hn | _, _, .undefined _ hk, hn => by
    obtain rfl := List.mem_singleton.mp hn
    exact ⟨_, List.mem_cons_of_mem _ (List.mem_singleton_self _), hk, rfl⟩
  | _, _, .alone h, hn => by
    rcases List.mem_append.mp hn with hn | hn
    · exact mentions_of_operandForm h hn
    · cases hn
  | _, _, .comparison hl _ hr, hn => by
    rcases List.mem_append.mp hn with hn | hn
    · exact (mentions_of_operandForm hl hn).append_left
    · exact (mentions_of_operandForm hr hn).cons.append_right

theorem mentions_of_conjunctionForm {name : String} : {ts : List Token} → {c : Condition} →
    ConjunctionForm ts c → name ∈ c.names → Mentions ts name
  | _, _, .predicate h, hn => mentions_of_predicateForm h hn
  | _, _, .and hl _ hr, hn => by
    rcases List.mem_append.mp hn with hn | hn
    · exact (mentions_of_conjunctionForm hl hn).append_left
    · exact (mentions_of_predicateForm hr hn).cons.append_right

theorem mentions_of_conditionForm {name : String} : {ts : List Token} → {c : Condition} →
    ConditionForm ts c → name ∈ c.names → Mentions ts name
  | _, _, .conjunction h, hn => mentions_of_conjunctionForm h hn
  | _, _, .or hl _ hr, hn => by
    rcases List.mem_append.mp hn with hn | hn
    · exact (mentions_of_conditionForm hl hn).append_left
    · exact (mentions_of_conjunctionForm hr hn).cons.append_right

end

theorem mentions_of_headerForm {c : Condition} (h : HeaderForm ts c n) (hn : name ∈ c.names) :
    Mentions ts name := by
  cases h with
  | whole h => exact mentions_of_conditionForm h hn
  | upToThen h => exact (mentions_of_conditionForm h hn).append_left

/-! ## Environments that agree -/

/-- The environments bind the name to the same raw text, or both do not bind it. -/
def Environment.AgreeOn (env env' : Environment) (name : String) : Prop :=
  env.raw? name = env'.raw? name

namespace Environment.AgreeOn

variable {env env' : Environment} {name : String}

theorem find?_cases (h : env.AgreeOn env' name) :
    (env.find? name = none ∧ env'.find? name = none) ∨
      ∃ v v', env.find? name = some v ∧ env'.find? name = some v' ∧ v.raw = v'.raw := by
  unfold AgreeOn raw? at h
  cases hv : env.find? name with
  | none =>
    rw [hv] at h
    exact .inl ⟨rfl, Option.map_eq_none_iff.mp h.symm⟩
  | some v =>
    rw [hv] at h
    obtain ⟨v', hv', hr⟩ := Option.map_eq_some_iff.mp h.symm
    exact .inr ⟨v, v', rfl, hv', hr.symm⟩

theorem contains_eq (h : env.AgreeOn env' name) : env.contains name = env'.contains name := by
  rcases h.find?_cases with ⟨hv, hv'⟩ | ⟨v, v', hv, hv', -⟩
  · rw [contains, contains, hv, hv']
  · rw [contains, contains, hv, hv']
    rfl

/-- The datum of a variable is determined by its raw text. -/
theorem lookup?_eq (h : env.AgreeOn env' name) : env.lookup? name = env'.lookup? name := by
  rcases h.find?_cases with ⟨hv, hv'⟩ | ⟨v, v', hv, hv', hr⟩
  · rw [lookup?, lookup?, hv, hv']
  · have hd : v.datum = v'.datum := Except.ok.inj (v.datum_eq.symm.trans (hr ▸ v'.datum_eq))
    rw [lookup?, lookup?, hv, hv']
    simp [Variable.value, hd, hr]

end Environment.AgreeOn

section

variable {env env' : Environment}

theorem Operand.value_congr {a : Operand} (h : ∀ name ∈ a.names, env.AgreeOn env' name) :
    a.value env = a.value env' := by
  obtain ⟨loc, term⟩ := a
  cases term with
  | reference name =>
    have hl := (h name (List.mem_singleton_self name)).lookup?_eq
    simp only [Operand.value, hl]
  | int | float | string | bool => simp only [Operand.value]

theorem Comparison.operands_congr {op : Comparison} {loc : Location} {lhs rhs : Operand}
    (hl : ∀ name ∈ lhs.names, env.AgreeOn env' name)
    (hr : ∀ name ∈ rhs.names, env.AgreeOn env' name) :
    op.operands loc lhs rhs env = op.operands loc lhs rhs env' := by
  rw [operands, operands, Operand.value_congr hl, Operand.value_congr hr]

theorem Condition.evaluate_congr {c : Condition} (h : ∀ name ∈ c.names, env.AgreeOn env' name) :
    c.evaluate env = c.evaluate env' := by
  induction c with
  | and loc lhs rhs ihl ihr =>
    obtain ⟨hl, hr⟩ := List.forall_mem_append.mp h
    rw [evaluate, evaluate, ihl hl, ihr hr]
  | or loc lhs rhs ihl ihr =>
    obtain ⟨hl, hr⟩ := List.forall_mem_append.mp h
    rw [evaluate, evaluate, ihl hl, ihr hr]
  | compare loc op lhs rhs =>
    obtain ⟨hl, hr⟩ := List.forall_mem_append.mp h
    rw [evaluate, evaluate, Comparison.operands_congr hl hr]
  | defined loc name =>
    rw [evaluate, evaluate, (h name (List.mem_singleton_self name)).contains_eq]
  | undefined loc name =>
    rw [evaluate, evaluate, (h name (List.mem_singleton_self name)).contains_eq]

end

/-! ## Passes -/

/-- From the cursor on, the name is mentioned in the header of some marker `#if` or `#elif`. -/
def Cursor.Consults (c : Cursor) (name : String) : Prop :=
  ∃ n, ((c.drop n).marker? = some .ifMarker ∨ (c.drop n).marker? = some .elifMarker) ∧
    Mentions (headerTokens (c.drop n).tail.lastLine (c.drop n).tail.unread) name

/-- The environments agree on every name that is mentioned from the cursor on. -/
def Cursor.Alike (c : Cursor) (env env' : Environment) : Prop :=
  ∀ name, c.Consults name → env.AgreeOn env' name

section

variable {env env' : Environment} {c : Cursor}

theorem Cursor.Alike.drop (h : c.Alike env env') (n : Nat) : (c.drop n).Alike env env' := by
  rintro name ⟨m, hm, hn⟩
  rw [← Cursor.drop_add] at hm hn
  exact h name ⟨n + m, hm, hn⟩

namespace FilterStep

/-- A condition is read in the same way, and it has the same truth. -/
theorem byCondition_congr {blocks : Bool → List Block} (h : c.Alike env env')
    (hm : c.marker? = some .ifMarker ∨ c.marker? = some .elifMarker) :
    byCondition env t c.tail blocks = byCondition env' t c.tail blocks := by
  unfold byCondition
  cases hc : c.tail.condition t with
  | mk result read =>
    cases result with
    | error f => rfl
    | ok cond =>
      have hf := Cursor.form_of_condition hc
      have he : cond.evaluate env = cond.evaluate env' :=
        Condition.evaluate_congr fun name hn => h name ⟨0, hm, mentions_of_headerForm hf hn⟩
      simp only [he]

theorem next_congr {blocks : List Block} (h : c.Alike env env') :
    next env t c blocks = next env' t c blocks := by
  cases stepCases t c.marker? blocks with
  | fixed step _ hn => rw [hn env c rfl, hn env' c rfl]
  | reads after hm hn => rw [hn env c rfl, hn env' c rfl, byCondition_congr h hm]

end FilterStep

theorem filterFrom_congr {kept : Array Token} {blocks : List Block} (h : c.Alike env env') :
    filterFrom env kept c blocks = filterFrom env' kept c blocks := by
  induction c using Cursor.forward generalizing kept blocks with
  | nil c hu => rw [filterFrom_nil hu, filterFrom_nil hu]
  | cons c t ts hu ih =>
    rw [filterFrom_cons hu, filterFrom_cons hu, FilterStep.next_congr h]
    cases FilterStep.next env' t c blocks with
    | keep => exact ih 0 (h.drop 1)
    | drop skipped => exact ih skipped (h.drop (skipped + 1))
    | fail => rfl

/-- A pass ends at a cursor that the tokens have in front of them. -/
theorem filterFrom_cursor (kept : Array Token) (c : Cursor) (blocks : List Block) :
    ∃ n, (filterFrom env kept c blocks).cursor = c.drop n := by
  induction c using Cursor.forward generalizing kept blocks with
  | nil c hu =>
    rw [filterFrom_nil hu]
    exact ⟨0, rfl⟩
  | cons c t ts hu ih =>
    have goes (kept : Array Token) (k : Nat) (blocks : List Block) :
        ∃ n, (filterFrom env kept (c.tail.drop k) blocks).cursor = c.drop n := by
      obtain ⟨m, hm⟩ := ih k kept blocks
      exact ⟨k + 1 + m, hm.trans (Cursor.drop_add c (k + 1) m).symm⟩
    rw [filterFrom_cons hu]
    cases FilterStep.next env t c blocks with
    | keep => exact goes _ 0 _
    | drop skipped => exact goes _ skipped _
    | fail f read => exact ⟨read, rfl⟩

theorem filterPasses_congr (h : c.Alike env env') (n : Nat) :
    filterPasses env c n = filterPasses env' c n := by
  induction n generalizing c with
  | zero => rfl
  | succ n ih =>
    have hp : filterPass env c = filterPass env' c := filterFrom_congr h
    have hc : (filterPass env c).cursor.Alike env env' := by
      obtain ⟨k, hk⟩ : ∃ k, (filterPass env c).cursor = c.drop k := filterFrom_cursor #[] c []
      rw [hk]
      exact h.drop k
    rw [filterPasses, filterPasses, ← hp, ih hc]

/-- Two environments that give the same raw text, or none, to every name in the header of some
marker `#if` or `#elif` cannot be told apart by any number of passes: each pass keeps the same
tokens, fails alike and ends at the same place. -/
theorem filterPasses_noninterference {ts : List Token}
    (h : ∀ name, (Cursor.start ts).Consults name → env.raw? name = env'.raw? name) :
    filterTokens env ts = filterTokens env' ts ∧
      ∀ n, filterPasses env (.start ts) n = filterPasses env' (.start ts) n := by
  refine ⟨?_, filterPasses_congr h⟩
  have hp : filterPass env (.start ts) = filterPass env' (.start ts) := filterFrom_congr h
  rw [filterTokens, filterTokens, hp]

end

/-- The environment in which `y` is bound and nothing else. -/
def Environment.onlyY : Environment :=
  ⟨[⟨"y", "1", .int 1, by cbv⟩], by simp⟩

/-- A name that a kept segment mentions and no header does may be bound or not. -/
theorem filterPasses_mentionedInSegment :
    let ts := [Token.onLine 1 .hashWord "#if", .onLine 1 .undefinedWord "undefined",
      .onLine 1 .identifier "x", .onLine 2 .identifier "y", .onLine 3 .hashWord "#end"]
    Environment.empty.raw? "y" ≠ Environment.onlyY.raw? "y" ∧
      filterTokens .empty ts = filterTokens .onlyY ts ∧
      ∀ n, filterPasses .empty (.start ts) n = filterPasses .onlyY (.start ts) n := by
  intro ts
  refine ⟨by decide, filterPasses_noninterference ?_⟩
  rintro name ⟨n, hm, u, hu, -, rfl⟩
  have hn : n = 0 := by
    match n, hm with
    | 0, _ => rfl
    | 1, hm | 2, hm | 3, hm | 4, hm => exact absurd hm (by decide)
    | n + 5, hm =>
      have he : ((Cursor.start ts).drop (n + 5)).unread = [] := by simp [ts, Cursor.start]
      have hnone : ((Cursor.start ts).drop (n + 5)).marker? = none := by rw [Cursor.marker?, he]
      simp [hnone] at hm
  subst hn
  have hh : ∀ u ∈ headerTokens 1 ts.tail, Environment.empty.raw? u.lexeme =
      Environment.onlyY.raw? u.lexeme := by decide
  exact hh u hu

end HashIf
