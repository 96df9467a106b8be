import HashIf.Proofs.Condition.Limits
import HashIf.Proofs.Version.Form

/-! The truth of conditions. What evaluation gives is the truth of classical logic, whatever may be
true of the predicates that fail; and where it fails, it fails as the one predicate does that fails
and is reached. A comparison fails by the first thing that is wrong with it. -/

namespace HashIf

/-! ## Places of predicates -/

/-- The side of a connective on which a condition stands. -/
inductive Side
  | left
  | right
  deriving DecidableEq

namespace Condition

/-- A condition without connectives. -/
def IsPredicate : Condition → Prop
  | and .. | or .. => False
  | compare .. | defined .. | undefined .. => True

/-- The truth of a condition in classical logic, if of each predicate that fails `σ` says whether it
is true, by the sides on which it stands in the connectives around it, the outermost first. -/
def truthUnder (env : Environment) (σ : List Side → Bool) : Condition → Bool
  | and _ lhs rhs =>
    lhs.truthUnder env (fun w => σ (.left :: w)) && rhs.truthUnder env (fun w => σ (.right :: w))
  | or _ lhs rhs =>
    lhs.truthUnder env (fun w => σ (.left :: w)) || rhs.truthUnder env (fun w => σ (.right :: w))
  | predicate =>
    match predicate.evaluate env with
    | .ok b => b
    | .error _ => σ []

/-- A predicate at a place of a condition that is reached: where it stands on the right of `&&`, the
left side is true, and where it stands on the right of `||`, the left side is false. -/
inductive Reached (env : Environment) : Condition → List Side → Condition → Prop
  | here (h : IsPredicate p) : Reached env p [] p
  | andLeft (h : Reached env lhs w p) : Reached env (and l lhs rhs) (.left :: w) p
  | andRight (hl : lhs.evaluate env = .ok true) (h : Reached env rhs w p) :
    Reached env (and l lhs rhs) (.right :: w) p
  | orLeft (h : Reached env lhs w p) : Reached env (or l lhs rhs) (.left :: w) p
  | orRight (hl : lhs.evaluate env = .ok false) (h : Reached env rhs w p) :
    Reached env (or l lhs rhs) (.right :: w) p

variable {env : Environment} {c p q : Condition} {w w' : List Side}

/-! ## Evaluation -/

theorem truthUnder_of_evaluate (h : c.evaluate env = .ok b) (σ : List Side → Bool) :
    c.truthUnder env σ = b := by
  induction c generalizing b σ with
  | and l lhs rhs ihl ihr =>
    rw [evaluate] at h
    rw [truthUnder]
    split at h
    · next hl => rw [ihl hl, ihr h, Bool.true_and]
    · next hne =>
      obtain rfl : b = false := Bool.eq_false_iff.mpr fun hb => hne (hb ▸ h)
      rw [ihl h, Bool.false_and]
  | or l lhs rhs ihl ihr =>
    rw [evaluate] at h
    rw [truthUnder]
    split at h
    · next hl => rw [ihl hl, ihr h, Bool.false_or]
    · next hne =>
      obtain rfl : b = true := Bool.not_eq_false _ |>.mp fun hb => hne (hb ▸ h)
      rw [ihl h, Bool.true_or]
  | compare | defined | undefined => simp only [truthUnder, h]

theorem exists_reached_of_error (h : c.evaluate env = .error f) :
    ∃ w p, Reached env c w p ∧ p.evaluate env = .error f := by
  induction c with
  | and l lhs rhs ihl ihr =>
    rw [evaluate] at h
    split at h
    · next hl =>
      obtain ⟨w, p, hw, hp⟩ := ihr h
      exact ⟨_, p, .andRight hl hw, hp⟩
    · obtain ⟨w, p, hw, hp⟩ := ihl h
      exact ⟨_, p, .andLeft hw, hp⟩
  | or l lhs rhs ihl ihr =>
    rw [evaluate] at h
    split at h
    · next hl =>
      obtain ⟨w, p, hw, hp⟩ := ihr h
      exact ⟨_, p, .orRight hl hw, hp⟩
    · obtain ⟨w, p, hw, hp⟩ := ihl h
      exact ⟨_, p, .orLeft hw, hp⟩
  | compare | defined | undefined => exact ⟨[], _, .here trivial, h⟩

/-- A predicate that fails and is reached makes the condition fail as it does. -/
theorem Reached.evaluate_error (hw : Reached env c w p) (h : p.evaluate env = .error f) :
    c.evaluate env = .error f := by
  induction hw with
  | here => exact h
  | andLeft _ ih | orLeft _ ih => rw [evaluate, ih h]
  | andRight hl _ ih | orRight hl _ ih =>
    rw [evaluate, hl]
    exact ih h

/-- No two predicates are reached that fail. -/
theorem Reached.unique (hw : Reached env c w p) (hp : p.evaluate env = .error f)
    (hw' : Reached env c w' q) (hq : q.evaluate env = .error f') : w = w' ∧ p = q := by
  -- Behind a side that fails nothing is reached.
  have apart {lhs r : Condition} {v : List Side} {g : Failure} {b : Bool}
      (hv : Reached env lhs v r) (hr : r.evaluate env = .error g) (hl : lhs.evaluate env = .ok b) :
      False := by
    cases (hv.evaluate_error hr).symm.trans hl
  induction hw generalizing w' with
  | here h =>
    cases hw' with
    | here => exact ⟨rfl, rfl⟩
    | andLeft | andRight | orLeft | orRight => exact h.elim
  | andLeft h ih =>
    cases hw' with
    | here h' => exact h'.elim
    | andLeft h' => exact (ih hp h').imp_left (congrArg _)
    | andRight hl => exact (apart h hp hl).elim
  | orLeft h ih =>
    cases hw' with
    | here h' => exact h'.elim
    | orLeft h' => exact (ih hp h').imp_left (congrArg _)
    | orRight hl => exact (apart h hp hl).elim
  | andRight hl h ih =>
    cases hw' with
    | here h' => exact h'.elim
    | andLeft h' => exact (apart h' hq hl).elim
    | andRight _ h' => exact (ih hp h').imp_left (congrArg _)
  | orRight hl h ih =>
    cases hw' with
    | here h' => exact h'.elim
    | orLeft h' => exact (apart h' hq hl).elim
    | orRight _ h' => exact (ih hp h').imp_left (congrArg _)

end Condition

/-! ## Comparisons -/

/-- A reference to a name that is not bound. -/
def Operand.Unbound (a : Operand) (env : Environment) (name : String) : Prop :=
  a.term = .reference name ∧ env.contains name = false

/-- The operator compares operands of the two types. -/
def Comparison.Admits (op : Comparison) (a b : ValueType) : Prop :=
  if op = .satisfies then a = .string ∧ b = .string else a = b

theorem Comparison.admits_satisfies : Admits .satisfies a b ↔ a = .string ∧ b = .string := Iff.rfl

/-- What is wrong with a comparison, where its operands are looked up first, the left one before the
right one, then their types are looked at, and then the range and the version that they are. -/
inductive ComparisonFault (env : Environment) (loc : Location) (op : Comparison)
    (lhs rhs : Operand) : Diagnostic → Prop
  | unboundLeft (h : lhs.Unbound env name) :
    ComparisonFault env loc op lhs rhs (.unbound lhs.loc name)
  | unboundRight (hl : lhs.value env = .ok v) (h : rhs.Unbound env name) :
    ComparisonFault env loc op lhs rhs (.unbound rhs.loc name)
  | types (hl : lhs.value env = .ok v) (hr : rhs.value env = .ok w) (h : ¬op.Admits v.type w.type) :
    ComparisonFault env loc op lhs rhs (.operands loc op v.type w.type)
  | emptyRange (ho : op = .satisfies) (hl : lhs.value env = .ok ⟨.string version, raw⟩)
    (hr : rhs.value env = .ok ⟨.string [], raw'⟩) :
    ComparisonFault env loc op lhs rhs (.emptyRange (some loc))
  | range (ho : op = .satisfies) (hl : lhs.value env = .ok ⟨.string version, raw⟩)
    (hr : rhs.value env = .ok ⟨.string range, raw'⟩) (hn : range ≠ []) (h : ¬IsRange range) :
    ComparisonFault env loc op lhs rhs
      (.illegalVersion (some loc) (VersionRange.splitMark range).2)
  | version (ho : op = .satisfies) (hl : lhs.value env = .ok ⟨.string version, raw⟩)
    (hr : rhs.value env = .ok ⟨.string range, raw'⟩) (h : IsRange range)
    (hv : ¬IsVersion version) :
    ComparisonFault env loc op lhs rhs (.illegalVersion (some loc) version)

theorem Environment.lookup?_eq_none_iff {env : Environment} :
    env.lookup? name = none ↔ env.contains name = false := by
  rw [lookup?, contains, Option.map_eq_none_iff, Option.isSome_eq_false_iff,
    Option.isNone_iff_eq_none]

/-- An operand has a value, or it refers to a name that is not bound, or it is an integer beyond the
limit. -/
theorem Operand.value_cases (a : Operand) (env : Environment) :
    (∃ v, a.value env = .ok v) ∨
      (∃ name, a.Unbound env name ∧ a.value env = .error (.diagnostic (.unbound a.loc name))) ∨
        a.value env = .error (.limit .integer) := by
  unfold value Unbound
  cases a.term with
  | int v =>
    dsimp only
    split
    · exact .inl ⟨_, rfl⟩
    · exact .inr (.inr rfl)
  | float | string | bool => exact .inl ⟨_, rfl⟩
  | reference name =>
    cases hl : env.lookup? name with
    | none => exact .inr (.inl ⟨name, ⟨rfl, Environment.lookup?_eq_none_iff.mp hl⟩, by simp [hl]⟩)
    | some v => exact .inl ⟨v, by simp [hl]⟩

theorem Operand.value_of_unbound {a : Operand} (h : a.Unbound env name) :
    a.value env = .error (.diagnostic (.unbound a.loc name)) := by
  obtain ⟨ht, hn⟩ := h
  simp only [value, ht, Environment.lookup?_eq_none_iff.mpr hn]

namespace Comparison

variable {op : Comparison} {v w : Value}

theorem accepts_iff : op.accepts a b = true ↔ op.Admits a b := by
  unfold accepts Admits
  cases op <;> simp

theorem operands_of_admits (hl : lhs.value env = .ok v) (hr : rhs.value env = .ok w)
    (h : op.Admits v.type w.type) : op.operands loc lhs rhs env = .ok (v, w) := by
  simp only [operands, hl, hr, accepts_iff.mpr h, if_true]

theorem operands_of_not_admits (hl : lhs.value env = .ok v) (hr : rhs.value env = .ok w)
    (h : ¬op.Admits v.type w.type) :
    op.operands loc lhs rhs env = .error (.diagnostic (.operands loc op v.type w.type)) := by
  simp only [operands, hl, hr, mt accepts_iff.mp h]
  rfl

/-- Only a test for a range can fail when its operands have been found. -/
theorem compare_ok (h : op ≠ .satisfies) : ∃ b, op.compare loc v w = .ok b := by
  unfold compare
  split
  · exact (h rfl).elim
  · exact ⟨_, rfl⟩

theorem compare_satisfies (hv : v.datum = .string version) (hw : w.datum = .string range) :
    compare .satisfies loc v w =
      (HashIf.satisfies version range).mapError (.ofVersion (some loc)) := by
  unfold compare
  simp only [hv, hw]
  cases HashIf.satisfies version range <;> rfl

end Comparison

namespace Condition

variable {env : Environment} {op : Comparison} {lhs rhs : Operand} {loc : Location}

/-- A comparison that fails with a diagnostic has the fault that the diagnostic names. -/
theorem fault_of_evaluate
    (h : (compare loc op lhs rhs).evaluate env = .error (.diagnostic d)) :
    ComparisonFault env loc op lhs rhs d := by
  rw [evaluate] at h
  rcases lhs.value_cases env with ⟨v, hl⟩ | ⟨name, hu, hl⟩ | hl
  rotate_left
  · simp only [Comparison.operands, hl] at h
    cases h
    exact .unboundLeft hu
  · simp only [Comparison.operands, hl] at h
    cases h
  rcases rhs.value_cases env with ⟨w, hr⟩ | ⟨name, hu, hr⟩ | hr
  rotate_left
  · simp only [Comparison.operands, hl, hr] at h
    cases h
    exact .unboundRight hl hu
  · simp only [Comparison.operands, hl, hr] at h
    cases h
  by_cases ha : op.Admits v.type w.type
  rotate_left
  · rw [Comparison.operands_of_not_admits hl hr ha] at h
    cases h
    exact .types hl hr ha
  rw [Comparison.operands_of_admits hl hr ha] at h
  by_cases ho : op = .satisfies
  rotate_left
  · obtain ⟨b, hb⟩ := Comparison.compare_ok ho
    cases hb.symm.trans h
  subst ho
  obtain ⟨hv, hw⟩ := Comparison.admits_satisfies.mp ha
  obtain ⟨datum, raw⟩ := v
  obtain ⟨datum', raw'⟩ := w
  cases datum <;> cases hv
  cases datum' <;> cases hw
  next version range =>
  dsimp only at h
  rw [Comparison.compare_satisfies rfl rfl] at h
  cases hs : satisfies version range with
  | ok b => rw [hs] at h; cases h
  | error e =>
    rw [hs] at h
    cases e with
    | digits n => cases h
    | emptyRange =>
      cases h
      obtain rfl := satisfies_emptyRange_iff.mp hs
      exact .emptyRange rfl hl hr
    | illegal u =>
      cases h
      rcases satisfies_illegal_iff.mp hs with ⟨hn, hr', rfl⟩ | ⟨⟨r, hr'⟩, hv', rfl⟩
      · exact .range rfl hl hr hn hr'
      · exact .version rfl hl hr (VersionRange.isRange_of_ok hr') hv'

/-- A comparison with a fault fails with its diagnostic, unless a number of the range goes beyond
the limit before the version is looked at. -/
theorem evaluate_of_fault (h : ComparisonFault env loc op lhs rhs d)
    (hb : ¬BreaksOff ((compare loc op lhs rhs).evaluate env)) :
    (compare loc op lhs rhs).evaluate env = .error (.diagnostic d) := by
  have test {version range : Text} {raw raw' : Text} (ho : op = .satisfies)
      (hl : lhs.value env = .ok ⟨.string version, raw⟩)
      (hr : rhs.value env = .ok ⟨.string range, raw'⟩) :
      (compare loc op lhs rhs).evaluate env =
        (satisfies version range).mapError (.ofVersion (some loc)) := by
    subst ho
    rw [evaluate, Comparison.operands_of_admits hl hr (Comparison.admits_satisfies.mpr ⟨rfl, rfl⟩)]
    exact Comparison.compare_satisfies rfl rfl
  cases h with
  | unboundLeft h => simp only [evaluate, Comparison.operands, Operand.value_of_unbound h]
  | unboundRight hl h => simp only [evaluate, Comparison.operands, hl, Operand.value_of_unbound h]
  | types hl hr h => rw [evaluate, Comparison.operands_of_not_admits hl hr h]
  | emptyRange ho hl hr => rw [test ho hl hr, satisfies_emptyRange_iff.mpr rfl]; rfl
  | range ho hl hr hn h =>
    rw [test ho hl hr, satisfies_illegal_iff.mpr (.inl ⟨hn, h, rfl⟩)]
    rfl
  | version ho hl hr h hv =>
    rw [test ho hl hr] at hb ⊢
    rcases VersionRange.ofText_of_isRange h with hr' | ⟨n, hd⟩
    · rw [satisfies_illegal_iff.mpr (.inr ⟨hr', hv, rfl⟩)]
      rfl
    · exact (hb ⟨.numeral n, by rw [satisfies, hd]; rfl⟩).elim

/-- What evaluation gives is the truth of classical logic, whatever may be true of the predicates
that fail. It fails exactly as the one predicate does that fails and is reached. A comparison that
meets no limit fails exactly by the first thing that is wrong with it, and a test for a name never
fails. -/
theorem evaluate_classical (env : Environment) :
    (∀ (c : Condition) b, c.evaluate env = .ok b → ∀ σ, c.truthUnder env σ = b) ∧
    (∀ (c : Condition) f, c.evaluate env = .error f ↔
      ∃ w p, Reached env c w p ∧ p.evaluate env = .error f) ∧
    (∀ c w p f w' p' f', Reached env c w p → p.evaluate env = .error f →
      Reached env c w' p' → p'.evaluate env = .error f' → w = w' ∧ p = p') ∧
    (∀ loc op lhs rhs, ¬BreaksOff ((compare loc op lhs rhs).evaluate env) →
      (∀ d, (compare loc op lhs rhs).evaluate env = .error (.diagnostic d) ↔
        ComparisonFault env loc op lhs rhs d) ∧
      ((∃ b, (compare loc op lhs rhs).evaluate env = .ok b) ↔
        ∀ d, ¬ComparisonFault env loc op lhs rhs d)) ∧
    ∀ loc name, (defined loc name).evaluate env = .ok (env.contains name) ∧
      (undefined loc name).evaluate env = .ok (!env.contains name) := by
  refine ⟨fun c b => truthUnder_of_evaluate, fun c f => ⟨exists_reached_of_error, ?_⟩,
    fun c w p f w' p' f' hw hp hw' hp' => hw.unique hp hw' hp', fun loc op lhs rhs hb => ?_,
    fun loc name => ⟨rfl, rfl⟩⟩
  · rintro ⟨w, p, hw, hp⟩
    exact hw.evaluate_error hp
  have fault (d) : (compare loc op lhs rhs).evaluate env = .error (.diagnostic d) ↔
      ComparisonFault env loc op lhs rhs d :=
    ⟨fault_of_evaluate, fun h => evaluate_of_fault h hb⟩
  refine ⟨fault, ?_⟩
  simp only [← fault]
  cases he : (compare loc op lhs rhs).evaluate env with
  | ok b => simp
  | error f =>
    cases f with
    | diagnostic d => simp
    | limit l => exact (hb ⟨l, he⟩).elim

/-- A test for a name that guards a reference to it, and a range of two numbers. -/
theorem evaluate_classical_guarded :
    let l : Location := ⟨"f", 0, 1, 1, 1⟩
    let one : Operand := ⟨l, .int 1⟩
    let version : Operand := ⟨l, .string (.ofString "1.2.3")⟩
    let range : Operand := ⟨l, .string (.ofString "^1.2")⟩
    let fault : Diagnostic := .illegalVersion (some l) (.ofString "1.2")
    let guarded := or l (undefined l "x") (compare l .eq ⟨l, .reference "x"⟩ one)
    let both := and l guarded (compare l .satisfies version range)
    guarded.evaluate .empty = .ok true ∧ (∀ σ, guarded.truthUnder .empty σ = true) ∧
      both.evaluate .empty = .error (.diagnostic fault) ∧
      (∃ w p, Reached .empty both w p ∧ p.evaluate .empty = .error (.diagnostic fault)) ∧
      ¬BreaksOff ((compare l .satisfies version range).evaluate .empty) ∧
      ComparisonFault .empty l .satisfies version range fault := by
  intro l one version range fault guarded both
  obtain ⟨truth, failing, -, comparing, -⟩ := evaluate_classical .empty
  have hg : guarded.evaluate .empty = .ok true := by cbv
  have hb : both.evaluate .empty = .error (.diagnostic fault) := by cbv
  have hc : (compare l .satisfies version range).evaluate .empty = .error (.diagnostic fault) := by
    cbv
  have hn : ¬BreaksOff ((compare l .satisfies version range).evaluate .empty) :=
    hc ▸ not_breaksOff_diagnostic
  exact ⟨hg, truth _ _ hg, hb, (failing _ _).mp hb, hn,
    ((comparing l .satisfies version range hn).1 fault).mp hc⟩

end Condition

end HashIf
