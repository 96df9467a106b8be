import HashIf.Proofs.Condition.Judgement
import HashIf.Proofs.Condition.Truth
import HashIf.Proofs.Source.NumberParts
import HashIf.Proofs.Value.Order

/-! The six comparisons by order. Of two operands that a text can hold, one is less than, equal to
or greater than the other in every environment, and all comparisons say so; or all fail alike. -/

namespace HashIf

/-! ## Operands of texts -/

/-- An operand that is read in a text, or the truth value to which an operand that stands alone is
compared. -/
inductive Operand.Written : Operand → Prop
  | read {stop : Token} (h : tokenize file source = .ok ts) (hs : us <:+: ts)
    (ha : (Header.operand stop us).result = .ok a) : Written a
  | implied (loc : Location) : Written ⟨loc, .bool true⟩

theorem Header.form_of_operand {stop : Token} (h : (operand stop ts).result = .ok a) :
    ∃ used rest, ts = used ++ rest ∧ OperandForm used a := by
  cases operand_judged ts with
  | read used hts hf steady =>
    obtain ⟨hr, -⟩ := steady stop _ rfl
    rw [← hts, h] at hr
    cases hr
    exact ⟨used, _, hts, hf⟩
  | stuck used hts _ refused =>
    obtain ⟨f, hf, -⟩ := refused stop _ rfl
    rw [← hts, h] at hf
    cases hf

/-- A float token of a text stands for a number, whatever the script of its digits. -/
theorem isNan_of_token (h : tokenize file source = .ok ts) (ht : t ∈ ts)
    (hn : NumberForm t (.float x)) : x.isNan = false := by
  cases hn with
  | float hk hx =>
    have hs := standalone_of_tokenize h ht (by simp [hk])
    obtain ⟨c, cs, hc, hd, hn⟩ := hs.numberParts (.inr hk)
    rw [hk] at hn
    exact isNan_of_numeral hx (hc ▸ hn.unnamed hd)

namespace Operand

theorem Written.of_form (hf : OperandForm used a) (h : tokenize file source = .ok ts)
    (hs : used <:+: ts) : Written a := by
  let stop : Token := ⟨.eof, "", a.loc⟩
  have hr : (Header.operand stop (used ++ [])).Gives a [] := Header.operand_of_form hf
  rw [List.append_nil] at hr
  exact .read h hs hr.1

/-- No operand of a text is a float that is no number. -/
theorem Written.isNan {loc : Location} (h : Written ⟨loc, .float x⟩) : x.isNan = false := by
  cases h with
  | read h hs ha =>
    obtain ⟨used, rest, rfl, hf⟩ := Header.form_of_operand ha
    have hmem {t : Token} (ht : t ∈ used) : t ∈ _ := hs.subset (List.mem_append_left rest ht)
    generalize hx : (⟨loc, .float x⟩ : Operand) = a at hf
    cases hf with
    | number hn =>
      cases hx
      exact isNan_of_token h (hmem List.mem_cons_self) hn
    | @negated term _ t hm hg hn =>
      cases term <;> cases hx
      have hy := isNan_of_token h (hmem (List.mem_cons_of_mem _ List.mem_cons_self)) hn
      exact hy
    | string | trueWord | falseWord | name => cases hx

/-- In every environment the values of the operands of a text are ordered. -/
theorem Written.isOrdered (h : Written a) (hv : a.value env = .ok v) : v.datum.IsOrdered := by
  obtain ⟨loc, term⟩ := a
  cases term with
  | int n =>
    simp only [value] at hv
    split at hv <;> cases hv
    intro x hx
    cases hx
  | float x =>
    cases hv
    exact Datum.isOrdered_float h.isNan
  | string | bool =>
    cases hv
    intro x hx
    cases hx
  | reference name =>
    simp only [value] at hv
    split at hv
    · next w hw =>
      cases hv
      obtain ⟨x, -, rfl⟩ := Option.map_eq_some_iff.mp hw
      exact (Datum.ofString_eq_ok_iff.mp x.datum_eq).isOrdered
    · cases hv

end Operand

/-! ## Comparisons by order -/

/-- Failures of one class: diagnostics of one category, or one and the same limit. -/
inductive Failure.SameClass : Failure → Failure → Prop
  | diagnostic (h : d.category = e.category) : SameClass (.diagnostic d) (.diagnostic e)
  | limit : SameClass (.limit l) (.limit l)

theorem Failure.SameClass.refl : (f : Failure) → f.SameClass f
  | .diagnostic _ => .diagnostic rfl
  | .limit _ => .limit

theorem Comparison.admits_iff {op : Comparison} (h : op ≠ .satisfies) : op.Admits a b ↔ a = b := by
  rw [Admits, if_neg h]

namespace Operand

/-- What the six comparisons of two operands say, of which one is less than, equal to or greater
than the other. It is less if its value is. -/
structure Compared (env : Environment) (a b : Operand) (lt eq gt : Bool) : Prop where
  values : ∃ v w, a.value env = .ok v ∧ b.value env = .ok w ∧ (lt = true ↔ v.datum.Less w.datum)
  one : [lt, eq, gt].count true = 1
  less : ∀ loc, (Condition.compare loc .lt a b).evaluate env = .ok lt
  equal : ∀ loc, (Condition.compare loc .eq a b).evaluate env = .ok eq
  greater : ∀ loc, (Condition.compare loc .gt a b).evaluate env = .ok gt
  unequal : ∀ loc, (Condition.compare loc .ne a b).evaluate env = .ok !eq
  atMost : ∀ loc, (Condition.compare loc .le a b).evaluate env = .ok !gt
  atLeast : ∀ loc, (Condition.compare loc .ge a b).evaluate env = .ok !lt

/-- Every comparison of two operands by order fails, and all failures are of one class. -/
def Incomparable (env : Environment) (a b : Operand) : Prop :=
  ∃ f, ∀ op loc, op ≠ .satisfies →
    ∃ g, (Condition.compare loc op a b).evaluate env = .error g ∧ g.SameClass f

section

variable {a b c : Operand} {v w : Value}

theorem evaluate_order (hv : a.value env = .ok v) (hw : b.value env = .ok w)
    (ht : v.type = w.type) (ho : op ≠ .satisfies) (loc : Location) :
    (Condition.compare loc op a b).evaluate env = .ok (op.holds (v.datum.order? w.datum)) := by
  have ha : op.Admits v.type w.type := (Comparison.admits_iff ho).mpr ht
  rw [Condition.evaluate, Comparison.operands_of_admits hv hw ha]
  cases op with
  | satisfies => exact (ho rfl).elim
  | _ => rfl

theorem incomparable_of_type (hv : a.value env = .ok v) (hw : b.value env = .ok w)
    (ht : v.type ≠ w.type) : Incomparable env a b := by
  refine ⟨.diagnostic (.operands a.loc .eq v.type w.type), ?_⟩
  intro op loc ho
  have ha : ¬op.Admits v.type w.type := mt (Comparison.admits_iff ho).mp ht
  refine ⟨.diagnostic (.operands loc op v.type w.type), ?_, .diagnostic rfl⟩
  rw [Condition.evaluate, Comparison.operands_of_not_admits hv hw ha]

/-- Without a value of its own an operand fails in one way, whatever the comparison. -/
theorem incomparable_of_left (hv : a.value env = .error f) : Incomparable env a b := by
  refine ⟨f, ?_⟩
  intro op loc _
  refine ⟨f, ?_, .refl f⟩
  simp only [Condition.evaluate, Comparison.operands, hv]

theorem incomparable_of_right (hv : a.value env = .ok v) (hw : b.value env = .error f) :
    Incomparable env a b := by
  refine ⟨f, ?_⟩
  intro op loc _
  refine ⟨f, ?_, .refl f⟩
  simp only [Condition.evaluate, Comparison.operands, hv, hw]

/-- Two operands have values of one type, or they cannot be compared. -/
theorem values_or_incomparable (env : Environment) (a b : Operand) :
    (∃ v w, a.value env = .ok v ∧ b.value env = .ok w ∧ v.type = w.type) ∨
      Incomparable env a b := by
  cases hv : a.value env with
  | error f => exact .inr (incomparable_of_left hv)
  | ok v =>
    cases hw : b.value env with
    | error f => exact .inr (incomparable_of_right hv hw)
    | ok w =>
      by_cases ht : v.type = w.type
      · exact .inl ⟨v, w, rfl, rfl, ht⟩
      · exact .inr (incomparable_of_type hv hw ht)

theorem compared_of_order (hv : a.value env = .ok v) (hw : b.value env = .ok w)
    (ht : v.type = w.type) (h : v.datum.order? w.datum = some o)
    (hless : o = .lt ↔ v.datum.Less w.datum) :
    Compared env a b (o == .lt) (o == .eq) (o == .gt) := by
  have test (op : Comparison) (ho : op ≠ .satisfies) (loc : Location) :
      (Condition.compare loc op a b).evaluate env = .ok (op.holds (some o)) := by
    rw [evaluate_order hv hw ht ho, h]
  have hvalues := beq_iff_eq.trans hless
  cases o with
  | lt | eq | gt => exact ⟨⟨v, w, hv, hw, hvalues⟩, rfl, test .lt nofun, test .eq nofun,
      test .gt nofun, test .ne nofun, test .le nofun, test .ge nofun⟩

/-- The value of an operand that is less than another comes before that of the other. -/
theorem order?_of_less {loc : Location}
    (h : (Condition.compare loc .lt a b).evaluate env = .ok true) :
    ∃ v w, a.value env = .ok v ∧ b.value env = .ok w ∧ v.type = w.type ∧
      v.datum.order? w.datum = some .lt := by
  rcases values_or_incomparable env a b with ⟨v, w, hv, hw, ht⟩ | ⟨f, hf⟩
  · refine ⟨v, w, hv, hw, ht, ?_⟩
    have ho : Comparison.lt ≠ .satisfies := nofun
    rw [evaluate_order hv hw ht ho] at h
    exact eq_of_beq (Except.ok.inj h)
  · obtain ⟨g, hg, -⟩ := hf .lt loc nofun
    cases hg.symm.trans h

theorem less_trans {l m : Location} (hab : (Condition.compare l .lt a b).evaluate env = .ok true)
    (hbc : (Condition.compare m .lt b c).evaluate env = .ok true) (n : Location) :
    (Condition.compare n .lt a c).evaluate env = .ok true := by
  obtain ⟨v, w, hv, hw, ht, hvw⟩ := order?_of_less hab
  obtain ⟨w', x, hw', hx, ht', hwx⟩ := order?_of_less hbc
  obtain rfl := Except.ok.inj (hw.symm.trans hw')
  have ho : Comparison.lt ≠ .satisfies := nofun
  rw [evaluate_order hv hx (ht.trans ht') ho, Datum.order?_lt_trans hvw hwx]
  rfl

/-- Any two operands of texts are comparable or not in an environment. If they are, one of three
relations holds, all six comparisons tell which, and they tell the same with the operands exchanged;
if they are not, all six fail alike. -/
theorem compared_or_incomparable (env : Environment) (ha : a.Written) (hb : b.Written) :
    Incomparable env a b ∨ ∃ lt eq gt, Compared env a b lt eq gt ∧ Compared env b a gt eq lt := by
  rcases values_or_incomparable env a b with ⟨v, w, hv, hw, ht⟩ | hf
  · have hav := ha.isOrdered hv
    have hbw := hb.isOrdered hw
    obtain ⟨o, ho, hswap⟩ := Datum.order?_swap ht hav hbw
    have hless := Datum.order?_eq_lt_iff hav hbw
    have hgreater := Datum.order?_eq_lt_iff hbw hav
    rw [ho, Option.some.injEq] at hless
    rw [hswap, Option.some.injEq] at hgreater
    have hback := compared_of_order hw hv ht.symm hswap hgreater
    refine .inr ⟨_, _, _, compared_of_order hv hw ht ho hless, ?_⟩
    cases o <;> exact hback
  · exact .inl hf

end

/-- The six comparisons of the operands of texts are coherent, and what is less is transitive. -/
theorem comparisons_coherent (env : Environment) {a b : Operand} (ha : a.Written) (hb : b.Written) :
    (Incomparable env a b ∨
      ∃ lt eq gt, Compared env a b lt eq gt ∧ Compared env b a gt eq lt) ∧
    ∀ c, c.Written → ∀ l m n, (Condition.compare l .lt a b).evaluate env = .ok true →
      (Condition.compare m .lt b c).evaluate env = .ok true →
      (Condition.compare n .lt a c).evaluate env = .ok true := by
  refine ⟨compared_or_incomparable env ha hb, ?_⟩
  intro c _ l m n hab hbc
  exact less_trans hab hbc n

/-- Both infinities with negative zero between them, as a text holds them. -/
theorem comparisons_coherent_infinities :
    let minus := Token.mk (.symbol "-") "-" ⟨"f", 0, 1, 1, 1⟩
    let low := Token.mk .float "1e999" ⟨"f", 1, 1, 2, 5⟩
    let sign := Token.mk (.symbol "-") "-" ⟨"f", 7, 1, 8, 1⟩
    let zero := Token.mk .float "0." ⟨"f", 8, 1, 9, 2⟩
    let high := Token.mk .float "1e999" ⟨"f", 11, 1, 12, 5⟩
    let last := Token.mk .eof "" ⟨"f", 16, 1, 17, 0⟩
    let a : Operand := ⟨minus.loc, .float (.infinity true)⟩
    let b : Operand := ⟨sign.loc, .float (.ofDecimal true 1 0 0)⟩
    let c : Operand := ⟨high.loc, .float (.infinity false)⟩
    tokenize "f" "-1e999 -0. 1e999" = .ok [minus, low, sign, zero, high, last] ∧
      a.Written ∧ b.Written ∧ c.Written ∧ Compared .empty a b true false false ∧
      Compared .empty b a false false true ∧
      (Condition.compare last.loc .lt a c).evaluate .empty = .ok true := by
  intro minus low sign zero high last a b c
  have h : tokenize "f" "-1e999 -0. 1e999" = .ok [minus, low, sign, zero, high, last] := by cbv
  have hhuge : binary64OfNumeral? "1e999" = some (.infinity false) := by rfl
  have hnull : binary64OfNumeral? "0." = some (.ofDecimal false 1 0 0) := by rfl
  have hlow : NumberForm low (.float (.infinity false)) := .float rfl hhuge
  have hzero : NumberForm zero (.float (.ofDecimal false 1 0 0)) := .float rfl hnull
  have hhigh : NumberForm high (.float (.infinity false)) := .float rfl hhuge
  have hfa : OperandForm [minus, low] a := .negated rfl rfl hlow
  have hfb : OperandForm [sign, zero] b := .negated rfl rfl hzero
  have hfc : OperandForm [high] c := .number hhigh
  have ha : a.Written := .of_form hfa h ⟨[], [sign, zero, high, last], rfl⟩
  have hb : b.Written := .of_form hfb h ⟨[minus, low], [high, last], rfl⟩
  have hc : c.Written := .of_form hfc h ⟨[minus, low, sign, zero], [last], rfl⟩
  have hab : (Condition.compare last.loc .lt a b).evaluate .empty = .ok true := by rfl
  have hbc : (Condition.compare last.loc .lt b c).evaluate .empty = .ok true := by rfl
  obtain ⟨⟨f, hf⟩ | ⟨lt, eq, gt, hcompared, hback⟩, htrans⟩ := comparisons_coherent .empty ha hb
  · obtain ⟨g, hg, -⟩ := hf .lt last.loc (by decide)
    cases hg.symm.trans hab
  · obtain rfl : true = lt := Except.ok.inj (hab.symm.trans (hcompared.less last.loc))
    have hone := hcompared.one
    cases eq <;> cases gt <;> cases hone
    exact ⟨h, ha, hb, hc, hcompared, hback, htrans c hc _ _ _ hab hbc⟩

end Operand

end HashIf
