import HashIf.Condition.Evaluation
import HashIf.Proofs.Condition.Reading

/-! How conditions fail: with a diagnostic that has a place and is no fault of structure, or because
a number goes beyond a limit. -/

namespace HashIf

/-- The failure is a limit, or a diagnostic of a condition, which has a place. -/
def Failure.OfCondition : Failure → Prop
  | .limit _ => True
  | .diagnostic (.structural ..) => False
  | .diagnostic d => d.loc?.isSome

theorem Failure.ofVersion_ofCondition : (e : VersionError) →
    (Failure.ofVersion (some loc) e).OfCondition
  | .illegal _ | .emptyRange => rfl
  | .digits _ => trivial

theorem Operand.value_error {a : Operand} (h : a.value env = .error f) : f.OfCondition := by
  unfold Operand.value at h
  cases ht : a.term with
  | int v =>
    simp only [ht] at h
    split at h
    · cases h
    · cases h; exact trivial
  | reference name =>
    simp only [ht] at h
    split at h
    · cases h
    · cases h; exact rfl
  | float | string | bool => simp [ht] at h

theorem Comparison.compare_error {op : Comparison} {v w : Value}
    (h : op.compare loc v w = .error f) : f.OfCondition := by
  unfold Comparison.compare at h
  split at h
  · split at h
    · cases h
    · cases h; exact Failure.ofVersion_ofCondition _
  · cases h

theorem Condition.evaluate_error (c : Condition) (h : c.evaluate env = .error f) :
    f.OfCondition := by
  induction c with
  | and _ lhs rhs ihl ihr | or _ lhs rhs ihl ihr =>
    rw [evaluate] at h
    split at h
    · exact ihr h
    · exact ihl h
  | compare loc op lhs rhs =>
    rw [evaluate] at h
    split at h
    · exact Comparison.compare_error h
    · next f' ho =>
      cases h
      unfold Comparison.operands at ho
      split at ho
      · next hl => cases ho; exact Operand.value_error hl
      · split at ho
        · next hr => cases ho; exact Operand.value_error hr
        · split at ho
          · cases ho
          · cases ho; exact rfl
  | defined | undefined => cases h

theorem Header.parse_error {stop directive : Token} {ts : List Token}
    (h : (Header.parse stop directive ts).result = .error f) : f.OfCondition := by
  have agree : (Header.parse stop directive ts).Agree (Header.parse stop directive ts) :=
    Header.parse_agree
  rcases agree.of_error h with ⟨t, d, rfl⟩ | ⟨l, rfl⟩
  · exact rfl
  · exact trivial

end HashIf
