import HashIf.Number.Digits
import Mathlib.Data.List.Induction
import Mathlib.Data.List.TakeDrop
import Mathlib.Data.List.TakeWhile
import Mathlib.Data.Nat.Digits.Defs

/-! The numbers that runs of digits stand for, by the value of each digit and its place. -/

namespace HashIf

/-- The number that digits with the given values stand for. -/
def numeral? (base : Nat) (value? : Char → Option Nat) (ds : List Char) : Option Nat :=
  (ds.mapM value?).map fun vs => Nat.ofDigits base vs.reverse

/-! ## Digits -/

theorem isDigitOf_iff : isDigitOf base c = true ↔ ∃ v < base, asciiDigitValue? c = some v := by
  rw [isDigitOf]
  cases asciiDigitValue? c with
  | none => simp
  | some v => simp

theorem isDigitOf_mono (h : isDigitOf base c = true) (hle : base ≤ base') :
    isDigitOf base' c = true := by
  obtain ⟨v, hlt, hv⟩ := isDigitOf_iff.mp h
  exact isDigitOf_iff.mpr ⟨v, Nat.lt_of_lt_of_le hlt hle, hv⟩

/-- The digits `0` to `9` have the same value among the digits of all scripts. -/
theorem decimalValue?_of_isDecimal (h : isDecimal c = true) :
    decimalValue? c = asciiDigitValue? c := by
  obtain ⟨v, hlt, hv⟩ := isDigitOf_iff.mp h
  have hc : (decide ('0' ≤ c) && decide (c ≤ '9')) = true := by
    unfold asciiDigitValue? at hv
    split at hv
    · next hr => exact hr
    split at hv
    · next hr =>
      cases hv
      have hr : 97 ≤ c.toNat := of_decide_eq_true (Bool.and_eq_true_iff.mp hr).1
      omega
    split at hv
    · next hr =>
      cases hv
      have hr : 65 ≤ c.toNat := of_decide_eq_true (Bool.and_eq_true_iff.mp hr).1
      omega
    · cases hv
  have hle : c.toNat ≤ 57 := of_decide_eq_true (Bool.and_eq_true_iff.mp hc).2
  rw [decimalValue?, if_pos (by omega), asciiDigitValue?, if_pos hc, if_pos hc]

/-! ## Runs of digits -/

section
variable {p : α → Bool} {xs rest : List α} (h : ∀ x ∈ xs, p x = true)
  (hr : ∀ x ∈ rest.head?, p x = false)

include h hr

theorem dropWhile_append_of_head : (xs ++ rest).dropWhile p = rest := by
  rw [List.dropWhile_append_of_pos h]
  cases rest with
  | nil => rfl
  | cons x rest => rw [List.dropWhile_cons_of_neg (by simp [hr x rfl])]

/-- A run is split off in front of what does not go on with it. -/
theorem span_append_of_head : (xs ++ rest).span p = (xs, rest) := by
  rw [List.span_eq_takeWhile_dropWhile, dropWhile_append_of_head h hr,
    List.takeWhile_append_of_pos h]
  cases rest with
  | nil => rw [List.takeWhile_nil, List.append_nil]
  | cons x rest => rw [List.takeWhile_cons_of_neg (by simp [hr x rfl]), List.append_nil]

end

theorem numeral?_congr {f g : Char → Option Nat} (h : ∀ d ∈ ds, f d = g d) :
    numeral? base f ds = numeral? base g ds := by
  have hm : ds.mapM f = ds.mapM g := by
    induction ds with
    | nil => rfl
    | cons d ds ih =>
      obtain ⟨hd, hds⟩ := List.forall_mem_cons.mp h
      rw [List.mapM_cons, List.mapM_cons, hd, ih hds]
  rw [numeral?, numeral?, hm]

theorem mapM_append_singleton {f : α → Option β} (hxs : xs.mapM f = some ys)
    (hx : f x = some y) : (xs ++ [x]).mapM f = some (ys ++ [y]) := by
  simp [hxs, hx]

theorem numeral?_of_isDigitOf (h : ∀ d ∈ ds, isDigitOf b d = true) :
    numeral? base asciiDigitValue? ds = some (digitsValue base ds) := by
  have hvs : ∃ vs, ds.mapM asciiDigitValue? = some vs ∧
      digitsValue base ds = Nat.ofDigits base vs.reverse := by
    induction ds using List.reverseRecOn with
    | nil => exact ⟨[], rfl, rfl⟩
    | append_singleton ds d ih =>
      obtain ⟨hds, hd⟩ := List.forall_mem_append.mp h
      obtain ⟨v, -, hv⟩ := isDigitOf_iff.mp (hd d (List.mem_singleton_self d))
      obtain ⟨vs, hvs, hvalue⟩ := ih hds
      refine ⟨vs ++ [v], mapM_append_singleton hvs hv, ?_⟩
      rw [digitsValue_append, hvalue, hv, List.reverse_append, List.reverse_singleton,
        List.singleton_append, Nat.ofDigits_cons, Nat.mul_comm base, Nat.add_comm]
      rfl
  obtain ⟨vs, hvs, hvalue⟩ := hvs
  rw [numeral?, hvs, hvalue]
  rfl

theorem digitsValue_lt (h : ∀ d ∈ ds, isDigitOf base d = true) :
    digitsValue base ds < base ^ ds.length := by
  induction ds using List.reverseRecOn with
  | nil => exact Nat.one_pos
  | append_singleton ds d ih =>
    obtain ⟨hds, hd⟩ := List.forall_mem_append.mp h
    obtain ⟨v, hlt, hv⟩ := isDigitOf_iff.mp (hd d (List.mem_singleton_self d))
    rw [digitsValue_append, hv, List.length_append, List.length_singleton, Nat.pow_succ]
    calc digitsValue base ds * base + v
        < digitsValue base ds * base + base := Nat.add_lt_add_left hlt _
      _ = (digitsValue base ds + 1) * base := (Nat.succ_mul _ _).symm
      _ ≤ base ^ ds.length * base := Nat.mul_le_mul_right base (ih hds)

end HashIf
