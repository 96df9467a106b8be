import HashIf.Proofs.Value.Coercion

/-! The order of data. Two data of one type are in one of three relations, unless one of them is a
float that is no number, and no raw text denotes such a float. -/

namespace HashIf

instance : Std.TransOrd CodePoint where
  eq_swap := Std.OrientedOrd.eq_swap (α := Nat)
  isLE_trans := Std.TransOrd.isLE_trans (α := Nat)

instance : Std.TransCmp Text.order := inferInstanceAs (Std.TransOrd (List CodePoint))

theorem Binary64.order?_eq_some_iff {x y : Binary64} : x.order? y = some o ↔
    x.isNan = false ∧ y.isNan = false ∧ compare x.place y.place = o := by
  rw [order?]
  cases x.isNan <;> cases y.isNan <;> simp

/-- Texts are ordered by the first code point that differs, and behind their beginnings. -/
theorem Text.order_eq_lt_iff (s t : Text) :
    s.order t = .lt ↔ s.map CodePoint.val < t.map CodePoint.val := by
  unfold order
  induction s generalizing t with
  | nil =>
    cases t with
    | nil => simp
    | cons q t => simp
  | cons p s ih =>
    cases t with
    | nil => simp
    | cons q t =>
      have hpq : compare p q = compare p.val q.val := rfl
      rw [List.compare_cons_cons, Ordering.then_eq_lt, hpq, Nat.compare_eq_lt, Nat.compare_eq_eq,
        ih, List.map_cons, List.map_cons, List.cons_lt_cons_iff]

/-- One datum is less than another of its type. -/
inductive Datum.Less : Datum → Datum → Prop
  | bool : Less (.bool false) (.bool true)
  | int (h : a < b) : Less (.int a) (.int b)
  | float (h : x.place < y.place) : Less (.float x) (.float y)
  | string (h : s.map CodePoint.val < t.map CodePoint.val) : Less (.string s) (.string t)

namespace Datum

/-- A float is a number. -/
def IsOrdered (d : Datum) : Prop := ∀ x, d = float x → x.isNan = false

theorem isOrdered_float (h : x.isNan = false) : (float x).IsOrdered := by
  rintro _ ⟨⟩
  exact h

variable {a b c : Datum}

/-- Data of one type are ordered, and the other way around if they change places. -/
theorem order?_swap (ht : a.type = b.type) (ha : a.IsOrdered) (hb : b.IsOrdered) :
    ∃ o, a.order? b = some o ∧ b.order? a = some o.swap := by
  cases a with
  | bool a =>
    cases b <;> cases ht
    exact ⟨_, rfl, congrArg some Std.OrientedOrd.eq_swap⟩
  | int a =>
    cases b <;> cases ht
    exact ⟨_, rfl, congrArg some Std.OrientedOrd.eq_swap⟩
  | float x =>
    cases b <;> cases ht
    next y =>
    have hx := ha x rfl
    have hy := hb y rfl
    exact ⟨_, Binary64.order?_eq_some_iff.mpr ⟨hx, hy, rfl⟩,
      Binary64.order?_eq_some_iff.mpr ⟨hy, hx, Std.OrientedOrd.eq_swap⟩⟩
  | string a =>
    cases b <;> cases ht
    exact ⟨_, rfl, congrArg some Std.OrientedOrd.eq_swap⟩

theorem order?_eq_lt_iff (ha : a.IsOrdered) (hb : b.IsOrdered) :
    a.order? b = some .lt ↔ a.Less b := by
  constructor
  · intro h
    cases a with
    | bool a =>
      cases b <;> simp only [order?, Option.some.injEq, reduceCtorEq] at h
      next b =>
      cases a <;> cases b <;> cases h
      exact .bool
    | int a =>
      cases b <;> simp only [order?, Option.some.injEq, reduceCtorEq] at h
      exact .int (Int.compare_eq_lt.mp h)
    | float x =>
      cases b <;> simp only [order?, reduceCtorEq] at h
      obtain ⟨-, -, h⟩ := Binary64.order?_eq_some_iff.mp h
      exact .float (Int.compare_eq_lt.mp h)
    | string s =>
      cases b <;> simp only [order?, Option.some.injEq, reduceCtorEq] at h
      exact .string ((Text.order_eq_lt_iff ..).mp h)
  · intro h
    cases h with
    | bool => rfl
    | int h => exact congrArg some (Int.compare_eq_lt.mpr h)
    | float h =>
      exact Binary64.order?_eq_some_iff.mpr ⟨ha _ rfl, hb _ rfl, Int.compare_eq_lt.mpr h⟩
    | string h => exact congrArg some ((Text.order_eq_lt_iff ..).mpr h)

theorem order?_lt_trans (hab : a.order? b = some .lt) (hbc : b.order? c = some .lt) :
    a.order? c = some .lt := by
  cases a with
  | bool | int | string =>
    cases b <;> cases c <;> simp only [order?, Option.some.injEq, reduceCtorEq] at hab hbc ⊢
    exact Std.TransCmp.lt_trans hab hbc
  | float x =>
    cases b <;> cases c <;> simp only [order?, reduceCtorEq] at hab hbc ⊢
    next y z =>
    rw [Binary64.order?_eq_some_iff] at hab hbc ⊢
    exact ⟨hab.1, hbc.2.1, Std.TransCmp.lt_trans hab.2.2 hbc.2.2⟩

end Datum

theorem Denotes.isOrdered (h : Denotes s d) : d.IsOrdered := by
  cases h with
  | float _ h => exact Datum.isOrdered_float h.isNan
  | trueWord | falseWord | integer | string => exact nofun

end HashIf
