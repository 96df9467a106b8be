import HashIf.Proofs.Version.Form
import Mathlib.Data.Nat.Digits.Defs

/-! Versions in ranges. A version and a range are read as the numbers that their digits stand for,
and the first lies in the second if these numbers stand in the relation that the mark of the range
stands for. -/

namespace HashIf

/-! ## Numbers -/

/-- The number that decimal digits stand for. -/
def Text.number (t : Text) : Nat := Nat.ofDigits 10 (t.map fun p => p.val - 48).reverse

/-- The digits without the zeros that they begin with. -/
def Text.withoutZeros (t : Text) : Text := t.dropWhile fun p => p.isChar '0'

theorem Text.number_append_singleton (t : Text) (p : CodePoint) :
    (t ++ [p] : Text).number = t.number * 10 + (p.val - 48) := by
  have hd : (t ++ [p] : Text).number = p.val - 48 + 10 * t.number := by
    rw [number, List.map_append, List.reverse_append]
    exact Nat.ofDigits_cons ..
  rw [hd, Nat.mul_comm, Nat.add_comm]

theorem Version.decimalOf_eq (t : Text) : decimalOf t = t.number := by
  induction t using List.reverseRecOn with
  | nil => rfl
  | append_singleton t p ih =>
    rw [Text.number_append_singleton, ← ih, decimalOf, List.foldl_append]
    rfl

theorem Text.number_withoutZeros (t : Text) : t.withoutZeros.number = t.number := by
  simp only [← Version.decimalOf_eq]
  induction t with
  | nil => rfl
  | cons p t ih =>
    by_cases hp : p.isChar '0' = true
    · have hv : p.val = 48 := by simpa [CodePoint.isChar] using hp
      have ht : withoutZeros (p :: t) = withoutZeros t := List.dropWhile_cons_of_pos hp
      rw [ht, ih]
      simp [Version.decimalOf, hv]
    · have ht : withoutZeros (p :: t) = p :: t := List.dropWhile_cons_of_neg hp
      rw [ht]

/-! ## What texts are read as -/

/-- The version that a text stands for, if none of its numbers has too many digits. -/
inductive Version.Reads (t : Text) : Version → Prop
  | mk (h : Form t a b c) (hl : ∀ d ∈ [a, b, c], d.length ≤ decimalDigitLimit) :
    Reads t ⟨a.number, b.number, c.number⟩

/-- The relation and the version that a text stands for as a range. -/
inductive VersionRange.Reads : Text → RangeOperator → Version → Prop
  | marked (op : RangeOperator) (h : Version.Reads t w) : Reads (.ofString op.mark ++ t) op w
  | plain (h : Version.Reads t w) : Reads t .exact w

/-- Two versions that can be read, of the same numbers but for zeros in front of them. Their
suffixes may differ. -/
inductive Version.Agree (t u : Text) : Prop
  | mk (ht : Form t a b c) (hu : Form u a' b' c')
    (hl : ∀ d ∈ [a, b, c, a', b', c'], d.length ≤ decimalDigitLimit)
    (ha : a.withoutZeros = a'.withoutZeros) (hb : b.withoutZeros = b'.withoutZeros)
    (hc : c.withoutZeros = c'.withoutZeros) : Agree t u

namespace Version

theorem Reads.isVersion (h : Reads t v) : IsVersion t := by
  obtain ⟨h, -⟩ := h
  exact ⟨_, _, _, h⟩

theorem Agree.reads (h : Agree t u) : ∃ v, Reads t v ∧ Reads u v := by
  obtain @⟨a, b, c, a', b', c', ht, hu, hl, ha, hb, hc⟩ := h
  have number {d d' : Text} (h : d.withoutZeros = d'.withoutZeros) : d.number = d'.number := by
    rw [← Text.number_withoutZeros, h, Text.number_withoutZeros]
  have hall : ∀ d ∈ [a, b, c] ++ [a', b', c'], d.length ≤ decimalDigitLimit := hl
  obtain ⟨hlt, hlu⟩ := List.forall_mem_append.mp hall
  have hreads := Reads.mk hu hlu
  rw [← number ha, ← number hb, ← number hc] at hreads
  exact ⟨_, .mk ht hlt, hreads⟩

theorem ofText_eq_ok_iff : ofText t = .ok v ↔ Reads t v := by
  constructor
  · intro h
    rw [ofText] at h
    split at h
    · cases h
    · next hc =>
      split at h
      · cases h
      · next hl =>
        cases h
        rw [decimalOf_eq, decimalOf_eq, decimalOf_eq]
        apply Reads.mk (components?_eq_some_iff.mp hc)
        intro d hd
        simpa using List.find?_eq_none.mp hl d hd
  · rintro @⟨a, b, c, h, hl⟩
    have hnone : [a, b, c].find? (decimalDigitLimit < ·.length) = none := by
      refine List.find?_eq_none.mpr fun d hd => ?_
      simpa using hl d hd
    rw [ofText, components?_eq_some_iff.mpr h]
    dsimp only
    rw [hnone, decimalOf_eq, decimalOf_eq, decimalOf_eq]

/-- A text fails otherwise than by the number of its digits if it lacks the shape of a version. -/
theorem ofText_format_iff :
    (∃ e, ofText t = .error e ∧ ∀ n, e ≠ .digits n) ↔ ¬IsVersion t := by
  constructor
  · rintro ⟨e, h, he⟩
    cases e with
    | illegal => exact (ofText_illegal_iff.mp h).1
    | emptyRange => exact (ofText_ne_emptyRange h).elim
    | digits n => exact (he n rfl).elim
  · exact fun h => ⟨_, ofText_illegal_iff.mpr ⟨h, rfl⟩, nofun⟩

end Version

namespace VersionRange

theorem splitMark_of_reads (h : Reads t op w) :
    ∃ u, splitMark t = (op, u) ∧ Version.Reads u w ∧ t ≠ [] := by
  cases h with
  | @marked u _ _ h =>
    refine ⟨u, splitMark_marked op h.isVersion, h, ?_⟩
    intro hn
    obtain ⟨p, rest, rfl, -⟩ := head_of_isVersion h.isVersion
    cases (List.append_eq_nil_iff.mp hn).2
  | plain h =>
    refine ⟨t, splitMark_plain h.isVersion, h, ?_⟩
    rintro rfl
    obtain ⟨p, rest, hn, -⟩ := head_of_isVersion h.isVersion
    cases hn

theorem ofText_eq_ok_iff : ofText t = .ok ⟨op, w⟩ ↔ Reads t op w := by
  constructor
  · intro h
    rw [ofText] at h
    split at h
    · cases h
    dsimp only at h
    split at h
    · next hv =>
      cases h
      have hv := Version.ofText_eq_ok_iff.mp hv
      rcases splitMark_cases t with ht | ht
      · have hr := Reads.marked (splitMark t).1 hv
        rwa [← ht] at hr
      · rw [ht] at hv
        rw [splitMark_plain hv.isVersion]
        exact .plain hv
    · cases h
  · intro h
    obtain ⟨u, hu, hw, hne⟩ := splitMark_of_reads h
    rw [ofText, if_neg (by simpa using hne), hu]
    dsimp only
    rw [Version.ofText_eq_ok_iff.mpr hw]

/-- A text fails otherwise than by the number of its digits if it lacks the shape of a range. -/
theorem ofText_format_iff :
    (∃ e, ofText t = .error e ∧ ∀ n, e ≠ .digits n) ↔ ¬IsRange t := by
  constructor
  · rintro ⟨e, h, he⟩ hr
    rcases ofText_of_isRange hr with ⟨r, hok⟩ | ⟨n, hdigits⟩
    · cases h.symm.trans hok
    · cases h.symm.trans hdigits
      exact he n rfl
  · intro h
    by_cases ht : t = []
    · exact ⟨_, ofText_emptyRange_iff.mpr ht, nofun⟩
    · exact ⟨_, ofText_illegal_iff.mpr ⟨ht, h, rfl⟩, nofun⟩

end VersionRange

/-! ## The order of versions -/

namespace Version

/-- The first number that differs is less. -/
def Before (v w : Version) : Prop :=
  v.major < w.major ∨ v.major = w.major ∧
    (v.minor < w.minor ∨ v.minor = w.minor ∧ v.patch < w.patch)

variable {v w : Version}

theorem order_eq_eq_iff : v.order w = .eq ↔ v = w := by
  obtain ⟨a, b, c⟩ := v
  obtain ⟨a', b', c'⟩ := w
  simp [order, Ordering.then_eq_eq]

theorem order_eq_lt_iff : v.order w = .lt ↔ v.Before w := by
  simp only [order, Before, Ordering.then_eq_lt, Nat.compare_eq_lt, Nat.compare_eq_eq]

theorem order_eq_gt_iff : v.order w = .gt ↔ w.Before v := by
  simp only [order, Before, Ordering.then_eq_gt, Nat.compare_eq_gt, Nat.compare_eq_eq,
    @eq_comm _ w.major, @eq_comm _ w.minor]

end Version

/-- The relation of versions that a mark stands for. -/
def RangeOperator.Relates : RangeOperator → Version → Version → Prop
  | exact, v, w => v = w
  | less, v, w => v.Before w
  | atMost, v, w => v.Before w ∨ v = w
  | greater, v, w => w.Before v
  | atLeast, v, w => w.Before v ∨ v = w
  | sameMinor, v, w => v.major = w.major ∧ v.minor = w.minor
  | sameMajor, v, w => v.major = w.major

theorem RangeOperator.holds_iff (op : RangeOperator) (v w : Version) :
    op.holds v w = true ↔ op.Relates v w := by
  cases op with
  | exact => exact beq_iff_eq.trans Version.order_eq_eq_iff
  | less => exact beq_iff_eq.trans Version.order_eq_lt_iff
  | greater => exact beq_iff_eq.trans Version.order_eq_gt_iff
  | atMost =>
    rw [holds, Relates, ← Version.order_eq_lt_iff, ← Version.order_eq_eq_iff]
    cases v.order w <;> decide
  | atLeast =>
    rw [holds, Relates, ← Version.order_eq_gt_iff, ← Version.order_eq_eq_iff]
    cases v.order w <;> decide
  | sameMinor => rw [holds, Relates, Bool.and_eq_true, beq_iff_eq, beq_iff_eq]
  | sameMajor => exact beq_iff_eq

/-! ## Versions in ranges -/

theorem satisfies_eq_ok_iff {version range : Text} : satisfies version range = .ok b ↔
    ∃ v op w, Version.Reads version v ∧ VersionRange.Reads range op w ∧ b = op.holds v w := by
  simp only [← Version.ofText_eq_ok_iff, ← VersionRange.ofText_eq_ok_iff]
  rw [satisfies]
  constructor
  · intro h
    split at h
    · cases h
    next r hr =>
    split at h
    · cases h
    next v hv =>
    cases h
    exact ⟨v, r.operator, r.bound, hv, hr, rfl⟩
  · rintro ⟨v, op, w, hv, hw, rfl⟩
    rw [hw]
    dsimp only
    rw [hv]
    rfl

/-- A test fails otherwise than by the number of digits if the range lacks its shape, or if the
range is read and the version lacks its own. -/
theorem satisfies_format_iff {version range : Text} :
    (∃ e, satisfies version range = .error e ∧ ∀ n, e ≠ .digits n) ↔
      ¬IsRange range ∨ ¬IsVersion version ∧ ∃ op w, VersionRange.Reads range op w := by
  simp only [← Version.ofText_format_iff, ← VersionRange.ofText_format_iff,
    ← VersionRange.ofText_eq_ok_iff]
  rw [satisfies]
  cases VersionRange.ofText range with
  | error e => simp
  | ok r =>
    have hr : ∃ op w, r = ⟨op, w⟩ := ⟨r.operator, r.bound, rfl⟩
    dsimp only
    cases Version.ofText version <;> simp [hr]

/-- The text of a range: a mark in front of the text of a version. -/
def RangeOperator.range (op : RangeOperator) (t : Text) : Text := .ofString op.mark ++ t

theorem satisfies_range {version t : Text} (op : RangeOperator) (hv : Version.Reads version v)
    (hw : Version.Reads t w) : satisfies version (op.range t) = .ok (op.holds v w) :=
  satisfies_eq_ok_iff.mpr ⟨v, op, w, hv, .marked op hw, rfl⟩

/-- A text tells no more than the version that it is read as. -/
theorem satisfies_congr {version version' : Text} (range : Text) (h : Version.Reads version v)
    (h' : Version.Reads version' v) : satisfies version range = satisfies version' range := by
  rw [satisfies, satisfies, Version.ofText_eq_ok_iff.mpr h, Version.ofText_eq_ok_iff.mpr h']

theorem satisfies_range_congr (version : Text) {range range' : Text}
    (h : VersionRange.Reads range op w) (h' : VersionRange.Reads range' op w) :
    satisfies version range = satisfies version range' := by
  rw [satisfies, satisfies, VersionRange.ofText_eq_ok_iff.mpr h,
    VersionRange.ofText_eq_ok_iff.mpr h']

/-- A version is tested against a range by the numbers in them. The test gives a result exactly if
both texts have their shapes and no number has too many digits. For want of a shape it fails as
such, but the range, which is read first, may stop it by the number of its digits. Suffixes and
zeros in front do not matter, one of three relations holds, and coarser ranges hold finer ones. -/
theorem satisfies_reference (version range : Text) :
    (∀ b, satisfies version range = .ok b ↔ ∃ v op w, Version.Reads version v ∧
      VersionRange.Reads range op w ∧ (b = true ↔ op.Relates v w)) ∧
    ((∃ e, satisfies version range = .error e ∧ ∀ n, e ≠ .digits n) ↔
      ¬IsRange range ∨ ¬IsVersion version ∧ ∃ op w, VersionRange.Reads range op w) ∧
    (∀ t, Version.Agree version t → satisfies version range = satisfies t range) ∧
    (∀ t, Version.Agree range t → satisfies version range = satisfies version t ∧
      ∀ op : RangeOperator, satisfies version (op.range range) = satisfies version (op.range t)) ∧
    ∀ v w, Version.Reads version v → Version.Reads range w →
      let within (op : RangeOperator) := satisfies version (op.range range)
      (∃ lt eq gt, within .less = .ok lt ∧ within .exact = .ok eq ∧ within .greater = .ok gt ∧
        [lt, eq, gt].count true = 1) ∧
      (within .exact = .ok true → within .sameMinor = .ok true) ∧
      (within .sameMinor = .ok true → within .sameMajor = .ok true) := by
  refine ⟨?_, satisfies_format_iff, ?_, ?_, ?_⟩
  · intro b
    simp only [satisfies_eq_ok_iff, ← RangeOperator.holds_iff, Bool.coe_iff_coe]
  · intro t h
    obtain ⟨v, hv, ht⟩ := h.reads
    exact satisfies_congr range hv ht
  · intro t h
    obtain ⟨w, hr, ht⟩ := h.reads
    refine ⟨satisfies_range_congr version (.plain hr) (.plain ht), ?_⟩
    intro op
    exact satisfies_range_congr version (.marked op hr) (.marked op ht)
  · intro v w hv hw
    simp only [satisfies_range _ hv hw, Except.ok.injEq, RangeOperator.holds_iff,
      RangeOperator.Relates]
    refine ⟨⟨_, _, _, rfl, rfl, rfl, ?_⟩, ?_, And.left⟩
    · simp only [RangeOperator.holds]
      cases v.order w <;> rfl
    · rintro rfl
      exact ⟨rfl, rfl⟩

/-- Numbers count and not characters: ten comes after nine, with a zero in front or without. -/
theorem satisfies_ten :
    satisfies (.ofString "1.10.0-rc") (.ofString ">1.09.5") = .ok true ∧
      satisfies (.ofString "1.10.0-rc") (.ofString ">1.9.5+b") = .ok true := by
  have hv : Version.Reads (.ofString "1.10.0-rc") ⟨1, 10, 0⟩ :=
    Version.ofText_eq_ok_iff.mp (by cbv)
  have hr : VersionRange.Reads (.ofString ">1.09.5") .greater ⟨1, 9, 5⟩ :=
    VersionRange.ofText_eq_ok_iff.mp (by cbv)
  have hrelates : true = true ↔ RangeOperator.greater.Relates ⟨1, 10, 0⟩ ⟨1, 9, 5⟩ :=
    ⟨fun _ => .inr ⟨rfl, .inl (by decide)⟩, fun _ => rfl⟩
  have hagree : Version.Agree (.ofString "1.09.5") (.ofString "1.9.5+b") := by
    have ht : Version.Form (.ofString "1.09.5") (.ofString "1") (.ofString "09") (.ofString "5") :=
      Version.components?_eq_some_iff.mp (by cbv)
    have hu : Version.Form (.ofString "1.9.5+b") (.ofString "1") (.ofString "9") (.ofString "5") :=
      Version.components?_eq_some_iff.mp (by cbv)
    exact .mk ht hu (by decide) rfl (by cbv) rfl
  obtain ⟨hok, -⟩ := satisfies_reference (.ofString "1.10.0-rc") (.ofString ">1.09.5")
  obtain ⟨-, -, -, hsame, -⟩ := satisfies_reference (.ofString "1.10.0-rc") (.ofString "1.09.5")
  have htrue := (hok true).mpr ⟨_, _, _, hv, hr, hrelates⟩
  exact ⟨htrue, ((hsame _ hagree).2 .greater).symm.trans htrue⟩

end HashIf
