import HashIf.Proofs.Condition.Reading
import HashIf.Condition.Evaluation
import Mathlib

/-! When a condition goes beyond a limit: by an escape in a string literal that is read, by an
integer literal that is compared, or by a version that a range is asked for. -/

namespace HashIf

/-- There is no answer, because a number goes beyond a limit. -/
def BreaksOff (r : Except Failure α) : Prop := ∃ l, r = .error (.limit l)

theorem not_breaksOff_ok {a : α} : ¬BreaksOff (.ok a) := nofun

theorem not_breaksOff_diagnostic : ¬BreaksOff (α := α) (.error (.diagnostic d)) := nofun

theorem breaksOff_limit : BreaksOff (α := α) (.error (.limit l)) := ⟨l, rfl⟩

theorem breaksOff_error_iff : BreaksOff (α := α) (.error f) ↔ ∃ l, f = .limit l :=
  exists_congr fun _ => ⟨Except.error.inj, congrArg _⟩

/-! ## String literals -/

/-- A string literal with an escape for a code point that there is not. -/
def Token.LargeEscape (t : Token) : Prop :=
  t.kind = .string ∧
    ∃ code, .escape code ∈ segments (t.lexeme.toList.drop 1).dropLast ∧ 0x110000 ≤ code

theorem Segment.codePoint?_error_iff (s : Segment) :
    (∃ l, s.codePoint? = .error l) ↔ ∃ code, s = .escape code ∧ 0x110000 ≤ code := by
  cases s with
  | plain c => simp [codePoint?]
  | continuation => simp [codePoint?]
  | escape code =>
    rw [codePoint?, CodePoint.ofNat?]
    by_cases h : code < 0x110000
    · rw [dif_pos h]
      simp only [Segment.escape.injEq, exists_eq_left']
      constructor
      · exact nofun
      · intro hc
        omega
    · rw [dif_neg h]
      exact ⟨fun _ => ⟨code, rfl, Nat.le_of_not_lt h⟩, fun _ => ⟨_, rfl⟩⟩

theorem textOfSegments_error_iff (ss : List Segment) :
    (∃ l, textOfSegments ss = .error l) ↔ ∃ code, .escape code ∈ ss ∧ 0x110000 ≤ code := by
  induction ss with
  | nil => simp [textOfSegments]
  | cons s ss ih =>
    have hs := s.codePoint?_error_iff
    have hmem : (∃ code, .escape code ∈ s :: ss ∧ 0x110000 ≤ code) ↔
        (∃ code, s = .escape code ∧ 0x110000 ≤ code) ∨
          ∃ code, .escape code ∈ ss ∧ 0x110000 ≤ code := by
      simp only [List.mem_cons, or_and_right, exists_or, eq_comm]
    rw [hmem, ← hs, ← ih, textOfSegments]
    cases s.codePoint? with
    | error l => simp
    | ok p =>
      cases textOfSegments ss with
      | error l => simp
      | ok t => simp

theorem Token.limit?_isSome_iff (t : Token) : t.limit?.isSome ↔ t.LargeEscape := by
  rw [limit?, LargeEscape, ← textOfSegments_error_iff]
  by_cases hk : t.kind = .string
  · rw [if_pos hk]
    simp only [hk, true_and, unescape]
    cases textOfSegments (segments (t.lexeme.toList.drop 1).dropLast) with
    | error l => simp
    | ok text => simp
  · rw [if_neg hk]
    simp [hk]

theorem Parsed.Agree.breaksOff_iff {p q : Parsed α ts} (h : Agree p q) :
    BreaksOff p.result ↔ ∃ t ∈ ts.take (ts.length - p.rest.length), t.LargeEscape := by
  simp only [← Token.limit?_isSome_iff]
  cases h with
  | ok used h hc | fault used h hc =>
    subst h
    rw [List.length_append, Nat.add_sub_cancel_right, List.take_left]
    refine ⟨nofun, fun ⟨t, ht, hl⟩ => ?_⟩
    rw [hc t ht] at hl
    cases hl
  | @limit l used left t s h hc ht =>
    subst h
    have hts : used ++ t :: left = (used ++ [t]) ++ left := by simp
    have htake : (used ++ t :: left).take ((used ++ t :: left).length - left.length) =
        used ++ [t] := by
      rw [hts, List.length_append, Nat.add_sub_cancel_right, List.take_left]
    rw [htake]
    exact ⟨fun _ => ⟨t, by simp, by rw [ht]; rfl⟩, fun _ => breaksOff_limit⟩

/-! ## Versions -/

/-- A version one of whose numbers has more digits than an integer is read from. -/
def LongVersion (t : Text) : Prop :=
  ∃ major minor patch, Version.components? t = some (major, minor, patch) ∧
    ∃ digits ∈ [major, minor, patch], decimalDigitLimit < digits.length

theorem Version.ofText_digits_iff (t : Text) :
    (∃ n, Version.ofText t = .error (.digits n)) ↔ LongVersion t := by
  rw [Version.ofText, LongVersion]
  cases components? t with
  | none => simp
  | some c =>
    obtain ⟨major, minor, patch⟩ := c
    dsimp only
    constructor
    · rintro ⟨n, h⟩
      split at h
      · next digits hd =>
        have hl := List.find?_some hd
        exact ⟨_, _, _, rfl, digits, List.mem_of_find?_eq_some hd, of_decide_eq_true hl⟩
      · cases h
    · rintro ⟨_, _, _, h, digits, hd, hl⟩
      cases h
      split
      · exact ⟨_, rfl⟩
      · next hn => exact (List.find?_eq_none.mp hn digits hd (decide_eq_true hl)).elim

theorem VersionRange.ofText_digits_iff (t : Text) :
    (∃ n, VersionRange.ofText t = .error (.digits n)) ↔ LongVersion (splitMark t).2 := by
  rw [← Version.ofText_digits_iff, VersionRange.ofText]
  cases t with
  | nil => constructor <;> rintro ⟨n, h⟩ <;> cases h
  | cons p t =>
    obtain ⟨op, u⟩ := splitMark (p :: t)
    cases hu : Version.ofText u with
    | error e => simp [hu]
    | ok v => simp [hu]

/-- The range is read before the version. -/
theorem satisfies_digits_iff (version range : Text) :
    (∃ n, satisfies version range = .error (.digits n)) ↔
      LongVersion (VersionRange.splitMark range).2 ∨
        (∃ r, VersionRange.ofText range = .ok r) ∧ LongVersion version := by
  rw [satisfies, ← VersionRange.ofText_digits_iff, ← Version.ofText_digits_iff]
  cases VersionRange.ofText range with
  | error e => simp
  | ok r =>
    cases Version.ofText version with
    | error e => simp
    | ok v => simp

/-! ## Evaluation -/

/-- An integer literal of more decimal digits than an integer is written with. -/
def Operand.Large (a : Operand) : Prop := ∃ v, a.term = .int v ∧ 10 ^ decimalDigitLimit ≤ v.natAbs

theorem decimalNumeral?_eq_none_iff (v : Int) :
    decimalNumeral? v = none ↔ 10 ^ decimalDigitLimit ≤ v.natAbs := by
  rw [decimalNumeral?, Nat.pow_eq, ite_eq_right_iff, ← Nat.not_lt]
  simp

theorem Operand.value_breaksOff_iff (a : Operand) (env : Environment) :
    BreaksOff (a.value env) ↔ a.Large := by
  rw [Operand.value, Operand.Large]
  cases a.term with
  | int v =>
    simp only [Term.int.injEq, exists_eq_left', ← decimalNumeral?_eq_none_iff]
    cases decimalNumeral? v with
    | none => simp [BreaksOff]
    | some n => simp [BreaksOff]
  | float x => simp [BreaksOff]
  | string t => simp [BreaksOff]
  | bool b => simp [BreaksOff]
  | reference name =>
    cases hl : env.lookup? name with
    | none => simp [hl, BreaksOff]
    | some v => simp [hl, BreaksOff]

/-- Evaluation of a condition comes to a number beyond a limit. -/
inductive Condition.Large (env : Environment) : Condition → Prop
  | lhs (h : lhs.Large) : Condition.Large env (.compare l op lhs rhs)
  | rhs (hv : lhs.value env = .ok v) (h : rhs.Large) : Condition.Large env (.compare l op lhs rhs)
  | range (hv : lhs.value env = .ok v) (hw : rhs.value env = .ok w) (hd : v.datum = .string version)
    (he : w.datum = .string range) (h : LongVersion (VersionRange.splitMark range).2) :
    Condition.Large env (.compare l .satisfies lhs rhs)
  | version (hv : lhs.value env = .ok v) (hw : rhs.value env = .ok w)
    (hd : v.datum = .string version) (he : w.datum = .string range)
    (hr : VersionRange.ofText range = .ok r) (h : LongVersion version) :
    Condition.Large env (.compare l .satisfies lhs rhs)
  | andLeft (h : Condition.Large env lhs) : Condition.Large env (.and l lhs rhs)
  | andRight (hl : lhs.evaluate env = .ok true) (h : Condition.Large env rhs) :
    Condition.Large env (.and l lhs rhs)
  | orLeft (h : Condition.Large env lhs) : Condition.Large env (.or l lhs rhs)
  | orRight (hl : lhs.evaluate env = .ok false) (h : Condition.Large env rhs) :
    Condition.Large env (.or l lhs rhs)

/-- Only a test for a range looks at versions. -/
theorem Comparison.compare_breaksOff_iff (op : Comparison) (l : Location) (v w : Value) :
    BreaksOff (op.compare l v w) ↔ op = .satisfies ∧ ∃ version range,
      v.datum = .string version ∧ w.datum = .string range ∧
        ∃ n, HashIf.satisfies version range = .error (.digits n) := by
  unfold Comparison.compare
  split
  · next version range hv hw =>
    simp only [hv, hw, Datum.string.injEq, true_and, exists_eq_left', exists_and_left]
    cases HashIf.satisfies version range with
    | ok b => exact ⟨nofun, nofun⟩
    | error e => cases e <;> simp [Failure.ofVersion, BreaksOff]
  · next hne =>
    refine ⟨nofun, ?_⟩
    rintro ⟨rfl, version, range, hv, hw, -⟩
    exact (hne version range rfl hv hw).elim

theorem Comparison.operands_ok (h : Comparison.operands op l lhs rhs env = .ok (v, w)) :
    lhs.value env = .ok v ∧ rhs.value env = .ok w := by
  unfold operands at h
  cases hv : lhs.value env with
  | error f => simp only [hv] at h; cases h
  | ok v' =>
    cases hw : rhs.value env with
    | error f => simp only [hv, hw] at h; cases h
    | ok w' =>
      simp only [hv, hw] at h
      split at h
      · cases h
        exact ⟨rfl, rfl⟩
      · cases h

theorem Comparison.operands_strings (hv : lhs.value env = .ok v) (hw : rhs.value env = .ok w)
    (hd : v.datum = .string version) (he : w.datum = .string range) :
    Comparison.operands .satisfies l lhs rhs env = .ok (v, w) := by
  have ha : accepts .satisfies v.type w.type = true := by
    rw [Value.type, Value.type, hd, he]
    rfl
  simp only [operands, hv, hw]
  exact if_pos ha

theorem Comparison.operands_breaksOff_iff (op : Comparison) (l : Location) (lhs rhs : Operand)
    (env : Environment) : BreaksOff (op.operands l lhs rhs env) ↔
      lhs.Large ∨ (∃ v, lhs.value env = .ok v) ∧ rhs.Large := by
  rw [← lhs.value_breaksOff_iff env, ← rhs.value_breaksOff_iff env, operands]
  cases lhs.value env with
  | error f => simp [BreaksOff]
  | ok v =>
    cases rhs.value env with
    | error f => simp [BreaksOff]
    | ok w =>
      by_cases ha : op.accepts v.type w.type = true
      · simp [BreaksOff, ha]
      · simp [BreaksOff, ha]

theorem Condition.evaluate_breaksOff_iff (env : Environment) (c : Condition) :
    BreaksOff (c.evaluate env) ↔ c.Large env := by
  induction c with
  | and l lhs rhs ihl ihr =>
    rw [evaluate]
    constructor
    · intro h
      split at h
      · next hl => exact .andRight hl (ihr.mp h)
      · exact .andLeft (ihl.mp h)
    · intro h
      cases h with
      | andLeft h =>
        obtain ⟨l', hl⟩ := ihl.mpr h
        rw [hl]
        exact breaksOff_limit
      | andRight hl h =>
        rw [hl]
        exact ihr.mpr h
  | or l lhs rhs ihl ihr =>
    rw [evaluate]
    constructor
    · intro h
      split at h
      · next hl => exact .orRight hl (ihr.mp h)
      · exact .orLeft (ihl.mp h)
    · intro h
      cases h with
      | orLeft h =>
        obtain ⟨l', hl⟩ := ihl.mpr h
        rw [hl]
        exact breaksOff_limit
      | orRight hl h =>
        rw [hl]
        exact ihr.mpr h
  | compare l op lhs rhs =>
    have hop := op.operands_breaksOff_iff l lhs rhs env
    constructor
    · intro h
      rw [evaluate] at h
      split at h
      · next v w ho =>
        obtain ⟨hv, hw⟩ := Comparison.operands_ok ho
        obtain ⟨rfl, version, range, hd, he, hs⟩ := (op.compare_breaksOff_iff l v w).mp h
        rcases (satisfies_digits_iff version range).mp hs with hs | ⟨⟨r, hr⟩, hs⟩
        · exact .range hv hw hd he hs
        · exact .version hv hw hd he hr hs
      · next f hf =>
        rw [hf, breaksOff_error_iff, ← breaksOff_error_iff (α := Bool)] at hop
        rcases hop.mp h with h | ⟨⟨v, hv⟩, h⟩
        · exact .lhs h
        · exact .rhs hv h
    · intro h
      have early (ho : lhs.Large ∨ (∃ v, lhs.value env = .ok v) ∧ rhs.Large) :
          BreaksOff ((Condition.compare l op lhs rhs).evaluate env) := by
        obtain ⟨l', ho⟩ := hop.mpr ho
        rw [evaluate, ho]
        exact breaksOff_limit
      cases h with
      | lhs h => exact early (.inl h)
      | rhs hv h => exact early (.inr ⟨⟨_, hv⟩, h⟩)
      | range hv hw hd he h =>
        rw [evaluate, Comparison.operands_strings hv hw hd he]
        refine (Comparison.compare_breaksOff_iff _ l _ _).mpr ⟨rfl, _, _, hd, he, ?_⟩
        exact (satisfies_digits_iff _ _).mpr (.inl h)
      | version hv hw hd he hr h =>
        rw [evaluate, Comparison.operands_strings hv hw hd he]
        refine (Comparison.compare_breaksOff_iff _ l _ _).mpr ⟨rfl, _, _, hd, he, ?_⟩
        exact (satisfies_digits_iff _ _).mpr (.inr ⟨⟨_, hr⟩, h⟩)
  | defined l name | undefined l name =>
    exact ⟨nofun, nofun⟩

end HashIf
