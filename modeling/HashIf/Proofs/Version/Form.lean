import HashIf.Proofs.Number.Numeral
import HashIf.Version

/-! The shapes of versions and of ranges. A text is read as a version, or as a range of versions,
exactly if it has the shape, but for numbers of too many digits. -/

namespace HashIf

/-! ## Shapes -/

/-- Digits `0` to `9`, one at least. -/
structure Text.IsNumber (t : Text) : Prop where
  ne_nil : t ≠ []
  digits : ∀ p ∈ t, p.isDigit = true

namespace Version

/-- What may follow the numbers of a version. -/
inductive Suffix : Text → Prop
  | none : Suffix []
  | signed (hs : sign = .ofChar '-' ∨ sign = .ofChar '+') (ht : .ofChar '\n' ∉ t) :
    Suffix (sign :: t)

/-- A version: three numbers with points between them, and a suffix. -/
inductive Form : Text → (major minor patch : Text) → Prop
  | mk (ha : a.IsNumber) (hb : b.IsNumber) (hc : c.IsNumber) (hs : Suffix s) :
    Form (a ++ .ofChar '.' :: (b ++ .ofChar '.' :: (c ++ s))) a b c

end Version

def IsVersion (t : Text) : Prop := ∃ major minor patch, Version.Form t major minor patch

/-- A version, behind the mark of an operator or without one. -/
inductive IsRange : Text → Prop
  | marked (op : RangeOperator) (h : IsVersion t) : IsRange (.ofString op.mark ++ t)
  | plain (h : IsVersion t) : IsRange t

/-! ## Characters -/

theorem CodePoint.isChar_iff {p : CodePoint} : p.isChar c = true ↔ p = .ofChar c := by
  obtain ⟨n, hn⟩ := p
  rw [isChar, beq_iff_eq, ofChar, mk.injEq]

theorem CodePoint.isChar_of_isDigit {p : CodePoint} (h : p.isDigit = true)
    (hc : ¬(CodePoint.ofChar c).isDigit = true) : p.isChar c = false := by
  refine Bool.eq_false_iff.mpr fun hp => hc ?_
  rwa [← isChar_iff.mp hp]

/-! ## Versions -/

namespace Version

variable {t u rest a b c : Text}

theorem splitDigits?_append (h : t.IsNumber) (hr : ∀ p ∈ rest.head?, p.isDigit = false) :
    splitDigits? (t ++ rest) = some (t, rest) := by
  rw [splitDigits?, span_append_of_head h.digits hr]
  exact if_neg (by simpa using h.ne_nil)

theorem splitDigits?_eq_some (h : splitDigits? t = some (u, rest)) :
    t = u ++ rest ∧ u.IsNumber := by
  rw [splitDigits?, List.span_eq_takeWhile_dropWhile] at h
  dsimp only at h
  split at h
  · cases h
  · next hn =>
    cases h
    refine ⟨List.takeWhile_append_dropWhile.symm, by simpa using hn, fun p hp => ?_⟩
    exact List.mem_takeWhile_imp hp

theorem afterPoint?_eq_some_iff : afterPoint? t = some u ↔ t = .ofChar '.' :: u := by
  cases t with
  | nil => exact ⟨nofun, nofun⟩
  | cons p t =>
    rw [afterPoint?, Text.after?, List.cons.injEq, ← CodePoint.isChar_iff]
    by_cases h : p.isChar '.' = true
    · rw [if_pos h]
      exact ⟨fun ht => ⟨h, Option.some.inj ht⟩, fun ht => congrArg some ht.2⟩
    · rw [if_neg h]
      exact ⟨nofun, fun ht => (h ht.1).elim⟩

theorem isSuffixText_iff : isSuffixText t = true ↔ Suffix t := by
  cases t with
  | nil => exact ⟨fun _ => .none, fun _ => rfl⟩
  | cons p t =>
    have hall : (t.all fun q => !q.isChar '\n') = true ↔ .ofChar '\n' ∉ t := by
      simp only [List.all_eq_true, Bool.not_eq_true', Bool.eq_false_iff, ne_eq,
        CodePoint.isChar_iff]
      exact ⟨fun h hm => h _ hm rfl, fun h q hq hc => h (hc ▸ hq)⟩
    rw [isSuffixText, Bool.and_eq_true, Bool.or_eq_true, CodePoint.isChar_iff,
      CodePoint.isChar_iff, hall]
    constructor
    · exact fun h => .signed h.1 h.2
    · rintro (_ | ⟨hs, ht⟩)
      exact ⟨hs, ht⟩

theorem Suffix.not_isDigit (h : Suffix t) : ∀ p ∈ t.head?, p.isDigit = false := by
  rintro p hp
  cases h with
  | none => cases hp
  | signed hs ht =>
    cases hp
    rcases hs with rfl | rfl <;> rfl

/-- The numbers of a text are found exactly if it has the shape of a version. -/
theorem components?_eq_some_iff :
    components? t = some (a, b, c) ↔ Form t a b c := by
  constructor
  · intro h
    simp only [components?, Option.bind_eq_bind, Option.bind_eq_some_iff] at h
    obtain ⟨⟨a', t₁⟩, ha, t₂, hp, ⟨b', t₃⟩, hb, t₄, hq, ⟨c', s⟩, hc, h⟩ := h
    dsimp only at hp hq h
    split at h
    · next hs =>
      cases h
      obtain ⟨rfl, ha'⟩ := splitDigits?_eq_some ha
      obtain rfl := afterPoint?_eq_some_iff.mp hp
      obtain ⟨rfl, hb'⟩ := splitDigits?_eq_some hb
      obtain rfl := afterPoint?_eq_some_iff.mp hq
      obtain ⟨rfl, hc'⟩ := splitDigits?_eq_some hc
      exact .mk ha' hb' hc' (isSuffixText_iff.mp hs)
    · cases h
  · rintro ⟨ha, hb, hc, hs⟩
    have point {u : Text} : ∀ p ∈ (CodePoint.ofChar '.' :: u).head?, p.isDigit = false := by
      rintro _ ⟨⟩
      rfl
    simp only [components?, Option.bind_eq_bind, splitDigits?_append ha point,
      splitDigits?_append hb point, splitDigits?_append hc hs.not_isDigit, Option.bind_some,
      afterPoint?_eq_some_iff.mpr rfl]
    exact if_pos (isSuffixText_iff.mpr hs)

theorem ofText_illegal_iff : ofText t = .error (.illegal u) ↔ ¬IsVersion t ∧ u = t := by
  have hform : IsVersion t ↔ ∃ c, components? t = some c := by
    simp only [IsVersion, ← components?_eq_some_iff, Prod.exists]
  rw [hform, ofText]
  cases components? t with
  | none => simp [eq_comm]
  | some c =>
    obtain ⟨major, minor, patch⟩ := c
    refine ⟨fun h => ?_, fun h => (h.1 ⟨_, rfl⟩).elim⟩
    dsimp only at h
    split at h <;> cases h

theorem ofText_ne_emptyRange : ofText t ≠ .error .emptyRange := by
  unfold ofText
  split
  · exact nofun
  · split <;> exact nofun

end Version

/-! ## Ranges -/

namespace VersionRange

variable {t u : Text}

theorem head_of_isVersion (h : IsVersion t) : ∃ p rest, t = p :: rest ∧ p.isDigit = true := by
  obtain ⟨_, _, _, ⟨⟨hne, hd⟩, -, -, -⟩⟩ := h
  obtain ⟨p, rest, rfl⟩ := List.exists_cons_of_ne_nil hne
  exact ⟨p, _, rfl, hd p List.mem_cons_self⟩

theorem after?_eq_some {cs : List Char} (h : t.after? cs = some u) :
    t = cs.map CodePoint.ofChar ++ u := by
  induction cs generalizing t with
  | nil => exact Option.some.inj h
  | cons c cs ih =>
    cases t with
    | nil => cases h
    | cons p t =>
      rw [Text.after?] at h
      split at h
      · next hp =>
        rw [CodePoint.isChar_iff.mp hp, ih h]
        rfl
      · cases h

/-- A mark is split off whole, for a digit follows it. -/
theorem splitMark_marked (op : RangeOperator) (h : IsVersion t) :
    splitMark (.ofString op.mark ++ t) = (op, t) := by
  obtain ⟨p, rest, rfl, hp⟩ := head_of_isVersion h
  have hne : p.isChar '=' = false := CodePoint.isChar_of_isDigit hp (by decide)
  cases op <;>
    simp [splitMark, RangeOperator.all, RangeOperator.mark, Text.ofString, Text.after?, hne]

theorem splitMark_plain (h : IsVersion t) : splitMark t = (.exact, t) := by
  obtain ⟨p, rest, rfl, hp⟩ := head_of_isVersion h
  have hne (c : Char) (hc : ¬(CodePoint.ofChar c).isDigit = true) : p.isChar c = false :=
    CodePoint.isChar_of_isDigit hp hc
  simp [splitMark, RangeOperator.all, RangeOperator.mark, Text.after?, hne '<' (by decide),
    hne '>' (by decide), hne '=' (by decide), hne '~' (by decide), hne '^' (by decide)]

theorem splitMark_cases (t : Text) :
    t = .ofString (splitMark t).1.mark ++ (splitMark t).2 ∨ (splitMark t).2 = t := by
  rw [splitMark]
  cases hf : RangeOperator.all.findSome? fun op => (t.after? op.mark.toList).map (op, ·) with
  | none => exact .inr rfl
  | some x =>
    obtain ⟨op, -, hop⟩ := List.exists_of_findSome?_eq_some hf
    obtain ⟨u, hu, rfl⟩ := Option.map_eq_some_iff.mp hop
    exact .inl (after?_eq_some hu)

/-- A text is a range exactly if what is left of it behind its mark is a version. -/
theorem isRange_iff : IsRange t ↔ IsVersion (splitMark t).2 := by
  constructor
  · rintro (⟨op, h⟩ | h)
    · rwa [splitMark_marked op h]
    · rwa [splitMark_plain h]
  · intro h
    rcases splitMark_cases t with ht | ht
    · rw [ht]
      exact .marked _ h
    · exact .plain (ht ▸ h)

theorem ofText_emptyRange_iff : ofText t = .error .emptyRange ↔ t = [] := by
  cases t with
  | nil => exact ⟨fun _ => rfl, fun _ => rfl⟩
  | cons p t =>
    refine ⟨fun h => ?_, nofun⟩
    rw [ofText, if_neg (by simp)] at h
    dsimp only at h
    split at h
    · cases h
    · next he =>
      cases h
      exact (Version.ofText_ne_emptyRange he).elim

theorem ofText_illegal_iff :
    ofText t = .error (.illegal u) ↔ t ≠ [] ∧ ¬IsRange t ∧ u = (splitMark t).2 := by
  rw [isRange_iff, ← Version.ofText_illegal_iff]
  cases t with
  | nil => exact ⟨nofun, fun h => (h.1 rfl).elim⟩
  | cons p t =>
    rw [ofText, if_neg (by simp)]
    dsimp only
    cases Version.ofText (splitMark (p :: t)).2 <;> simp

theorem isRange_of_ok (h : ofText t = .ok r) : IsRange t := by
  by_contra hn
  by_cases ht : t = []
  · cases h.symm.trans (ofText_emptyRange_iff.mpr ht)
  · cases h.symm.trans (ofText_illegal_iff.mpr ⟨ht, hn, rfl⟩)

/-- Only the number of its digits keeps a range from being read. -/
theorem ofText_of_isRange (h : IsRange t) :
    (∃ r, ofText t = .ok r) ∨ ∃ n, ofText t = .error (.digits n) := by
  cases ht : ofText t with
  | ok r => exact .inl ⟨r, rfl⟩
  | error e =>
    cases e with
    | digits n => exact .inr ⟨n, rfl⟩
    | illegal u => exact ((ofText_illegal_iff.mp ht).2.1 h).elim
    | emptyRange =>
      obtain ⟨p, rest, hp, -⟩ := head_of_isVersion (isRange_iff.mp h)
      obtain rfl := ofText_emptyRange_iff.mp ht
      cases hp

end VersionRange

/-! ## Versions in ranges -/

theorem satisfies_emptyRange_iff {version range : Text} :
    satisfies version range = .error .emptyRange ↔ range = [] := by
  rw [← VersionRange.ofText_emptyRange_iff, satisfies]
  cases VersionRange.ofText range with
  | error e => simp
  | ok r =>
    refine ⟨fun h => ?_, nofun⟩
    dsimp only at h
    split at h
    · next he =>
      cases h
      exact (Version.ofText_ne_emptyRange he).elim
    · cases h

/-- The range is looked at first. -/
theorem satisfies_illegal_iff {version range u : Text} :
    satisfies version range = .error (.illegal u) ↔
      (range ≠ [] ∧ ¬IsRange range ∧ u = (VersionRange.splitMark range).2) ∨
        (∃ r, VersionRange.ofText range = .ok r) ∧ ¬IsVersion version ∧ u = version := by
  rw [← VersionRange.ofText_illegal_iff, ← Version.ofText_illegal_iff, satisfies]
  cases VersionRange.ofText range with
  | error e => simp
  | ok r => cases Version.ofText version <;> simp

end HashIf
