import HashIf.Number.Integer

/-! Numbers of the binary64 format, by sign and magnitude. The magnitude is the pattern of the low
63 bits, and patterns are ordered as the magnitudes that they stand for. -/

namespace HashIf

/-- The pattern of an infinite magnitude; the patterns above it are no numbers. -/
def infinityPattern : Nat := 2047 * Nat.pow 2 52

/-- The pattern of the one quiet magnitude that is no number. -/
def nanPattern : Nat := infinityPattern + Nat.pow 2 51

structure Binary64 where
  negative : Bool
  pattern : Nat
  pattern_le : pattern ≤ nanPattern
  deriving DecidableEq

/-! ## Rounding -/

/-- The integer nearest to a quotient, an even one if two are equally near. -/
def roundQuotient (num den : Nat) : Nat :=
  let q := num / den
  let r := num % den
  if 2 * r < den then q else if 2 * r = den then q + q % 2 else q + 1

/-- The pattern of the magnitude nearest to a quotient, an even one if two are equally near.
The quotient is counted in units of the least positive magnitude, and the unit of the result is
`2 ^ scale` of those, the least in which 53 bits hold it. -/
def quotientPattern (num den : Nat) : Nat :=
  let units := num * Nat.pow 2 1074
  let scale := (units / den).log2 - 52
  min (scale * Nat.pow 2 52 + roundQuotient units (den * Nat.pow 2 scale)) infinityPattern

theorem quotientPattern_le (num den : Nat) : quotientPattern num den ≤ nanPattern :=
  Nat.le_trans (Nat.min_le_right _ _) (Nat.le_add_right _ _)

/-- Beyond this power of ten, in either direction, magnitudes are infinite or zero. -/
def decimalExponentLimit : Nat := 400

/-- The pattern of the magnitude nearest to `m * 10 ^ e`, where `m` has at most `digits` digits. -/
def decimalPattern (digits m : Nat) (e : Int) : Nat :=
  if m = 0 then 0
  else if decimalExponentLimit < e then infinityPattern
  else if e + digits < -decimalExponentLimit then 0
  else if 0 ≤ e then quotientPattern (m * Nat.pow 10 e.toNat) 1
  else quotientPattern m (Nat.pow 10 (-e).toNat)

theorem decimalPattern_le (digits m : Nat) (e : Int) :
    decimalPattern digits m e ≤ nanPattern := by
  unfold decimalPattern
  split
  · exact Nat.zero_le _
  split
  · exact Nat.le_add_right _ _
  split
  · exact Nat.zero_le _
  split <;> exact quotientPattern_le _ _

namespace Binary64

/-- The number with a sign nearest to `m * 10 ^ e`, where `m` has at most `digits` digits. -/
def ofDecimal (negative : Bool) (digits m : Nat) (e : Int) : Binary64 :=
  ⟨negative, decimalPattern digits m e, decimalPattern_le digits m e⟩

def infinity (negative : Bool) : Binary64 :=
  ⟨negative, infinityPattern, Nat.le_add_right _ _⟩

def nan (negative : Bool) : Binary64 := ⟨negative, nanPattern, Nat.le_refl _⟩

def neg (x : Binary64) : Binary64 := { x with negative := !x.negative }

def isNan (x : Binary64) : Bool := infinityPattern < x.pattern

/-- The 64 bits of the number, the sign first. -/
def bits (x : Binary64) : Nat := (if x.negative then Nat.pow 2 63 else 0) + x.pattern

/-! ## Order -/

/-- The place of a number among all of them; both zeros have place zero. -/
def place (x : Binary64) : Int := if x.negative then -x.pattern else x.pattern

/-- The order of two numbers, of which `nan` has none. -/
def order? (x y : Binary64) : Option Ordering :=
  if x.isNan || y.isNan then none else some (compare x.place y.place)

@[simp] theorem neg_neg (x : Binary64) : x.neg.neg = x := by simp [neg]

@[simp] theorem place_neg (x : Binary64) : x.neg.place = -x.place := by
  cases h : x.negative <;> simp [place, neg, h]

end Binary64

end HashIf
