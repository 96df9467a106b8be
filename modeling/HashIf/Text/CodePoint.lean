/-! Texts as sequences of code points. A text is more general than a `String`: an escape in a
string literal can denote a surrogate, which is no `Char`. -/

namespace HashIf

/-- A Unicode code point, surrogates included. -/
structure CodePoint where
  val : Nat
  lt_limit : val < 0x110000
  deriving DecidableEq

abbrev Text := List CodePoint

namespace CodePoint

def ofChar (c : Char) : CodePoint where
  val := c.toNat
  lt_limit := by
    have h : c.val.toNat.isValidChar := c.valid
    simp only [Char.toNat, Nat.isValidChar] at *
    omega

/-- The code point with a number, if the number is below the limit. -/
def ofNat? (n : Nat) : Option CodePoint :=
  if h : n < 0x110000 then some ⟨n, h⟩ else none

/-- The character of a code point, which a surrogate does not have. -/
def toChar? (p : CodePoint) : Option Char :=
  if h : p.val.isValidChar then some (Char.ofNatAux p.val h) else none

def isChar (p : CodePoint) (c : Char) : Bool := p.val == c.toNat

/-- The code point is one of the digits `0` to `9`. -/
def isDigit (p : CodePoint) : Bool := 48 ≤ p.val && p.val ≤ 57

instance : Ord CodePoint := ⟨fun p q => compare p.val q.val⟩

@[simp] theorem val_ofChar (c : Char) : (ofChar c).val = c.toNat := rfl

@[simp] theorem isChar_ofChar (c d : Char) : (ofChar c).isChar d = (c == d) := by
  simp only [isChar, val_ofChar, Char.toNat]
  rw [Bool.eq_iff_iff, beq_iff_eq, beq_iff_eq, Char.ext_iff, UInt32.toNat_inj]

@[simp] theorem toChar?_ofChar (c : Char) : (ofChar c).toChar? = some c := by
  have h : (ofChar c).val.isValidChar := c.valid
  rw [toChar?, dif_pos h]
  rfl

end CodePoint

namespace Text

def ofString (s : String) : Text := s.toList.map CodePoint.ofChar

/-- The string with the given code points, if none of them is a surrogate. -/
def toString? (t : Text) : Option String := (t.mapM CodePoint.toChar?).map String.ofList

def order (s t : Text) : Ordering := compare s t

/-- The text after a leading run of the given characters, if it starts with them. -/
def after? : List Char → Text → Option Text
  | [], t => some t
  | _ :: _, [] => none
  | c :: cs, p :: t => if p.isChar c then after? cs t else none

theorem toString?_ofString (s : String) : toString? (ofString s) = some s := by
  have h (cs : List Char) : (cs.map CodePoint.ofChar).mapM CodePoint.toChar? = some cs := by
    induction cs with
    | nil => rfl
    | cons c cs ih => simp [List.mapM_cons, ih]
  simp [toString?, ofString, h]

end Text

end HashIf
