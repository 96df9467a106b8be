import HashIf.Number.Digits
import HashIf.Text.CodePoint

/-! Semantic versions and version ranges. A suffix after the three numbers of a version takes no
part in any comparison. -/

namespace HashIf

/-! ## Versions -/

structure Version where
  major : Nat
  minor : Nat
  patch : Nat
  deriving DecidableEq

inductive VersionError
  | illegal (text : Text)
  | emptyRange
  | digits (count : Nat)
  deriving DecidableEq

namespace Version

/-- Lexicographic order of the three numbers. -/
def order (v w : Version) : Ordering :=
  (compare v.major w.major).then ((compare v.minor w.minor).then (compare v.patch w.patch))

def splitDigits? (t : Text) : Option (Text × Text) :=
  let (digits, rest) := t.span CodePoint.isDigit
  if digits.isEmpty then none else some (digits, rest)

def afterPoint? (t : Text) : Option Text := t.after? ['.']

/-- Nothing, or a sign and a text without a line feed. -/
def isSuffixText : Text → Bool
  | [] => true
  | p :: t => (p.isChar '-' || p.isChar '+') && t.all fun q => !q.isChar '\n'

/-- The three runs of digits of the text of a version. -/
def components? (t : Text) : Option (Text × Text × Text) := do
  let (major, t) ← splitDigits? t
  let (minor, t) ← splitDigits? (← afterPoint? t)
  let (patch, t) ← splitDigits? (← afterPoint? t)
  if isSuffixText t then some (major, minor, patch) else none

def decimalOf (digits : Text) : Nat :=
  digits.foldl (fun n p => n * 10 + (p.val - 48)) 0

def ofText (t : Text) : Except VersionError Version :=
  match components? t with
  | none => .error (.illegal t)
  | some (major, minor, patch) =>
    match [major, minor, patch].find? (decimalDigitLimit < ·.length) with
    | some digits => .error (.digits digits.length)
    | none => .ok ⟨decimalOf major, decimalOf minor, decimalOf patch⟩

end Version

/-! ## Ranges -/

inductive RangeOperator
  | exact
  | less
  | atMost
  | greater
  | atLeast
  | sameMinor
  | sameMajor
  deriving DecidableEq

namespace RangeOperator

def mark : RangeOperator → String
  | exact => "="
  | less => "<"
  | atMost => "<="
  | greater => ">"
  | atLeast => ">="
  | sameMinor => "~"
  | sameMajor => "^"

/-- The operators in the order in which their marks are looked for. -/
def all : List RangeOperator := [atMost, atLeast, less, greater, exact, sameMinor, sameMajor]

/-- The version `v` stands in the relation to the version `w` of a range. -/
def holds (op : RangeOperator) (v w : Version) : Bool :=
  match op with
  | exact => v.order w == .eq
  | less => v.order w == .lt
  | atMost => v.order w != .gt
  | greater => v.order w == .gt
  | atLeast => v.order w != .lt
  | sameMinor => v.major == w.major && v.minor == w.minor
  | sameMajor => v.major == w.major

end RangeOperator

/-- A set of versions: those that stand in a relation to a bound. -/
structure VersionRange where
  operator : RangeOperator
  bound : Version
  deriving DecidableEq

namespace VersionRange

/-- Splits the mark off the text of a range; without a mark the range is exact. -/
def splitMark (t : Text) : RangeOperator × Text :=
  (RangeOperator.all.findSome? fun op => (t.after? op.mark.toList).map (op, ·)).getD (.exact, t)

def ofText (t : Text) : Except VersionError VersionRange :=
  if t.isEmpty then .error .emptyRange
  else
    let (op, t) := splitMark t
    match Version.ofText t with
    | .ok v => .ok ⟨op, v⟩
    | .error e => .error e

def contains (r : VersionRange) (v : Version) : Bool := r.operator.holds v r.bound

end VersionRange

/-- The version that one text denotes lies in the range that another denotes; the range is read
first. -/
def satisfies (version range : Text) : Except VersionError Bool :=
  match VersionRange.ofText range with
  | .error e => .error e
  | .ok r =>
    match Version.ofText version with
    | .error e => .error e
    | .ok v => .ok (r.contains v)

end HashIf
