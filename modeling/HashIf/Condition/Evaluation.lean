import HashIf.Diagnostic
import HashIf.Environment
import HashIf.Number.Shortest

/-! Evaluation of conditions in an environment. Connectives do not look at their right side when
the left one decides, so that a test for a name can guard a reference to it. -/

namespace HashIf

/-! ## Operands -/

/-- The value of an operand. The raw text of a literal is its canonical text. -/
def Operand.value (a : Operand) (env : Environment) : Except Failure Value :=
  match a.term with
  | .int v =>
    match decimalNumeral? v with
    | some s => .ok ⟨.int v, Text.ofString s⟩
    | none => .error (.limit .integer)
  | .float x => .ok ⟨.float x, Text.ofString x.text⟩
  | .string t => .ok ⟨.string t, t⟩
  | .bool b => .ok ⟨.bool b, Text.ofString (if b then "true" else "false")⟩
  | .reference name =>
    match env.lookup? name with
    | some v => .ok v
    | none => .error (.diagnostic (.unbound a.loc name))

/-! ## Comparisons -/

namespace Comparison

def accepts (op : Comparison) (lhs rhs : ValueType) : Bool :=
  match op with
  | satisfies => lhs = .string && rhs = .string
  | _ => lhs = rhs

/-- The comparison holds of two data in the given order; of data without order they are only
unequal. -/
def holds (op : Comparison) (o : Option Ordering) : Bool :=
  match op with
  | eq => o == some .eq
  | ne => o != some .eq
  | lt => o == some .lt
  | gt => o == some .gt
  | le => o == some .lt || o == some .eq
  | ge => o == some .gt || o == some .eq
  | satisfies => false

/-- The values of two operands that can be compared. The left one is found first. -/
def operands (op : Comparison) (loc : Location) (lhs rhs : Operand) (env : Environment) :
    Except Failure (Value × Value) :=
  match lhs.value env with
  | .error f => .error f
  | .ok v =>
    match rhs.value env with
    | .error f => .error f
    | .ok w =>
      if op.accepts v.type w.type then .ok (v, w)
      else .error (.diagnostic (.operands loc op v.type w.type))

def compare (op : Comparison) (loc : Location) (v w : Value) : Except Failure Bool :=
  match op, v.datum, w.datum with
  | satisfies, .string version, .string range =>
    match HashIf.satisfies version range with
    | .ok b => .ok b
    | .error e => .error (.ofVersion (some loc) e)
  | op, a, b => .ok (op.holds (a.order? b))

end Comparison

/-! ## Conditions -/

/-- The truth of a condition in an environment. -/
def Condition.evaluate (env : Environment) : Condition → Except Failure Bool
  | and _ lhs rhs =>
    match lhs.evaluate env with
    | .ok true => rhs.evaluate env
    | r => r
  | or _ lhs rhs =>
    match lhs.evaluate env with
    | .ok false => rhs.evaluate env
    | r => r
  | compare loc op lhs rhs =>
    match op.operands loc lhs rhs env with
    | .ok (v, w) => op.compare loc v w
    | .error f => .error f
  | defined _ name => .ok (env.contains name)
  | undefined _ name => .ok (!env.contains name)

end HashIf
