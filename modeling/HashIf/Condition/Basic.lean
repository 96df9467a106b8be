import HashIf.Source.Location
import HashIf.Value

/-! Conditions: the headers of `#if` and `#elif` once they have been parsed. -/

namespace HashIf

/-- What an operand is. A reference is looked up only when the condition is evaluated. -/
inductive Term
  | int (v : Int)
  | float (x : Binary64)
  | string (t : Text)
  | bool (b : Bool)
  | reference (name : String)
  deriving DecidableEq

structure Operand where
  loc : Location
  term : Term
  deriving DecidableEq

inductive Comparison
  | eq
  | ne
  | lt
  | gt
  | le
  | ge
  | satisfies
  deriving DecidableEq

namespace Comparison

def symbol : Comparison → String
  | eq => "="
  | ne => "<>"
  | lt => "<"
  | gt => ">"
  | le => "<="
  | ge => ">="
  | satisfies => "=~"

def all : List Comparison := [eq, ne, lt, gt, le, ge, satisfies]

def ofSymbol? (s : String) : Option Comparison := all.find? (·.symbol == s)

end Comparison

/-- A condition. A connective or a comparison stands where its operator does. -/
inductive Condition
  | and (loc : Location) (lhs rhs : Condition)
  | or (loc : Location) (lhs rhs : Condition)
  | compare (loc : Location) (op : Comparison) (lhs rhs : Operand)
  | defined (loc : Location) (name : String)
  | undefined (loc : Location) (name : String)
  deriving DecidableEq

namespace Condition

def loc : Condition → Location
  | and l _ _ | or l _ _ | compare l _ _ _ | defined l _ | undefined l _ => l

/-- The condition that an operand is true, for an operand that stands alone. -/
def ofOperand (a : Operand) : Condition :=
  compare a.loc .eq a ⟨a.loc, .bool true⟩

end Condition

end HashIf
