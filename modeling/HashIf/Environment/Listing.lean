import HashIf.Environment

/-! The listing of an environment: a line for each variable, by name. -/

namespace HashIf.Environment

def sorted (e : Environment) : List Variable :=
  e.entries.mergeSort fun v w => decide (v.name ≤ w.name)

def nameWidth (e : Environment) : Nat :=
  e.entries.foldl (fun n v => max n v.name.length) 0

/-- The line of a variable, its name filled up with blanks to a width. -/
def listingLine (width : Nat) (v : Variable) : String :=
  v.name ++ String.ofList (List.replicate (width - v.name.length) ' ') ++ " = " ++ v.raw ++
    " : " ++ v.type.name ++ "\n"

def listing (e : Environment) : String :=
  String.join (e.sorted.map (listingLine e.nameWidth))

end HashIf.Environment
