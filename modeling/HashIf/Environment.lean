import HashIf.Environment.Builtin
import HashIf.Value

/-! Environments: bindings whose raw texts have been typed. An environment is made once for a run
and never changes. -/

namespace HashIf

/-- A variable with its raw text and the datum that the text stands for. -/
structure Variable where
  name : String
  raw : String
  datum : Datum
  datum_eq : Datum.ofString raw = .ok datum

namespace Variable

def value (v : Variable) : Value := ⟨v.datum, Text.ofString v.raw⟩

def type (v : Variable) : ValueType := v.datum.type

end Variable

/-- Types the raw texts of bindings in order, up to the first that goes beyond a limit. -/
def typeEntries : (es : List (String × String)) →
    Except Excess { vs : List Variable // vs.map (fun v => (v.name, v.raw)) = es }
  | [] => .ok ⟨[], rfl⟩
  | (name, raw) :: es =>
    match h : Datum.ofString raw with
    | .error l => .error l
    | .ok d =>
      match typeEntries es with
      | .error l => .error l
      | .ok vs => .ok ⟨⟨name, raw, d, h⟩ :: vs.val, by simp [vs.property]⟩

/-- The variables of a run, each name once, in the order in which the names were first bound. -/
structure Environment where
  entries : List Variable
  nodup : (entries.map (·.name)).Nodup

namespace Environment

def empty : Environment := ⟨[], List.nodup_nil⟩

def ofBindings (b : Bindings) : Except Excess Environment :=
  match typeEntries b.entries with
  | .error l => .error l
  | .ok vs => .ok ⟨vs.val, by
      have h := congrArg (List.map Prod.fst) vs.property
      rw [List.map_map] at h
      exact (show vs.val.map (·.name) = _ from h) ▸ b.nodup⟩

def find? (e : Environment) (name : String) : Option Variable :=
  e.entries.find? (·.name == name)

def contains (e : Environment) (name : String) : Bool := (e.find? name).isSome

def raw? (e : Environment) (name : String) : Option String := (e.find? name).map (·.raw)

def lookup? (e : Environment) (name : String) : Option Value := (e.find? name).map (·.value)

def type? (e : Environment) (name : String) : Option ValueType := (e.find? name).map (·.type)

def names (e : Environment) : List String := e.entries.map (·.name)

inductive Error
  | binding (e : BindingError)
  | limit (x : Excess)
  deriving DecidableEq

def checkNames : List (String × String) → Except BindingError Unit
  | [] => .ok ()
  | (name, _) :: es => if isName name then checkNames es else .error (.invalidName name)

/-- The environment of built-in bindings with custom ones on top. Only custom names are checked,
and all of them before any raw text is typed. -/
def build (builtin custom : Bindings) : Except Error Environment :=
  match checkNames custom.entries with
  | .error e => .error (.binding e)
  | .ok () =>
    match ofBindings (builtin.insertAll custom.entries) with
    | .error l => .error (.limit l)
    | .ok env => .ok env

end Environment

end HashIf
