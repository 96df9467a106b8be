import HashIf.Number.Digits
import HashIf.Text.Quoted

/-! Bindings of raw texts to names, in the order in which the names were first bound, and the
definitions that make them. -/

namespace HashIf

/-! ## Names -/

/-- A character that begins the name of a variable. -/
def isNameStart (c : Char) : Bool :=
  ('a' ≤ c && c ≤ 'z') || ('A' ≤ c && c ≤ 'Z') || c == '_'

/-- A character that continues the name of a variable. -/
def isNamePart (c : Char) : Bool := isNameStart c || isDecimal c || c == '\''

/-- The name of a variable: ASCII letters, digits, underscores and single quotes, the first of them
a letter or an underscore. -/
def isName (s : String) : Bool :=
  match s.toList with
  | [] => false
  | c :: cs => isNameStart c && cs.all isNamePart

/-! ## Bindings -/

/-- Binds a name, in its old place if it has one and otherwise at the end. -/
def bindIn (name raw : String) : List (String × String) → List (String × String)
  | [] => [(name, raw)]
  | e :: es => if e.1 = name then (name, raw) :: es else e :: bindIn name raw es

theorem mem_names_bindIn {es : List (String × String)} :
    n ∈ (bindIn name raw es).map Prod.fst ↔ n = name ∨ n ∈ es.map Prod.fst := by
  induction es with
  | nil => simp [bindIn]
  | cons e es ih =>
    unfold bindIn
    split
    · next h => subst h; simp
    · simp only [List.map_cons, List.mem_cons, ih]
      constructor
      · rintro (h | h | h) <;> simp [h]
      · rintro (h | h | h) <;> simp [h]

theorem nodup_bindIn {es : List (String × String)} (h : (es.map Prod.fst).Nodup) :
    ((bindIn name raw es).map Prod.fst).Nodup := by
  induction es with
  | nil => simp [bindIn]
  | cons e es ih =>
    rw [List.map_cons, List.nodup_cons] at h
    unfold bindIn
    split
    · next he => subst he; exact List.nodup_cons.mpr h
    · next he =>
      refine List.nodup_cons.mpr ⟨fun hm => ?_, ih h.2⟩
      rcases mem_names_bindIn.mp hm with hm | hm
      · exact he hm
      · exact h.1 hm

/-- Raw texts bound to names, each name once. -/
structure Bindings where
  entries : List (String × String)
  nodup : (entries.map Prod.fst).Nodup

namespace Bindings

def empty : Bindings := ⟨[], .nil⟩

/-- Binds a name; a bound name keeps its place. -/
def insert (b : Bindings) (name raw : String) : Bindings :=
  ⟨bindIn name raw b.entries, nodup_bindIn b.nodup⟩

def insertAll (b : Bindings) (es : List (String × String)) : Bindings :=
  es.foldl (fun b e => b.insert e.1 e.2) b

/-- The bindings of a list, of which the last for a name counts. -/
def ofList (es : List (String × String)) : Bindings := empty.insertAll es

end Bindings

/-! ## Definitions -/

inductive BindingError
  | invalidName (name : String)
  | invalidDefinition (text : String)
  deriving DecidableEq

def BindingError.message : BindingError → String
  | invalidName name => "invalid conditional variable name " ++ quoted name
  | invalidDefinition text => "invalid define " ++ quoted text ++ ": expected NAME or NAME=VALUE"

/-- The name and the raw text that a definition binds: the parts around its first equality sign,
the name without white space around it. Without a sign the raw text is `true`. -/
def parseDefinition (text : String) : Except BindingError (String × String) :=
  let (left, right) := text.toList.span (· != '=')
  let name := String.ofList (trimBy isSpace left)
  if isName name then
    .ok (name, match right with
      | [] => "true"
      | _ :: raw => String.ofList raw)
  else .error (.invalidDefinition text)

end HashIf
