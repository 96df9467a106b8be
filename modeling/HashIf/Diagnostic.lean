import HashIf.Condition.Basic
import HashIf.Source.Cursor
import HashIf.Source.LexicalError
import HashIf.Version

/-! Diagnostics: everything that can be wrong with a source text or with what its conditions refer
to, and how it is reported. -/

namespace HashIf

/-! ## Causes -/

inductive Demand
  | condition (directive : String)
  | thenWord
  | closing
  | variableName (after : String)
  | number
  | integerLiteral
  | floatLiteral
  | operand
  | moreTokens
  | custom (text : String)
  deriving DecidableEq

def Demand.message : Demand → String
  | condition directive => "expected condition after '" ++ directive ++ "'"
  | thenWord => "expected 'then' after condition"
  | closing => "expected ')' to close condition"
  | variableName after => "expected variable name after '" ++ after ++ "'"
  | number => "expected number after '-'"
  | integerLiteral => "invalid integer literal"
  | floatLiteral => "invalid float literal"
  | operand => "expected variable or literal in condition"
  | moreTokens => "unexpected end of directive"
  | custom text => text

/-- How a token is named where another was expected. -/
def Token.got (t : Token) : String :=
  if t.kind = .eof then "end of input" else t.kind.name ++ " " ++ quoted t.lexeme

/-- What is wrong with the order of the markers. -/
inductive StructureFault
  | unmatched (m : Marker)
  | elifAfterElse
  | repeatedElse
  | openBlock
  deriving DecidableEq

def StructureFault.message : StructureFault → String
  | unmatched m => "'" ++ m.word ++ "' without matching '#if'"
  | elifAfterElse => "'#elif' after '#else'"
  | repeatedElse => "duplicate '#else'"
  | openBlock => "unterminated '#if' block (missing '#end')"

/-! ## Diagnostics -/

/-- A fault of a source text or of what it refers to. A fault of a version has no place if the
texts come from no source. -/
inductive Diagnostic
  | lexical (e : LexicalError)
  | header (found : Token) (demand : Demand)
  | structural (loc : Location) (fault : StructureFault)
  | operands (loc : Location) (op : Comparison) (lhs rhs : ValueType)
  | unbound (loc : Location) (name : String)
  | illegalVersion (loc : Option Location) (text : Text)
  | emptyRange (loc : Option Location)
  deriving DecidableEq

namespace Diagnostic

def category : Diagnostic → String
  | lexical _ => "lex"
  | header .. | structural .. => "syntax"
  | operands .. => "type"
  | unbound .. => "name"
  | illegalVersion .. | emptyRange _ => "format"

def loc? : Diagnostic → Option Location
  | lexical e => some e.loc
  | header found _ => some found.loc
  | structural loc _ => some loc
  | operands loc .. => some loc
  | unbound loc _ => some loc
  | illegalVersion loc _ => loc
  | emptyRange loc => loc

def summary : Diagnostic → String
  | lexical e => e.cause.message
  | header found demand => demand.message ++ " (got " ++ found.got ++ ")"
  | structural _ fault => fault.message
  | operands _ .satisfies lhs rhs =>
    "operator '=~' expects string operands, got " ++ lhs.name ++ " and " ++ rhs.name
  | operands _ op lhs rhs =>
    "cannot compare " ++ lhs.name ++ " with " ++ rhs.name ++ " using '" ++ op.symbol ++ "'"
  | unbound _ name => "unbound conditional variable '" ++ name ++ "'"
  | illegalVersion _ text => "illegal semantic version " ++ text.quoted
  | emptyRange _ => "empty version range"

def headline (d : Diagnostic) : String :=
  let report := d.category ++ " error: " ++ d.summary
  match d.loc? with
  | some loc => loc.label ++ ": " ++ report
  | none => report

/-- The full report; that of a lexical error quotes its line. -/
def message (d : Diagnostic) : String :=
  match d with
  | lexical e => d.headline ++ "\n" ++ e.excerpt
  | _ => d.headline

end Diagnostic

/-! ## Failures -/

/-- Why no answer can be given: a diagnostic, or a number beyond a limit. -/
inductive Failure
  | diagnostic (d : Diagnostic)
  | limit (x : Excess)
  deriving DecidableEq

/-- The failure of an error in a version or a range that a condition at a place refers to. -/
def Failure.ofVersion (loc : Option Location) : VersionError → Failure
  | .illegal text => .diagnostic (.illegalVersion loc text)
  | .emptyRange => .diagnostic (.emptyRange loc)
  | .digits count => .limit (.numeral count)

end HashIf
