import HashIf.Source.Location
import HashIf.Text.Quoted

/-! Tokens: a kind, the text of the token and where it stands. -/

namespace HashIf

/-! ## Kinds -/

/-- The kind of a token. Operators and punctuation are symbols, whose kind is their own text. -/
inductive Kind
  | identifier
  | integer
  | float
  | string
  | character
  | hashWord
  | thenWord
  | trueWord
  | falseWord
  | definedWord
  | undefinedWord
  | newline
  | eof
  | symbol (text : String)
  deriving DecidableEq

namespace Kind

def name : Kind → String
  | identifier => "IDENT"
  | integer => "INT"
  | float => "FLOAT"
  | string => "STRING"
  | character => "CHAR"
  | hashWord => "HASH_WORD"
  | thenWord => "KW_THEN"
  | trueWord => "KW_TRUE"
  | falseWord => "KW_FALSE"
  | definedWord => "KW_DEFINED"
  | undefinedWord => "KW_UNDEFINED"
  | newline => "NEWLINE"
  | eof => "EOF"
  | symbol text => text

/-- The kind with a name; a name that no other kind has is that of a symbol. -/
def ofName (s : String) : Kind :=
  match s with
  | "IDENT" => identifier
  | "INT" => integer
  | "FLOAT" => float
  | "STRING" => string
  | "CHAR" => character
  | "HASH_WORD" => hashWord
  | "KW_THEN" => thenWord
  | "KW_TRUE" => trueWord
  | "KW_FALSE" => falseWord
  | "KW_DEFINED" => definedWord
  | "KW_UNDEFINED" => undefinedWord
  | "NEWLINE" => newline
  | "EOF" => eof
  | text => symbol text

theorem name_ofName (s : String) : (ofName s).name = s := by
  unfold ofName; split <;> rfl

/-- The kind of a word: a few words matter to conditions, and all others are identifiers. -/
def ofWord (s : String) : Kind :=
  match s with
  | "then" => thenWord
  | "true" => trueWord
  | "false" => falseWord
  | "defined" => definedWord
  | "undefined" => undefinedWord
  | _ => identifier

end Kind

/-! ## Tokens -/

structure Token where
  kind : Kind
  lexeme : String
  loc : Location
  deriving DecidableEq

namespace Token

/-- The line on which the token ends; a string may span several lines. -/
def lastLine (t : Token) : Int := t.loc.line + t.lexeme.toList.count '\n'

/-- The token on one line: kind, quoted text and place. -/
def description (t : Token) : String :=
  "Token(" ++ t.kind.name ++ ", " ++ quoted t.lexeme ++ ", " ++ t.loc.label ++ ")"

end Token

end HashIf
