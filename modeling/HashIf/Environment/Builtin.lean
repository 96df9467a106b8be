import HashIf.Environment.Bindings

/-! The bindings that every run starts from: the versions of the compiler and its dialect, and the
platform that it runs on. -/

namespace HashIf

def compilerVersion : String := "0.3.0"

inductive OsType
  | unix
  | win32
  | cygwin
  deriving DecidableEq

namespace OsType

def name : OsType → String
  | unix => "Unix"
  | win32 => "Win32"
  | cygwin => "Cygwin"

/-- The kind of the operating system of a named platform. -/
def ofPlatform (platform : String) : OsType :=
  if platform = "win32" then win32 else if platform = "cygwin" then cygwin else unix

end OsType

/-- What is known of the machine that a program is compiled on. -/
structure Platform where
  osType : OsType := .unix
  wordSize : Nat := 64
  bigEndian : Bool := false

/-- The bindings that describe the compiler and a platform. -/
def builtinBindings (p : Platform) : Bindings :=
  .ofList [("BS", "true"), ("BS_VERSION", compilerVersion), ("OCAML_VERSION", "4.06.1"),
    ("OCAML_PATCH", "BS"), ("OS_TYPE", p.osType.name), ("WORD_SIZE", toString p.wordSize),
    ("BIG_ENDIAN", if p.bigEndian then "true" else "false")]

end HashIf
