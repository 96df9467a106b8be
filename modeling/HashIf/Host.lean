/-! What a run of the program asks of the system around it: to read and to write files. -/

namespace HashIf

inductive FileError
  | notFound
  | notDirectory
  | isDirectory
  | other (reason : String)
  deriving DecidableEq

def FileError.message : FileError → String
  | notFound => "No such file or directory"
  | notDirectory => "Not a directory"
  | isDirectory => "Is a directory"
  | other reason => reason

/-- A system with files, the actions of which take place in `m`. -/
structure Host (m : Type → Type) where
  readFile (path : String) : m (Except FileError (List UInt8))
  writeFile (path text : String) : m (Except FileError Unit)

end HashIf
