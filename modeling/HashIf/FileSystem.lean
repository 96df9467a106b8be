import HashIf.Host

/-! A file system in memory: directories and files by path, and how a path is resolved. A run of the
program on it is a function of the file system. -/

namespace HashIf

inductive Node
  | directory
  | file (bytes : List UInt8)

/-- Directories and files by the names that lead to them from the root. -/
structure FileSystem where
  workingDirectory : List String
  directories : List (List String)
  files : List (List String × List UInt8)

namespace FileSystem

def node? (fs : FileSystem) (names : List String) : Option Node :=
  if names = [] ∨ names ∈ fs.directories then some .directory
  else (fs.files.lookup names).map .file

/-! ## Paths -/

def origin (fs : FileSystem) (path : String) : List String :=
  if path.startsWith "/" then [] else fs.workingDirectory

/-- One name further from a directory. An empty name and a point stay there, and two points lead to
the directory above. -/
def enter (names : List String) (name : String) : List String :=
  if name = "" ∨ name = "." then names
  else if name = ".." then names.dropLast
  else names ++ [name]

/-- Follows names, in front of each of which a directory has to have been reached. -/
def walk (fs : FileSystem) (names : List String) : List String → Except FileError (List String)
  | [] => .ok names
  | name :: further =>
    match fs.node? names with
    | none => .error .notFound
    | some (.file _) => .error .notDirectory
    | some .directory => walk fs (enter names name) further

def read (fs : FileSystem) (path : String) : Except FileError (List UInt8) :=
  if path.isEmpty then .error .notFound
  else
    match fs.walk (fs.origin path) (path.splitOn "/") with
    | .error e => .error e
    | .ok names =>
      match fs.node? names with
      | none => .error .notFound
      | some .directory => .error .isDirectory
      | some (.file bytes) => .ok bytes

/-! ## Writing -/

/-- The files with new bytes for the one that names lead to. -/
def putFile (names : List String) (bytes : List UInt8) :
    List (List String × List UInt8) → List (List String × List UInt8)
  | [] => [(names, bytes)]
  | f :: fs => if f.1 = names then (names, bytes) :: fs else f :: putFile names bytes fs

/-- The names of the file that a path stands for, be it there or not. A path that ends in a slash
stands for a directory. -/
def target (fs : FileSystem) (path : String) : Except FileError (List String) :=
  if path.isEmpty then .error .notFound
  else
    match (path.splitOn "/").reverse.dropWhile (·.isEmpty) with
    | [] => .error .isDirectory
    | name :: above =>
      match fs.walk (fs.origin path) (above.reverse ++ [""]) with
      | .error e => .error e
      | .ok names =>
        if name = "." ∨ name = ".." ∨ path.endsWith "/" then .error .isDirectory
        else match fs.node? (names ++ [name]) with
          | some .directory => .error .isDirectory
          | _ => .ok (names ++ [name])

def write (fs : FileSystem) (path : String) (bytes : List UInt8) : Except FileError FileSystem :=
  match fs.target path with
  | .error e => .error e
  | .ok names => .ok { fs with files := putFile names bytes fs.files }

/-- The file system as the host of a run. -/
def host : Host (StateM FileSystem) where
  readFile path := fun fs =>
    match fs.read path with
    | .ok bytes => (.ok bytes, fs)
    | .error e => (.error e, fs)
  writeFile path text := fun fs =>
    match fs.write path text.toUTF8.toList with
    | .ok fs => (.ok (), fs)
    | .error e => (.error e, fs)

end FileSystem

end HashIf
