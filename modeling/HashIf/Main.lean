import HashIf.CommandLine

/-! The program: the command line on the files of the machine. -/

namespace HashIf

def fileError : IO.Error → FileError
  | .noFileOrDirectory .. => .notFound
  | .inappropriateType _ _ details =>
    if details.toLower = "is a directory" then .isDirectory else .notDirectory
  | .permissionDenied .. => .other "Permission denied"
  | e => .other (toString e)

def systemHost : Host IO where
  readFile path := do
    try
      return .ok (← IO.FS.readBinFile path).toList
    catch e => return .error (fileError e)
  writeFile path text := do
    try
      IO.FS.writeFile path text
      return .ok ()
    catch e => return .error (fileError e)

end HashIf

open HashIf in
/-- Runs the command line and shows its report. -/
def main (arguments : List String) : IO UInt32 := do
  let report ← runCommand systemHost {} arguments
  (← IO.getStdout).putStr report.stdout
  (← IO.getStderr).putStr report.errors
  match report.outcome with
  | .ok code => return code.toUInt32
  | .error _ => return 1
