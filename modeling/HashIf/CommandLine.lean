import HashIf.Environment.Listing
import HashIf.Host
import HashIf.Preprocess
import HashIf.Text.Utf8

/-! The command line: its options, and what a run on a host reads, writes and reports. -/

namespace HashIf

/-! ## Options -/

/-- What the arguments ask for. -/
structure Options where
  source : Option String
  output : Option String
  definitions : Bindings
  listing : Bool

def Options.none : Options := ⟨.none, .none, .empty, false⟩

inductive UsageError
  | definition (e : BindingError)
  | missingArgument (option : String)
  | unknownOption (argument : String)
  | unexpectedArgument (argument : String)
  deriving DecidableEq

def usage : String :=
  "usage: python3 -m condcomp <file> [--define NAME[=VALUE] ...] [-o OUT] [--list-conditionals]\n"

def errorLine (text : String) : String := "error: " ++ text ++ "\n"

/-- The report of an error in the arguments, with the usage if it may help. -/
def UsageError.report : UsageError → String
  | definition e => errorLine e.message
  | missingArgument option => errorLine ("option " ++ option ++ " requires an argument")
  | unknownOption argument => errorLine ("unknown option " ++ quoted argument) ++ usage
  | unexpectedArgument argument => errorLine ("unexpected argument " ++ quoted argument) ++ usage

/-- What a list of arguments comes to. -/
inductive Invocation
  | options (o : Options)
  | version
  | error (e : UsageError)

/-- The argument is an option that takes the argument behind it. -/
def takesArgument (argument : String) : Bool :=
  argument = "--define" || argument = "-D" || argument = "-o"

def Options.withArgument (o : Options) (option argument : String) : Except BindingError Options :=
  if option = "-o" then .ok { o with output := some argument }
  else match parseDefinition argument with
    | .ok (name, raw) => .ok { o with definitions := o.definitions.insert name raw }
    | .error e => .error e

/-- Reads arguments in order, on top of the options read so far. -/
def Options.read (o : Options) : List String → Invocation
  | [] => .options o
  | option :: rest =>
    if takesArgument option then
      match rest with
      | [] => .error (.missingArgument option)
      | argument :: rest =>
        match o.withArgument option argument with
        | .ok o => o.read rest
        | .error e => .error (.definition e)
    else if option = "--list-conditionals" then Options.read { o with listing := true } rest
    else if option = "--version" then .version
    else if option.startsWith "-" then .error (.unknownOption option)
    else match o.source with
      | .none => Options.read { o with source := some option } rest
      | .some _ => .error (.unexpectedArgument option)

/-! ## Runs -/

/-- What a run comes to: what it writes to its output and to its error output, and its exit code. A
run in which a number goes beyond a limit breaks off with that number instead. -/
structure Report where
  stdout : String
  stderr : String
  outcome : Except Excess Nat

namespace Report

def success (stdout : String) : Report := ⟨stdout, "", .ok 0⟩

/-- A run that ends with an exit code and a message. -/
def failure (code : Nat) (stderr : String) : Report := ⟨"", stderr, .ok code⟩

/-- A run that breaks off before it writes anything. -/
def broken (x : Excess) : Report := ⟨"", "", .error x⟩

def after (stdout : String) (r : Report) : Report := { r with stdout := stdout ++ r.stdout }

/-- All that a run leaves on its error output, but for a trace of calls in front of the report with
which it breaks off. -/
def errors (r : Report) : String :=
  match r.outcome with
  | .ok _ => r.stderr
  | .error x => r.stderr ++ x.report

end Report

/-- The text of the bytes of a file, with line feeds for line ends. -/
def sourceText (bytes : List UInt8) : Except String String :=
  match Utf8.decode bytes with
  | .ok cs => .ok (String.ofList (lineFeeds cs))
  | .error n => .error ("not valid UTF-8 (byte " ++ toString n ++ ")")

section
variable {m : Type → Type} [Monad m] (host : Host m)

def deliver (output : Option String) (text : String) : m Report :=
  match output with
  | none => pure (.success text)
  | some path => do
    match ← host.writeFile path text with
    | .ok () => pure (.success "")
    | .error e =>
      pure (.failure 1 (errorLine ("cannot write " ++ path ++ ": " ++ e.message)))

/-- Filters the text of a source file and delivers what survives. -/
def process (env : Environment) (source : String) (output : Option String) (text : String) :
    m Report :=
  match preprocessText env source text with
  | .ok text => deliver host output text
  | .error (.diagnostic d) => pure (.failure 1 (d.message ++ "\n"))
  | .error (.limit x) => pure (.broken x)

def processFile (env : Environment) (source : String) (output : Option String) : m Report := do
  let refuse (reason : String) : Report :=
    .failure 1 (errorLine ("cannot read " ++ source ++ ": " ++ reason))
  match ← host.readFile source with
  | .error e => pure (refuse e.message)
  | .ok bytes =>
    match sourceText bytes with
    | .error reason => pure (refuse reason)
    | .ok text => process host env source output text

/-- Runs with options in an environment. The listing comes first, and a source is needed only
without it. -/
def runIn (env : Environment) (o : Options) : m Report :=
  match o.source, o.listing with
  | none, false => pure (.failure 2 usage)
  | none, true => pure (.success env.listing)
  | some source, false => processFile host env source o.output
  | some source, true => Report.after env.listing <$> processFile host env source o.output

/-- Runs with arguments. -/
def runCommand (platform : Platform) (arguments : List String) : m Report :=
  match Options.none.read arguments with
  | .version => pure (.success (compilerVersion ++ "\n"))
  | .error e => pure (.failure 2 e.report)
  | .options o =>
    match Environment.build (builtinBindings platform) o.definitions with
    | .ok env => runIn host env o
    | .error (.limit x) => pure (.broken x)
    | .error (.binding e) => pure (.failure 2 (errorLine e.message))

end

end HashIf
