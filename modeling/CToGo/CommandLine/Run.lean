import CToGo.CommandLine.Arguments
import CToGo.Job.Worker
import CToGo.Source.Dump

/-!
# Running the command line

A run takes arguments, the standard input and the files, and ends with a status, what it has
printed, and the files as they are then.

* `compileFile`, `work`: the two commands.
* `run`: the whole program.
-/

namespace CToGo.CommandLine

open Files (FileTree)

/-- Why a command fails. -/
inductive Failure where
  | reading (path : String) (cause : FileError)
  | writing (path : String) (cause : FileError)
  | opening (path : String) (cause : FileError)
  | config (cause : Job.ConfigError)
  | source (cause : Diagnostic)
  /-- The deliveries cannot be read to their end. -/
  | deliveries (cause : FileError)
deriving DecidableEq, Inhabited, Repr

def Failure.message : Failure → String
  | reading path cause => "reading " ++ path ++ ": " ++ cause.message
  | writing path cause => "writing " ++ path ++ ": " ++ cause.message
  | opening path cause => "opening " ++ path ++ ": " ++ cause.message
  | config cause => cause.message
  | source cause => cause.message
  | deliveries cause => cause.message

/-- What a command changes. -/
structure Session where
  files : FileTree
  /-- What has been printed so far. -/
  printed : String
deriving DecidableEq, Inhabited

/-- A command: it changes files, prints, and may fail. -/
abbrev Action := EStateM Failure Session

def printLine (line : String) : Action Unit :=
  modify fun s => { s with printed := s.printed ++ line ++ "\n" }

/-- Goes on with a result, or fails for the given reason. -/
def orFail {ε α : Type} (context : ε → Failure) : Except ε α → Action α
  | .ok a => pure a
  | .error e => throw (context e)

def writeFile (path : String) (contents : ByteArray) : Action Unit := fun s =>
  match FileTree.write path contents s.files with
  | .ok _ files => .ok () { s with files }
  | .error e files => .error (.writing path e) { s with files }

/-! ## Compiling a file -/

def printTokens (source : String) : Action Unit := do
  let tokens ← orFail .source
    ((Source.tokenize "<input>" source).mapError Source.LexicalError.toDiagnostic)
  tokens.forM fun t => printLine t.text

def printTree (file source : String) : Action Unit := do
  let program ← orFail .source (Source.parse file source)
  printLine (program.toValue.pretty 0)

def compileFile (r : CompileRequest) : Action Unit := do
  let source ← orFail (.reading r.input) ((← get).files.readText r.input)
  if r.printTokens then printTokens source
  if r.printTree then printTree r.input source
  let output ← orFail .source (compile Rule.standard r.input source)
  match r.output with
  | some path => writeFile path (output ++ "\n").toUTF8
  | none => printLine output

/-! ## Processing deliveries -/

/-- The stream of deliveries: a file if there is one, and else the standard input. A
directory can be opened, but not read. -/
def deliveries (jobs : Option String) (input : ByteArray) : Action ByteArray := do
  match jobs with
  | none => return input
  | some path =>
    match (← get).files.read path with
    | .ok contents => return contents
    | .error .isDirectory => throw (.deliveries .isDirectory)
    | .error e => throw (.opening path e)

/-- Processes deliveries and says whether all of them were accepted. -/
def work (r : WorkRequest) (input : ByteArray) : Action Bool := do
  let config ← match r.config with
    | some path => orFail .config (Job.Config.load (← get).files path)
    | none => pure {}
  let stream ← deliveries r.jobs input
  let worker : Job.Worker FileTree String := {
    config
    store := Job.Directories.store ⟨config.inputRoot, config.outputRoot⟩
    reporter := .lines }
  let s ← get
  let (result, after) := worker.run stream ⟨s.files, s.printed⟩
  set (⟨after.store, after.reporter⟩ : Session)
  let summary ← orFail .deliveries result
  return summary.nacked == 0

/-! ## The program -/

/-- How a run ends. -/
structure Result where
  status : Nat
  /-- What was printed on the standard output. -/
  output : String
  /-- What was printed on the standard error. -/
  errors : String
  files : FileTree
deriving DecidableEq, Inhabited

/-- The name of the program and its version. -/
def versionLine : String := "remix 0.1.0\n"

/-- Obeys a command and says whether all went well. -/
def obey (command : Command) (input : ByteArray) : Action Bool := do
  match command with
  | .compile r =>
    compileFile r
    return true
  | .work r => work r input

/-- Runs the program with the given arguments, standard input and files. -/
def run (arguments : List String) (input : ByteArray) (files : FileTree) : Result :=
  match readArguments arguments with
  | .error .help => ⟨0, "", "", files⟩
  | .error .version => ⟨0, versionLine, "", files⟩
  | .error .misuse => ⟨2, "", "", files⟩
  | .ok request =>
    match obey request.command input ⟨files, ""⟩ with
    | .ok good s => ⟨if good then 0 else 1, s.printed, "", s.files⟩
    | .error e s => ⟨1, s.printed, "Error: " ++ e.message ++ "\n", s.files⟩

end CToGo.CommandLine
