import CToGo.Files.Tree
import CToGo.Json.Record

/-!
# Configurations

Where jobs are found, where their results go, and which of their artifacts are sources.

* `Config.isSource`, `Config.targetName`: the sources among the artifacts, and the names of
  what they are compiled to.
* `Config.load`: the configuration in a file.
-/

namespace CToGo.Job

/-- The configuration of a worker. -/
structure Config where
  /-- The directory that holds the artifacts of each job in a directory of its own. -/
  inputRoot : String := "jobs"
  /-- The directory that receives the results of each job in a directory of its own. -/
  outputRoot : String := "remixed"
  /-- The extension of sources, without the dot. -/
  sourceExtension : String := "c"
  /-- The extension of compiled sources, without the dot. -/
  targetExtension : String := "go"
  logLevel : Option String := none
deriving DecidableEq, Inhabited, Repr

/-- What precedes `suffix` in a text that ends with it. -/
def stem? (suffix text : List Char) : Option (List Char) :=
  if suffix.isSuffixOf text then some (text.take (text.length - suffix.length)) else none

namespace Config

/-- Whether an artifact is a source: something, a dot, and the extension. -/
def isSource (config : Config) (artifact : String) : Bool :=
  match stem? config.sourceExtension.toList artifact.toList with
  | some stem => stem.getLast? == some '.' && decide (1 < stem.length)
  | none => false

/-- The name of the target of an artifact: the extension of a source is exchanged, and any
other name is extended. -/
def targetName (config : Config) (artifact : String) : String :=
  let stem := (stem? config.sourceExtension.toList artifact.toList).bind (stem? ['.'])
  String.ofList (stem.getD artifact.toList) ++ "." ++ config.targetExtension

/-- The names of the fields, in the order in which a list of them is read. -/
def fieldNames : List String :=
  ["input_root", "output_root", "source_extension", "target_extension", "log_level"]

/-- The configuration that a JSON text describes; what it leaves out has its default. -/
def read? (text : String) : Option Config := do
  let fields ← (← Json.read? text).record? fieldNames
  let standard : Config := {}
  return {
    inputRoot := ← Json.textOr? fields "input_root" standard.inputRoot
    outputRoot := ← Json.textOr? fields "output_root" standard.outputRoot
    sourceExtension := ← Json.textOr? fields "source_extension" standard.sourceExtension
    targetExtension := ← Json.textOr? fields "target_extension" standard.targetExtension
    logLevel := ← Json.nullable? fields "log_level" }

end Config

/-- Why there is no configuration at a path. -/
inductive ConfigError where
  /-- The file cannot be read. -/
  | reading (path : String) (cause : FileError)
  /-- The file does not describe a configuration. -/
  | parsing (path : String)
deriving DecidableEq, Inhabited, Repr

namespace ConfigError

/-- What failed. -/
def summary : ConfigError → String
  | reading path _ => "reading config " ++ path
  | parsing path => "parsing config " ++ path

/-- What failed, and why as far as it is known. -/
def message : ConfigError → String
  | reading path cause => "reading config " ++ path ++ ": " ++ cause.message
  | parsing path => "parsing config " ++ path

end ConfigError

/-- The configuration in a file. -/
def Config.load (files : Files.FileTree) (path : String) : Except ConfigError Config :=
  match files.readText path with
  | .error e => .error (.reading path e)
  | .ok text =>
    match Config.read? text with
    | some config => .ok config
    | none => .error (.parsing path)

end CToGo.Job
