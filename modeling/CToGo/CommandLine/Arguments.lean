/-!
# Arguments of the command line

The program is called with the name of a command and its options. An option has a long
form, whose value follows it or an equals sign, and some have a short form as well, whose
value may also follow without anything in between. No option may be given twice. What
follows two dashes is never an option.

* `readArguments`: the request that a list of arguments makes.
-/

namespace CToGo.CommandLine

/-! ## Requests -/

/-- Compile one file. -/
structure CompileRequest where
  input : String
  /-- Where the result goes, if not to the standard output. -/
  output : Option String
  /-- Whether the tree of the program is printed first. -/
  printTree : Bool
  /-- Whether the tokens of the program are printed first. -/
  printTokens : Bool
deriving DecidableEq, Inhabited, Repr

/-- Process deliveries. -/
structure WorkRequest where
  /-- The file that holds the configuration, if there is one. -/
  config : Option String
  /-- The file that holds the deliveries, if they do not come from the standard input. -/
  jobs : Option String
deriving DecidableEq, Inhabited, Repr

/-- What the program is asked to do. -/
inductive Command where
  | compile (r : CompileRequest)
  | work (r : WorkRequest)
deriving DecidableEq, Inhabited, Repr

/-- A command and how much is to be logged about it. -/
structure Request where
  logLevel : Option String
  command : Command
deriving DecidableEq, Inhabited, Repr

/-- What a list of arguments makes the program do instead of obeying a request. -/
inductive Detour where
  /-- Explain how the program is called. -/
  | help
  /-- Say which version of the program this is. -/
  | version
  /-- Complain about the arguments. -/
  | misuse
deriving DecidableEq, Inhabited, Repr

/-! ## Options -/

/-- What an option is followed by. -/
inductive OptionValue where
  /-- Nothing. -/
  | none
  /-- A text. -/
  | text
  /-- A path, which must not be empty. -/
  | path
deriving DecidableEq, Inhabited, Repr

/-- The description of an option. -/
structure OptionSpec where
  long : String
  short : Option Char
  value : OptionValue
deriving DecidableEq, Inhabited, Repr

/-- How much is to be logged; every command has this option. -/
def logLevelOption : OptionSpec := ⟨"log-level", none, .text⟩

/-- The form of an argument. -/
inductive Argument where
  /-- Two dashes. -/
  | separator
  /-- An option by its long form, with what follows the first equals sign. -/
  | long (name : String) (value : Option String)
  /-- One dash and the characters behind it. -/
  | short (first : Char) (rest : List Char)
  /-- Anything else; a dash alone is no option. -/
  | word (text : String)
deriving DecidableEq, Inhabited, Repr

/-- The form of an argument, by the dashes that it begins with. -/
def Argument.of (text : String) : Argument :=
  match text.toList with
  | ['-', '-'] => separator
  | '-' :: '-' :: rest =>
    let name := rest.takeWhile (· != '=')
    long (String.ofList name)
      (if name.length < rest.length then some (String.ofList (rest.drop (name.length + 1)))
        else none)
  | '-' :: first :: rest => short first rest
  | _ => word text

/-- The options and operands that have been read. -/
structure Given where
  /-- The options by their long names; those without a value have an empty one. -/
  options : List (String × String)
  operands : List String
deriving DecidableEq, Inhabited, Repr

namespace Given

/-- Nothing has been read. -/
def nothing : Given := ⟨[], []⟩

/-- The value of an option, if it was given. -/
def value? (g : Given) (name : String) : Option String := g.options.lookup name

def addOption (g : Given) (spec : OptionSpec) (value : String) : Except Detour Given :=
  if (g.value? spec.long).isSome then .error .misuse
  else if spec.value = .path ∧ value = "" then .error .misuse
  else .ok { g with options := (spec.long, value) :: g.options }

/-- One more operand, of which there may be at most `limit`. All operands are paths. -/
def addOperand (limit : Nat) (g : Given) (operand : String) : Except Detour Given :=
  if g.operands.length < limit ∧ operand ≠ "" then
    .ok { g with operands := g.operands ++ [operand] }
  else .error .misuse

end Given

/-- The characters behind the short form of an option, without an equals sign before them. -/
def attached (rest : List Char) : String :=
  match rest with
  | '=' :: value => String.ofList value
  | value => String.ofList value

/-- Reads the options and operands of a command. -/
def readOptions (specs : List OptionSpec) (limit : Nat) (g : Given) :
    List String → Except Detour Given
  | [] => .ok g
  | argument :: rest =>
    let withNext (spec : OptionSpec) : Except Detour Given :=
      match rest with
      | [] => .error .misuse
      | value :: rest =>
        match Argument.of value with
        | .word value => do readOptions specs limit (← g.addOption spec value) rest
        | _ => .error .misuse
    match Argument.of argument with
    | .separator => rest.foldlM (Given.addOperand limit) g
    | .word operand => do readOptions specs limit (← g.addOperand limit operand) rest
    | .long "help" none => .error .help
    | .long name value =>
      match specs.find? (·.long == name), value with
      | none, _ => .error .misuse
      | some spec, none =>
        if spec.value = .none then do readOptions specs limit (← g.addOption spec "") rest
        else withNext spec
      | some spec, some value =>
        if spec.value = .none then .error .misuse
        else do readOptions specs limit (← g.addOption spec value) rest
    | .short 'h' _ => .error .help
    | .short first [] =>
      match specs.find? (·.short == some first) with
      | none => .error .misuse
      | some spec => withNext spec
    | .short first more =>
      match specs.find? (·.short == some first) with
      | none => .error .misuse
      | some spec => do readOptions specs limit (← g.addOption spec (attached more)) rest

/-! ## Commands -/

/-- The options of compiling a file. -/
def compileOptions : List OptionSpec :=
  [logLevelOption, ⟨"output", some 'o', .path⟩, ⟨"print-ast", none, .none⟩,
    ⟨"print-tokens", none, .none⟩]

/-- The options of processing deliveries. -/
def workOptions : List OptionSpec :=
  [logLevelOption, ⟨"config", some 'c', .path⟩, ⟨"jobs", none, .path⟩]

/-- Reads the arguments behind the command to compile a file. -/
def readCompile (arguments : List String) : Except Detour Request := do
  let g ← readOptions compileOptions 1 .nothing arguments
  match g.operands with
  | [input] =>
    return {
      logLevel := g.value? "log-level"
      command := .compile {
        input
        output := g.value? "output"
        printTree := (g.value? "print-ast").isSome
        printTokens := (g.value? "print-tokens").isSome } }
  | _ => .error .misuse

/-- Reads the arguments behind the command to process deliveries. -/
def readWork (arguments : List String) : Except Detour Request := do
  let g ← readOptions workOptions 0 .nothing arguments
  return {
    logLevel := g.value? "log-level"
    command := .work { config := g.value? "config", jobs := g.value? "jobs" } }

/-- Reads the arguments behind the command to explain a command. -/
def readHelp : List String → Detour
  | [] => .help
  | [command] => if command ∈ ["translate", "worker", "help"] then .help else .misuse
  | _ => .misuse

/-- Reads a command and the arguments behind it. -/
def readCommand (command : String) (arguments : List String) : Except Detour Request :=
  match command with
  | "translate" => readCompile arguments
  | "worker" => readWork arguments
  | "help" => .error (readHelp arguments)
  | _ => .error .misuse

/-- A request, with the log level that was given before the command unless the command has
one of its own. -/
def Request.orLevel (r : Request) (level : Option String) : Request :=
  { r with logLevel := r.logLevel.or level }

/-- Reads the arguments when the log level `level` has been given before them. -/
def readFrom (level : Option String) : List String → Except Detour Request
  | [] => .error .misuse
  | argument :: rest =>
    match Argument.of argument with
    | .separator => .error .misuse
    | .word command => do return (← readCommand command rest).orLevel level
    | .long "help" none => .error .help
    | .long "version" none => .error .version
    | .long "log-level" (some value) =>
      if level.isSome then .error .misuse else readFrom (some value) rest
    | .long "log-level" none =>
      match rest with
      | [] => .error .misuse
      | value :: rest =>
        match Argument.of value with
        | .word value => if level.isSome then .error .misuse else readFrom (some value) rest
        | _ => .error .misuse
    | .long _ _ => .error .misuse
    | .short 'h' _ => .error .help
    | .short 'V' _ => .error .version
    | .short _ _ => .error .misuse

/-- The request that a list of arguments makes. -/
def readArguments (arguments : List String) : Except Detour Request := readFrom none arguments

end CToGo.CommandLine
