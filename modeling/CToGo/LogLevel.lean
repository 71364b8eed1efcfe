/-!
# Log levels

How much a run has to say about itself. A level may be asked for by name on the command line
or in a configuration; the command line wins.
-/

namespace CToGo

/-- The log levels, from silence to everything. -/
inductive LogLevel where
  | off | error | warn | info | debug | trace
deriving DecidableEq, Inhabited, Repr

namespace LogLevel

def name : LogLevel → String
  | off => "OFF"
  | error => "ERROR"
  | warn => "WARN"
  | info => "INFO"
  | debug => "DEBUG"
  | trace => "TRACE"

def all : List LogLevel := [off, error, warn, info, debug, trace]

/-- The level of the given name, in whatever case its letters are. -/
def ofName? (name : String) : Option LogLevel :=
  all.find? (·.name.toLower == name.toLower)

/-- The level that is asked for, if any, by the command line or else by the configuration.
Fails with a name that no level has. -/
def requested (flag config : Option String) : Except String (Option LogLevel) :=
  match flag.or config with
  | none => .ok none
  | some name =>
    match ofName? name with
    | some level => .ok (some level)
    | none => .error name

end LogLevel

end CToGo
