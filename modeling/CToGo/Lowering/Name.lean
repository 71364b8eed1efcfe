import CToGo.Lowering.Refusal
import CToGo.Requirements

/-!
# Names in the target language

Names are kept, so a name that means something else in the target language is refused
wherever it is declared or used.
-/

namespace CToGo

open Source (Location)

def targetKeywords : List String :=
  ["break", "case", "chan", "const", "continue", "default", "defer", "else",
    "fallthrough", "for", "func", "go", "goto", "if", "import", "interface",
    "map", "package", "range", "return", "select", "struct", "switch", "type",
    "var"]

/-- What lowering has to know of the whole program. -/
structure Context where
  /-- The names of the functions that the program defines. -/
  functions : List String
  /-- The services that the compiled program uses. -/
  requirements : Requirements

namespace Context

/-- Why a name cannot be used, if so. -/
def reservedUse? (ctx : Context) (name : String) : Option ReservedUse :=
  if name ∈ targetKeywords then some .keyword
  else if name = "_" then some .blank
  else if name ∈ ctx.requirements.packages then some .importedPackage
  else none

/-- Why a function cannot have a name, if so. Its name lives beside those of the target
language itself. -/
def reservedFunctionUse? (ctx : Context) (name : String) : Option ReservedUse :=
  match ctx.reservedUse? name with
  | some use => some use
  | none =>
    if name = "init" then some .initializer
    else if name = "len" ∧ ctx.requirements.contains .processArguments then some .argumentCounter
    else none

/-- Refuses a name that cannot be used. -/
def checkName (ctx : Context) (name : String) (location : Location) : Lowered Unit :=
  match ctx.reservedUse? name with
  | some use => refuse (.reserved name use) location
  | none => .ok ()

/-- Refuses a name that no function can have. -/
def checkFunctionName (ctx : Context) (name : String) (location : Location) : Lowered Unit :=
  match ctx.reservedFunctionUse? name with
  | some use => refuse (.reserved name use) location
  | none => .ok ()

end Context

end CToGo
