import CToGo.Diagnostic
import CToGo.Operator
import CToGo.Source.Tree

/-!
# Refusals

Not every source program has a counterpart in the target language. A refusal says which
construct has none, why, and where it stands.

* `Obstacle`: the causes, with their wording in `Obstacle.message`.
* `Lowered`: the outcome of an attempt.
-/

namespace CToGo

open Source (Location)

/-- Why a name cannot be used in the target language. -/
inductive ReservedUse where
  /-- It is a keyword. -/
  | keyword
  /-- It is the name that binds nothing. -/
  | blank
  /-- It is the name of an imported package. -/
  | importedPackage
  /-- A function of this name would initialise the package. -/
  | initializer
  /-- A function of this name would hide the one that counts the process arguments. -/
  | argumentCounter
deriving DecidableEq, Inhabited, Repr

def ReservedUse.text (name : String) : ReservedUse → String
  | keyword => "is a Go keyword"
  | blank => "is Go's blank identifier"
  | importedPackage => "shadows the imported " ++ name ++ " package"
  | initializer => "names Go's package initializer"
  | argumentCounter => "shadows the len builtin that counts os.Args"

/-- Why the signature of `main` was refused. -/
inductive MainFault where
  /-- The types of the parameters. -/
  | params (types : List Source.Ty)
  /-- The type of the result. -/
  | returns (type : Source.Ty)
deriving DecidableEq, Inhabited, Repr

/-- What was found instead of a proper signature. -/
def MainFault.text : MainFault → String
  | params types => ", ".intercalate (types.map Source.Ty.text)
  | returns type => "returning " ++ type.text

/-- Why an expression was refused where it stands. -/
inductive ExprFault where
  /-- An operator steps something that is no variable. -/
  | stepOf (op : UnaryOp) (description : String)
  /-- The expression has no effect and stands where only its effect counts. -/
  | asStatement (description : String)
  /-- The value of a stepping operator is used. -/
  | stepAsValue (op : UnaryOp)
  /-- The value of an assignment is used. -/
  | assignmentAsValue
deriving DecidableEq, Inhabited, Repr

def ExprFault.text : ExprFault → String
  | stepOf op description => op.text ++ " applied to a " ++ description
  | asStatement description => description ++ " used as a statement"
  | stepAsValue op => op.text ++ " used as a value"
  | assignmentAsValue => "assignment used as a value"

/-- What stands in the way of an image. -/
inductive Obstacle where
  | type (ty : Source.Ty)
  /-- A function is called that the program does not define. -/
  | builtin (name : String)
  | mainSignature (found : MainFault)
  | expression (fault : ExprFault)
  /-- There is a second `main`. -/
  | duplicateMain
  | reserved (name : String) (use : ReservedUse)
deriving DecidableEq, Inhabited, Repr

namespace Obstacle

/-- The kind of construct that was refused. -/
def construct : Obstacle → String
  | type _ => "type"
  | builtin _ => "builtin"
  | mainSignature _ => "main signature"
  | expression _ => "expression"
  | duplicateMain => "main declaration"
  | reserved .. => "identifier"

def message : Obstacle → String
  | type ty => "type '" ++ ty.text ++ "' has no Go equivalent"
  | builtin name => "builtin '" ++ name ++ "' has no Go equivalent"
  | mainSignature found =>
    "main must take no parameters or (int, char **), found (" ++ found.text ++ ")"
  | expression fault => fault.text
  | duplicateMain => "main is declared more than once"
  | reserved name use => "identifier '" ++ name ++ "' " ++ use.text name

end Obstacle

/-- An obstacle and the place of the refused construct. -/
structure Refusal where
  obstacle : Obstacle
  location : Location
deriving DecidableEq, Inhabited, Repr

/-- What the user is told of a refusal. -/
def Refusal.toDiagnostic (r : Refusal) : Diagnostic :=
  .lowering r.obstacle.construct r.obstacle.message r.location

/-- The outcome of lowering a part of a program. -/
abbrev Lowered := Except Refusal

def refuse {α : Type} (obstacle : Obstacle) (location : Location) : Lowered α :=
  .error ⟨obstacle, location⟩

end CToGo
