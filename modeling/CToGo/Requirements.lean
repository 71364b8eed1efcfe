import CToGo.Source.Tree

/-!
# Requirements

A compiled program may need services of the target's standard library. Which ones is decided
by rules that look at the source program; each rule that holds asks for one service.

* `EntryForm.of?`: the two parameter lists that `main` may have.
* `Requirements`: a set of services and the packages that provide them.
* `requirements`: the services that a list of rules asks for.
-/

namespace CToGo

open Source (Function Program Ty)

/-! ## Services -/

/-- A service of the target's standard library. -/
inductive Service where
  /-- The vector of process arguments. -/
  | processArguments
  /-- The end of the process with a status. -/
  | processExit
deriving DecidableEq, Inhabited, Repr

namespace Service

def all : List Service := [processArguments, processExit]

theorem mem_all (f : Service) : f ∈ all := by
  cases f <;> decide

def name : Service → String
  | processArguments => "process-arguments"
  | processExit => "process-exit"

/-- The package that provides a service. -/
def package : Service → String
  | processArguments | processExit => "os"

def ofName? (name : String) : Option Service := all.find? (·.name == name)

end Service

/-- A set of services, given by its members. -/
structure Requirements where
  contains : Service → Bool

namespace Requirements

def empty : Requirements := ⟨fun _ => false⟩

/-- The set with one more member. -/
def insert (s : Requirements) (f : Service) : Requirements := ⟨fun g => g == f || s.contains g⟩

/-- The set of the members of a list. -/
def ofList (fs : List Service) : Requirements := fs.foldl insert empty

def toList (s : Requirements) : List Service := Service.all.filter s.contains

@[simp] theorem contains_insert (s : Requirements) (f g : Service) :
    (s.insert f).contains g = (g == f || s.contains g) := rfl

@[simp] theorem mem_toList {s : Requirements} {f : Service} : f ∈ s.toList ↔ s.contains f := by
  simp [toList, Service.mem_all]

/-- The packages that provide the members, each once and in increasing order. -/
def packages (s : Requirements) : List String :=
  ((s.toList.map Service.package).eraseDups).mergeSort fun a b => decide (a ≤ b)

end Requirements

/-! ## The parameters of main -/

/-- The parameter lists that `main` may have. -/
inductive EntryForm where
  /-- No parameters. -/
  | plain
  /-- The number of process arguments and the vector of them, by whatever names. -/
  | arguments (count vector : String)
deriving DecidableEq, Inhabited, Repr

/-- The form of a function that is taken for `main`; none if its parameters fit neither. -/
def EntryForm.of? (f : Function) : Option EntryForm :=
  match f.params with
  | [] => some .plain
  | [count, vector] =>
    if count.type = .int ∧ vector.type.isArgumentVector then
      some (.arguments count.name vector.name)
    else none
  | _ => none

/-! ## Rules -/

/-- The conditions under which a program needs a service. -/
inductive Rule where
  /-- `main` takes the process arguments. -/
  | argumentVector
  /-- Somewhere in `main` a value is returned. -/
  | mainExit
deriving DecidableEq, Inhabited, Repr

namespace Rule

def name : Rule → String
  | argumentVector => "argument-vector"
  | mainExit => "main-exit"

/-- The service that a rule asks for. -/
def service : Rule → Service
  | argumentVector => .processArguments
  | mainExit => .processExit

/-- The rules that are used unless others are asked for. -/
def standard : List Rule := [argumentVector, mainExit]

def ofName? (name : String) : Option Rule := standard.find? (·.name == name)

/-- Whether the rule holds of a program whose function `main` is given. -/
def holdsOfMain : Rule → Function → Bool
  | argumentVector, f =>
    match EntryForm.of? f with
    | some (.arguments ..) => true
    | _ => false
  | mainExit, f => f.body.walk.any (·.leavesWithValue)

/-- Whether the rule holds of a program. -/
def holds (r : Rule) (p : Program) : Bool := p.main?.any r.holdsOfMain

end Rule

/-- The services that the rules ask for. -/
def requirements (rules : List Rule) (p : Program) : Requirements :=
  .ofList ((rules.filter (·.holds p)).map (·.service))

end CToGo
