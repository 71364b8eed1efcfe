import CToGo.Proofs.Meaning.Values
import CToGo.Target.Tree
import Mathlib.Algebra.Group.Nat.Defs

/-!
# The meaning of target programs

A big-step semantics as an interpreter with fuel. A run ends with a status, fails or runs out
of fuel.

Integers have 64 bits and wrap around. A variable is in scope only behind its declaration, and
a variable hides the function or the package of the same name. Of the packages only `os` is
known, with the vector of process arguments and the exit, which ends the whole run; it has to
be imported. Of the functions that need no definition only `len` is known. Everything that the
language forbids is a fault.

* `evalExpr`, `runStmt`: expressions and statements; only statements change variables.
* `run`: a whole file with given process arguments.
-/

namespace CToGo.Target

/-- Why the run of a part of a program comes to an end before its time. -/
inductive Halt where
  | fault
  /-- The process has ended with a status. -/
  | exit (status : Int)
  | outOfFuel
deriving DecidableEq, Inhabited, Repr

/-- The variables. -/
abbrev Env := Scopes Datum

/-- What is absent is a fault. -/
def expect {α : Type} : Option α → Except Halt α
  | some a => .ok a
  | none => .error .fault

/-! ## Values -/

/-- An integer modulo `2 ^ 64`, as a value. -/
def wrap (n : Int) : Datum := .int (n.bmod (2 ^ 64))

/-- The value of a literal, which must have 64 bits. -/
def literalValue (n : Int) : Except Halt Datum :=
  if n.bmod (2 ^ 64) = n then .ok (.int n) else .error .fault

def applyBinary (op : BinaryOp) : Datum → Datum → Except Halt Datum
  | .int a, .int b => do
    return wrap (← expect (op.compute? a b))
  | _, _ => .error .fault

def applyNegate : Datum → Except Halt Datum
  | .int a => .ok (wrap (-a))
  | .vector _ => .error .fault

def readVariable (env : Env) (x : String) : Except Halt Datum := expect (env.find? x)

def assigned (env : Env) (op : AssignOp) (x : String) (v : Datum) : Except Halt Datum :=
  match op.binary? with
  | none => .ok v
  | some op => do applyBinary op (← readVariable env x) v

def stepped (op : UnaryOp) (v : Datum) : Except Halt Datum := do
  applyBinary (← expect op.step?) v (.int 1)

/-- The result of a function that needs no definition. -/
def callBuiltin (f : String) : List Datum → Except Halt (Option Datum)
  | [.vector args] => if f = "len" then .ok (some (wrap args.length)) else .error .fault
  | _ => .error .fault

/-- The exit from the process. -/
def exitProcess : List Datum → Except Halt (Option Datum)
  | [.int status] => .error (.exit status)
  | _ => .error .fault

/-- Whether a name stands for an imported package. -/
def File.sees (file : File) (env : Env) (package : String) : Bool :=
  decide (package ∈ file.imports) && (env.find? package).isNone

/-! ## Programs -/

mutual

/-- The value of an expression. -/
def evalExpr (file : File) (args : List String) : Nat → Env → Expr → Except Halt Datum
  | 0, _, _ => .error .outOfFuel
  | fuel + 1, env, e =>
    match e with
    | .literal value => literalValue value
    | .ident x => readVariable env x
    | .selector package name =>
      if file.sees env package ∧ package = "os" ∧ name = "Args" then .ok (.vector args)
      else .error .fault
    | .binary op left right => do
      let u ← evalExpr file args fuel env left
      let v ← evalExpr file args fuel env right
      applyBinary op u v
    | .unary .negate operand => do
      applyNegate (← evalExpr file args fuel env operand)
    | .unary _ _ => .error .fault
    | .call function es => do
      expect (← callFunction file args fuel env function es)

def evalEach (file : File) (args : List String) :
    Nat → Env → List Expr → Except Halt (List Datum)
  | 0, _, _ => .error .outOfFuel
  | _ + 1, _, [] => .ok []
  | fuel + 1, env, e :: rest => do
    let v ← evalExpr file args fuel env e
    let vs ← evalEach file args fuel env rest
    return v :: vs

/-- The result of a call. -/
def callFunction (file : File) (args : List String) :
    Nat → Env → Expr → List Expr → Except Halt (Option Datum)
  | 0, _, _, _ => .error .outOfFuel
  | fuel + 1, env, .ident f, es => do
    if (env.find? f).isSome then .error .fault
    else
      let vs ← evalEach file args fuel env es
      match file.functions.find? (·.name == f) with
      | some function =>
        let frame ← expect (Scopes.declareAll? (function.params.map (·.name)) vs [[]])
        return (← runAll file args fuel frame function.body).result
      | none => callBuiltin f vs
  | fuel + 1, env, .selector package name, es => do
    let vs ← evalEach file args fuel env es
    if file.sees env package ∧ package = "os" ∧ name = "Exit" then exitProcess vs
    else .error .fault
  | _ + 1, _, _, _ => .error .fault

def runStmt (file : File) (args : List String) : Nat → Env → Stmt → Except Halt (Flow Env)
  | 0, _, _ => .error .outOfFuel
  | fuel + 1, env, s =>
    match s with
    | .define x value => do
      let v ← evalExpr file args fuel env value
      return .next (← expect (env.declare? x v))
    | .declare x _ => do
      return .next (← expect (env.declare? x (.int 0)))
    | .assign x op value => do
      let v ← evalExpr file args fuel env value
      return .next (← expect (env.assign? x (← assigned env op x v)))
    | .step x op => do
      let v ← stepped op (← readVariable env x)
      return .next (← expect (env.assign? x v))
    | .eval (.call function es) => do
      let _ ← callFunction file args fuel env function es
      return .next env
    | .eval _ => .error .fault
    | .branch condition thenBody elseBranch => do
      let v ← evalExpr file args fuel env condition
      if v.isTrue then return (← runAll file args fuel ([] :: env) thenBody).close
      else runElse file args fuel env elseBranch
    | .loop condition body => do
      let v ← evalExpr file args fuel env condition
      if v.isTrue then
        (← runAll file args fuel ([] :: env) body).close.andThen fun env =>
          runStmt file args fuel env (.loop condition body)
      else return .next env
    | .leave none => return .leave none
    | .leave (some value) => do
      return .leave (some (← evalExpr file args fuel env value))
    | .block body => do
      return (← runAll file args fuel ([] :: env) body).close

/-- Runs what follows the first alternative of a branch. -/
def runElse (file : File) (args : List String) : Nat → Env → Else → Except Halt (Flow Env)
  | 0, _, _ => .error .outOfFuel
  | _ + 1, env, .none => .ok (.next env)
  | fuel + 1, env, .block body => do
    return (← runAll file args fuel ([] :: env) body).close
  | fuel + 1, env, .chain next => do
    return (← runStmt file args fuel ([] :: env) next).close

def runAll (file : File) (args : List String) :
    Nat → Env → List Stmt → Except Halt (Flow Env)
  | 0, _, _ => .error .outOfFuel
  | _ + 1, env, [] => .ok (.next env)
  | fuel + 1, env, s :: rest => do
    (← runStmt file args fuel env s).andThen fun env => runAll file args fuel env rest

end

/-! ## One call of the interpreter

The equations with which proofs about runs open the definitions. -/

section

variable (file : File) (args : List String) (fuel : Nat) (env : Env)

theorem evalExpr_selector (package name : String) :
    evalExpr file args (fuel + 1) env (.selector package name) =
      if file.sees env package ∧ package = "os" ∧ name = "Args" then .ok (.vector args)
      else .error .fault := rfl

theorem evalExpr_binary (op : BinaryOp) (left right : Expr) :
    evalExpr file args (fuel + 1) env (.binary op left right) = (do
      let u ← evalExpr file args fuel env left
      let v ← evalExpr file args fuel env right
      applyBinary op u v) := rfl

theorem evalExpr_negate (operand : Expr) :
    evalExpr file args (fuel + 1) env (.unary .negate operand) = (do
      applyNegate (← evalExpr file args fuel env operand)) := rfl

theorem evalExpr_call (function : Expr) (es : List Expr) :
    evalExpr file args (fuel + 1) env (.call function es) = (do
      expect (← callFunction file args fuel env function es)) := rfl

theorem evalEach_cons (e : Expr) (rest : List Expr) :
    evalEach file args (fuel + 1) env (e :: rest) = (do
      let v ← evalExpr file args fuel env e
      let vs ← evalEach file args fuel env rest
      return v :: vs) := rfl

theorem callFunction_ident (f : String) (es : List Expr) :
    callFunction file args (fuel + 1) env (.ident f) es = (do
      if (env.find? f).isSome then .error .fault
      else
        let vs ← evalEach file args fuel env es
        match file.functions.find? (·.name == f) with
        | some function =>
          let frame ← expect (Scopes.declareAll? (function.params.map (·.name)) vs [[]])
          return (← runAll file args fuel frame function.body).result
        | none => callBuiltin f vs) := rfl

theorem callFunction_selector (package name : String) (es : List Expr) :
    callFunction file args (fuel + 1) env (.selector package name) es = (do
      let vs ← evalEach file args fuel env es
      if file.sees env package ∧ package = "os" ∧ name = "Exit" then exitProcess vs
      else .error .fault) := rfl

theorem runStmt_define (x : String) (value : Expr) :
    runStmt file args (fuel + 1) env (.define x value) = (do
      let v ← evalExpr file args fuel env value
      return .next (← expect (env.declare? x v))) := rfl

theorem runStmt_declare (x : String) (ty : Ty) :
    runStmt file args (fuel + 1) env (.declare x ty) = (do
      return .next (← expect (env.declare? x (.int 0)))) := rfl

theorem runStmt_assign (x : String) (op : AssignOp) (value : Expr) :
    runStmt file args (fuel + 1) env (.assign x op value) = (do
      let v ← evalExpr file args fuel env value
      return .next (← expect (env.assign? x (← assigned env op x v)))) := rfl

theorem runStmt_step (x : String) (op : UnaryOp) :
    runStmt file args (fuel + 1) env (.step x op) = (do
      let v ← stepped op (← readVariable env x)
      return .next (← expect (env.assign? x v))) := rfl

theorem runStmt_call (function : Expr) (es : List Expr) :
    runStmt file args (fuel + 1) env (.eval (.call function es)) = (do
      let _ ← callFunction file args fuel env function es
      return .next env) := rfl

theorem runStmt_branch (condition : Expr) (thenBody : List Stmt) (elseBranch : Else) :
    runStmt file args (fuel + 1) env (.branch condition thenBody elseBranch) = (do
      let v ← evalExpr file args fuel env condition
      if v.isTrue then return (← runAll file args fuel ([] :: env) thenBody).close
      else runElse file args fuel env elseBranch) := rfl

theorem runStmt_loop (condition : Expr) (body : List Stmt) :
    runStmt file args (fuel + 1) env (.loop condition body) = (do
      let v ← evalExpr file args fuel env condition
      if v.isTrue then
        (← runAll file args fuel ([] :: env) body).close.andThen fun env =>
          runStmt file args fuel env (.loop condition body)
      else return .next env) := rfl

theorem runStmt_leaveWith (value : Expr) :
    runStmt file args (fuel + 1) env (.leave (some value)) = (do
      return .leave (some (← evalExpr file args fuel env value))) := rfl

theorem runAll_cons (s : Stmt) (rest : List Stmt) :
    runAll file args (fuel + 1) env (s :: rest) = (do
      (← runStmt file args fuel env s).andThen fun env => runAll file args fuel env rest) := rfl

end

/-! ## Runs -/

/-- Whether no two functions share a name and none has the name of an imported package. -/
def File.isConsistent (file : File) : Bool :=
  let names := file.functions.map (·.name)
  decide names.Nodup && names.all fun name => !file.imports.contains name

/-- The status with which a program ends: that of an exit, else zero. -/
def run (file : File) (args : List String) (fuel : Nat) : Except Halt Int :=
  match file.functions.find? (·.name == "main") with
  | some ⟨_, [], none, body⟩ =>
    if file.isConsistent then
      match runAll file args fuel [[]] body with
      | .ok flow => if flow.result.isNone then .ok 0 else .error .fault
      | .error (.exit status) => .ok status
      | .error halt => .error halt
    else .error .fault
  | _ => .error .fault

end CToGo.Target
