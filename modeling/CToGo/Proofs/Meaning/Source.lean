import CToGo.Proofs.Meaning.Values
import CToGo.Requirements

/-!
# The meaning of source programs

A big-step semantics as an interpreter with fuel. A run ends with a status, is undefined or
runs out of fuel.

Integers have 32 bits, and what leads out of their range is undefined: an operation, a step, a
literal. So are a division by zero, a variable that is read before it has a value or that was
never declared, a second declaration in one block or of one function, a call with the wrong
number of arguments, a call of something that is no function, the use of the value of a call
that ended without one, and any operator on the vector of process arguments. A declared name
is in scope in its own initializer. Parameters share the block of the body. Types play no
other role.

* `evalExpr`, `runStmt`: expressions and statements; both may change variables.
* `run`: a whole program with given process arguments.
* `Program.Calls`: somewhere in the program a function is called.
-/

namespace CToGo.Source

/-- Why a run yields nothing. -/
inductive Halt where
  | undefined
  | outOfFuel
deriving DecidableEq, Inhabited, Repr

/-- The variables; a declared one need not have a value. -/
abbrev Env := Scopes (Option Datum)

/-- What is absent is undefined. -/
def defined {α : Type} : Option α → Except Halt α
  | some a => .ok a
  | none => .error .undefined

/-! ## Values -/

/-- Whether an integer has 32 bits. -/
def fits (n : Int) : Bool := decide (-2147483648 ≤ n ∧ n ≤ 2147483647)

/-- An integer as a value. -/
def represent (n : Int) : Except Halt Datum :=
  if fits n then .ok (.int n) else .error .undefined

/-- The value of a binary operation. A remainder is undefined where the quotient is. -/
def applyBinary (op : BinaryOp) : Datum → Datum → Except Halt Datum
  | .int a, .int b => do
    let n ← defined (op.compute? a b)
    if op = .mod ∧ ¬ fits (a.tdiv b) then .error .undefined else represent n
  | _, _ => .error .undefined

def applyNegate : Datum → Except Halt Datum
  | .int a => represent (-a)
  | .vector _ => .error .undefined

def readVariable (env : Env) (x : String) : Except Halt Datum :=
  match env.find? x with
  | some (some v) => .ok v
  | _ => .error .undefined

/-- The value that an assignment gives to its target. -/
def assigned (env : Env) (op : AssignOp) (x : String) (v : Datum) : Except Halt Datum :=
  match op.binary? with
  | none => .ok v
  | some op => do applyBinary op (← readVariable env x) v

/-- The value that a step gives to its target. -/
def stepped (op : UnaryOp) (v : Datum) : Except Halt Datum := do
  applyBinary (← defined op.step?) v (.int 1)

/-! ## Programs -/

mutual

/-- The value of an expression and the variables after its evaluation. -/
def evalExpr (p : Program) : Nat → Env → Expr → Except Halt (Datum × Env)
  | 0, _, _ => .error .outOfFuel
  | fuel + 1, env, e =>
    match e with
    | .literal value _ => do
      return (← represent value, env)
    | .ident x _ => do
      return (← readVariable env x, env)
    | .binary op left right _ => do
      let (u, env) ← evalExpr p fuel env left
      let (v, env) ← evalExpr p fuel env right
      return (← applyBinary op u v, env)
    | .unary .negate operand _ _ => do
      let (v, env) ← evalExpr p fuel env operand
      return (← applyNegate v, env)
    | .unary op operand fixity _ => do
      let x ← defined operand.name?
      let old ← readVariable env x
      let new ← stepped op old
      let env ← defined (env.assign? x (some new))
      return (if fixity = .leading then new else old, env)
    | .call f args _ => do
      let (result, env) ← callFunction p fuel env f args
      return (← defined result, env)
    | .assign op x value _ => do
      let (v, env) ← evalExpr p fuel env value
      let new ← assigned env op x v
      return (new, ← defined (env.assign? x (some new)))

def evalEach (p : Program) : Nat → Env → List Expr → Except Halt (List Datum × Env)
  | 0, _, _ => .error .outOfFuel
  | _ + 1, env, [] => .ok ([], env)
  | fuel + 1, env, e :: rest => do
    let (v, env) ← evalExpr p fuel env e
    let (vs, env) ← evalEach p fuel env rest
    return (v :: vs, env)

/-- The result of a call. A variable of the same name hides the function. -/
def callFunction (p : Program) :
    Nat → Env → String → List Expr → Except Halt (Option Datum × Env)
  | 0, _, _, _ => .error .outOfFuel
  | fuel + 1, env, f, args => do
    if (env.find? f).isSome then .error .undefined
    else
      let function ← defined (p.find? f)
      let (vs, env) ← evalEach p fuel env args
      let frame ← defined
        (Scopes.declareAll? (function.params.map (·.name)) (vs.map some) [[]])
      return ((← runAll p fuel frame function.body.stmts).result, env)

def runStmt (p : Program) : Nat → Env → Stmt → Except Halt (Flow Env)
  | 0, _, _ => .error .outOfFuel
  | fuel + 1, env, s =>
    match s with
    | .declare x _ none _ => do
      return .next (← defined (env.declare? x none))
    | .declare x _ (some init) _ => do
      let env ← defined (env.declare? x none)
      let (v, env) ← evalExpr p fuel env init
      return .next (← defined (env.assign? x (some v)))
    | .eval (.call f args _) _ => do
      -- the value, if there is one, is not used
      let (_, env) ← callFunction p fuel env f args
      return .next env
    | .eval e _ => do
      let (_, env) ← evalExpr p fuel env e
      return .next env
    | .branch condition thenBlock elseBranch _ => do
      let (v, env) ← evalExpr p fuel env condition
      if v.isTrue then return (← runAll p fuel ([] :: env) thenBlock.stmts).close
      else runElse p fuel env elseBranch
    | .loop condition body span => do
      let (v, env) ← evalExpr p fuel env condition
      if v.isTrue then
        (← runAll p fuel ([] :: env) body.stmts).close.andThen fun env =>
          runStmt p fuel env (.loop condition body span)
      else return .next env
    | .leave none _ => return .leave none
    | .leave (some value) _ => do
      let (v, _) ← evalExpr p fuel env value
      return .leave (some v)
    | .block body _ => do
      return (← runAll p fuel ([] :: env) body.stmts).close

/-- Runs what follows the first alternative of a branch. -/
def runElse (p : Program) : Nat → Env → Else → Except Halt (Flow Env)
  | 0, _, _ => .error .outOfFuel
  | _ + 1, env, .none => .ok (.next env)
  | fuel + 1, env, .block body => do
    return (← runAll p fuel ([] :: env) body.stmts).close
  | fuel + 1, env, .chain next => do
    return (← runStmt p fuel ([] :: env) next).close

def runAll (p : Program) : Nat → Env → List Stmt → Except Halt (Flow Env)
  | 0, _, _ => .error .outOfFuel
  | _ + 1, env, [] => .ok (.next env)
  | fuel + 1, env, s :: rest => do
    (← runStmt p fuel env s).andThen fun env => runAll p fuel env rest

end

/-! ## One call of the interpreter

The equations with which proofs about runs open the definitions. -/

section

variable (p : Program) (fuel : Nat) (env : Env)

theorem evalExpr_step {op : UnaryOp} (hop : op ≠ .negate) (target : Expr) (fixity : Fixity)
    (span : Span) :
    evalExpr p (fuel + 1) env (.unary op target fixity span) = (do
      let x ← defined target.name?
      let old ← readVariable env x
      let new ← stepped op old
      let env ← defined (env.assign? x (some new))
      return (if fixity = .leading then new else old, env)) := by
  cases op with
  | negate => exact absurd rfl hop
  | increment => rfl
  | decrement => rfl

theorem callFunction_succ (f : String) (args : List Expr) :
    callFunction p (fuel + 1) env f args = (do
      if (env.find? f).isSome then .error .undefined
      else
        let function ← defined (p.find? f)
        let (vs, env) ← evalEach p fuel env args
        let frame ← defined
          (Scopes.declareAll? (function.params.map (·.name)) (vs.map some) [[]])
        return ((← runAll p fuel frame function.body.stmts).result, env)) := rfl

end

/-! ## Runs -/

/-- The values of the parameters of `main`. -/
def entryValues (args : List String) : EntryForm → Except Halt (List Datum)
  | .plain => .ok []
  | .arguments .. => do
    return [← represent args.length, .vector args]

/-- The status with which a program ends; without a value it is zero. -/
def run (p : Program) (args : List String) (fuel : Nat) : Except Halt Int := do
  if ¬ (p.functions.map (·.name)).Nodup then .error .undefined
  else
    let main ← defined p.main?
    let values ← entryValues args (← defined (EntryForm.of? main))
    let frame ← defined
      (Scopes.declareAll? (main.params.map (·.name)) (values.map some) [[]])
    match (← runAll p fuel frame main.body.stmts).result with
    | none => return 0
    | some (.int status) => return status
    | some (.vector _) => .error .undefined

/-! ## Calls -/

mutual

/-- The names of the functions that an expression calls. -/
def Expr.callees : Expr → List String
  | .literal .. | .ident .. => []
  | .binary _ left right _ => left.callees ++ right.callees
  | .unary _ operand _ _ => operand.callees
  | .call callee args _ => callee :: calleesOfEach args
  | .assign _ _ value _ => value.callees

def calleesOfEach : List Expr → List String
  | [] => []
  | e :: rest => e.callees ++ calleesOfEach rest

end

/-- The names of the functions that a statement calls, not counting nested statements. -/
def Stmt.callees : Stmt → List String
  | .declare _ _ init _ => init.elim [] Expr.callees
  | .eval e _ => e.callees
  | .branch condition _ _ _ => condition.callees
  | .loop condition _ _ => condition.callees
  | .leave value _ => value.elim [] Expr.callees
  | .block _ _ => []

/-- Somewhere in the program the function is called. -/
def Program.Calls (p : Program) (f : String) : Prop :=
  ∃ g ∈ p.functions, ∃ s ∈ g.body.walk, f ∈ s.callees

instance (p : Program) (f : String) : Decidable (p.Calls f) :=
  inferInstanceAs (Decidable (∃ g ∈ p.functions, ∃ s ∈ g.body.walk, f ∈ s.callees))

end CToGo.Source
