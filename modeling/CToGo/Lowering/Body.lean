import CToGo.Lowering.Name
import CToGo.Target.Tree

/-!
# Lowering the bodies of functions

Each type, expression and statement is mapped to its counterpart. In `main` a value that is
returned becomes the exit status of the process.

* `Source.Expr.lower`: an expression whose value is used.
* `Source.Expr.lowerEffect`: an expression that is evaluated for its effect.
* `Source.Stmt.lower`, `Source.Block.lower`: statements.
-/

namespace CToGo

open Source (Location)

/-! ## Types and expressions -/

/-- The image of a type. Only integers have one. -/
def Source.Ty.lower (ty : Source.Ty) (location : Location) : Lowered Target.Ty :=
  match ty with
  | .int => .ok .int
  | _ => refuse (.type ty) location

mutual

/-- The image of an expression whose value is used. -/
def Source.Expr.lower (ctx : Context) : Source.Expr → Lowered Target.Expr
  | .literal value _ => .ok (.literal value)
  | .ident name span => do
    ctx.checkName name span.start
    return .ident name
  | .binary op left right _ => do
    return .binary op (← left.lower ctx) (← right.lower ctx)
  | .unary .negate operand _ _ => do
    return .unary .negate (← operand.lower ctx)
  | .unary op _ _ span => refuse (.expression (.stepAsValue op)) span.start
  | .call callee args span =>
    if callee ∈ ctx.functions then do
      return .call (.ident callee) (← lowerEach ctx args)
    else refuse (.builtin callee) span.start
  | .assign _ _ _ span => refuse (.expression .assignmentAsValue) span.start

def lowerEach (ctx : Context) : List Source.Expr → Lowered (List Target.Expr)
  | [] => .ok []
  | e :: rest => do
    return (← e.lower ctx) :: (← lowerEach ctx rest)

end

/-- The image of an expression whose effect alone counts: an assignment, a step or a call. -/
def Source.Expr.lowerEffect (ctx : Context) (e : Source.Expr) : Lowered Target.Stmt :=
  match e with
  | .assign op target value span => do
    ctx.checkName target span.start
    return .assign target op (← value.lower ctx)
  | .unary .negate .. => refuse (.expression (.asStatement e.description)) e.span.start
  | .unary op operand _ _ =>
    match operand.name? with
    | some target => do
      ctx.checkName target operand.span.start
      return .step target op
    | none => refuse (.expression (.stepOf op operand.description)) operand.span.start
  | .call .. => do
    return .eval (← e.lower ctx)
  | _ => refuse (.expression (.asStatement e.description)) e.span.start

/-! ## Statements -/

/-- The end of the process with the given status. -/
def exitWith (status : Target.Expr) : Target.Stmt :=
  .eval (.call (.selector "os" "Exit") [status])

/-- The image of a `return`; in `main` a value becomes the exit status. -/
def lowerLeave (ctx : Context) (inMain : Bool) : Option Source.Expr → Lowered Target.Stmt
  | none => .ok (.leave none)
  | some value => do
    let value ← value.lower ctx
    return if inMain then exitWith value else .leave (some value)

def lowerDeclaration (ctx : Context) (name : String) (type : Source.Ty)
    (init : Option Source.Expr) (location : Location) : Lowered Target.Stmt := do
  let type ← type.lower location
  ctx.checkName name location
  match init with
  | some value => return .define name (← value.lower ctx)
  | none => return .declare name type

mutual

/-- The image of a statement. Of a branch the last alternative is lowered first. -/
def Source.Stmt.lower (ctx : Context) (inMain : Bool) : Source.Stmt → Lowered Target.Stmt
  | .declare name type init span => lowerDeclaration ctx name type init span.start
  | .eval e _ => e.lowerEffect ctx
  | .branch condition thenBlock elseBranch _ => do
    let elseBranch ← elseBranch.lower ctx inMain
    let condition ← condition.lower ctx
    let thenBody ← thenBlock.lower ctx inMain
    return .branch condition thenBody elseBranch
  | .loop condition body _ => do
    return .loop (← condition.lower ctx) (← body.lower ctx inMain)
  | .leave value _ => lowerLeave ctx inMain value
  | .block body _ => do
    return .block (← body.lower ctx inMain)

def Source.Block.lower (ctx : Context) (inMain : Bool) : Source.Block → Lowered (List Target.Stmt)
  | .mk stmts _ => lowerAll ctx inMain stmts

/-- The image of what follows the first alternative of a branch. -/
def Source.Else.lower (ctx : Context) (inMain : Bool) : Source.Else → Lowered Target.Else
  | .none => .ok .none
  | .block body => do
    return .block (← body.lower ctx inMain)
  | .chain next => do
    return .chain (← next.lower ctx inMain)

def lowerAll (ctx : Context) (inMain : Bool) :
    List Source.Stmt → Lowered (List Target.Stmt)
  | [] => .ok []
  | s :: rest => do
    return (← s.lower ctx inMain) :: (← lowerAll ctx inMain rest)

end

end CToGo
