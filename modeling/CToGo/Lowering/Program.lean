import CToGo.Lowering.Body

/-!
# Lowering programs

`main` is special: it has neither parameters nor a result in the target language, so the
process arguments are bound at its beginning.

* `Source.Function.lower`: a function.
* `Source.Program.lower`: a program that has the given requirements.
-/

namespace CToGo

open Source (Location)

/-! ## Functions -/

def Source.Param.lower (ctx : Context) (p : Source.Param) : Lowered Target.Param := do
  ctx.checkName p.name p.span.start
  return { name := p.name, type := ← p.type.lower p.span.start }

/-- The image of a type of results; a function without one returns nothing. -/
def resultType (ty : Source.Ty) (location : Location) : Lowered (Option Target.Ty) :=
  match ty with
  | .void => .ok none
  | ty => some <$> ty.lower location

def processArguments : Target.Expr := .selector "os" "Args"

/-- The statements that bind the process arguments. -/
def bindArguments (count vector : String) : List Target.Stmt :=
  [.define count (.call (.ident "len") [processArguments]), .define vector processArguments]

/-- The form of a function that is taken for `main`. -/
def entryForm (f : Source.Function) : Lowered EntryForm :=
  match EntryForm.of? f with
  | some form => .ok form
  | none => refuse (.mainSignature (.params (f.params.map (·.type)))) f.span.start

/-- The bindings at the beginning of `main`. -/
def entryBindings (ctx : Context) (f : Source.Function) : Lowered (List Target.Stmt) := do
  match ← entryForm f with
  | .plain => return []
  | .arguments count vector =>
    f.params.forM fun p => ctx.checkName p.name p.span.start
    return bindArguments count vector

/-- The image of `main`. -/
def Source.Function.lowerEntry (ctx : Context) (f : Source.Function) : Lowered Target.Function := do
  if f.returns ≠ .int ∧ f.returns ≠ .void then
    refuse (.mainSignature (.returns f.returns)) f.span.start
  let bindings ← entryBindings ctx f
  let body ← f.body.lower ctx true
  return { name := f.name, params := [], result := none, body := bindings ++ body }

/-- The image of a function other than `main`. -/
def Source.Function.lowerPlain (ctx : Context) (f : Source.Function) : Lowered Target.Function := do
  let params ← f.params.mapM fun p => p.lower ctx
  let result ← resultType f.returns f.span.start
  let body ← f.body.lower ctx false
  return { name := f.name, params, result, body }

def Source.Function.lower (ctx : Context) (f : Source.Function) : Lowered Target.Function := do
  ctx.checkFunctionName f.name f.span.start
  if f.isMain then f.lowerEntry ctx else f.lowerPlain ctx

/-! ## Programs -/

/-- Refuses a second `main`. -/
def checkSingleMain (p : Source.Program) : Lowered Unit :=
  match p.functions.filter (·.isMain) with
  | _ :: second :: _ => refuse .duplicateMain second.span.start
  | _ => .ok ()

/-- The image of a program that has the given requirements. -/
def Source.Program.lower (requirements : Requirements) (p : Source.Program) :
    Lowered Target.File := do
  checkSingleMain p
  let ctx : Context := { functions := p.functions.map (·.name), requirements }
  let functions ← p.functions.mapM fun f => f.lower ctx
  return { package := "main", imports := requirements.packages, functions }

end CToGo
