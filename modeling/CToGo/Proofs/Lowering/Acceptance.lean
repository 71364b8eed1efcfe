import CToGo.Proofs.Lowering.Imports

/-!
# Accepted programs

Lowering refuses a program as soon as one of its checks fails. The checks stand in the
functions that lower names, types, expressions, statements and functions, and some of them
depend on what is required. Here they are gathered: a tree is accepted exactly if each of its
nodes fits where it stands.

* `Accepted`: an attempt that is not refused; `accepted_bind` takes it apart.
* `Source.Expr.accepted_iff`: expressions whose value is used.
* `Source.Stmt.accepted_iff`: statements, node by node in the order of `walk`.
* `Source.Function.accepted_iff`, `Source.Program.accepted_iff`: functions and programs.
-/

namespace CToGo

/-! ## Acceptance -/

/-- Nothing is refused. -/
def Accepted {α : Type} (x : Lowered α) : Prop := ∃ a, x = .ok a

section

variable {α β : Type} {x : Lowered α} {f : α → Lowered β}

@[simp] theorem accepted_ok {a : α} : Accepted (.ok a : Lowered α) := ⟨a, rfl⟩

@[simp] theorem accepted_pure {a : α} : Accepted (pure a : Lowered α) := ⟨a, rfl⟩

@[simp] theorem not_accepted_refuse {o : Obstacle} {l : Source.Location} :
    ¬ Accepted (refuse o l : Lowered α) := by
  rintro ⟨a, h⟩
  cases h

/-- What follows a step is accepted under a condition that the outcome of the step has no part
in. -/
theorem accepted_bind {P : Prop} (h : ∀ a, Accepted (f a) ↔ P) :
    Accepted (x >>= f) ↔ Accepted x ∧ P := by
  constructor
  · rintro ⟨b, hb⟩
    obtain ⟨a, ha, hb⟩ := bind_eq_ok.mp hb
    exact ⟨⟨a, ha⟩, (h a).mp ⟨b, hb⟩⟩
  · rintro ⟨⟨a, ha⟩, hP⟩
    obtain ⟨b, hb⟩ := (h a).mpr hP
    exact ⟨b, bind_eq_ok.mpr ⟨a, ha, hb⟩⟩

theorem accepted_bind_pure {g : α → β} : Accepted (x >>= fun a => pure (g a)) ↔ Accepted x := by
  rw [accepted_bind fun _ => iff_true_intro accepted_pure, and_true]

theorem accepted_mapM {as : List α} : Accepted (as.mapM f) ↔ ∀ a ∈ as, Accepted (f a) := by
  induction as with
  | nil => simp
  | cons a as ih =>
    rw [List.mapM_cons, accepted_bind fun _ => accepted_bind_pure, ih, List.forall_mem_cons]

theorem accepted_forM {f : α → Lowered PUnit} {as : List α} :
    Accepted (forM as f) ↔ ∀ a ∈ as, Accepted (f a) := by
  induction as with
  | nil => simp
  | cons a as ih =>
    rw [List.forM_cons, accepted_bind fun _ => ih, List.forall_mem_cons]

end

/-! ## Names and types -/

theorem Context.allows_iff {ctx : Context} {x : String} :
    ctx.Allows x ↔ x ∉ targetKeywords ∧ x ≠ "_" ∧ x ∉ ctx.requirements.packages := by
  unfold Context.Allows Context.reservedUse?
  split
  · simp_all
  · split
    · simp_all
    · split <;> simp_all

theorem Context.reservedFunctionUse?_eq_none {ctx : Context} {x : String} :
    ctx.reservedFunctionUse? x = none ↔
      ctx.Allows x ∧ x ≠ "init" ∧ (ctx.requirements.contains .processArguments → x ≠ "len") := by
  unfold Context.reservedFunctionUse? Context.Allows
  split
  · rename_i use hUse
    simp [hUse]
  · rename_i hNone
    rw [eq_true hNone, true_and]
    by_cases hInit : x = "init"
    · simp [hInit]
    · by_cases hLen : x = "len" <;> simp [hInit, hLen]

theorem Context.accepted_checkName {ctx : Context} {x : String} {l : Source.Location} :
    Accepted (ctx.checkName x l) ↔ ctx.Allows x := by
  simp [Accepted, Context.checkName_eq_ok]

theorem Context.accepted_checkFunctionName {ctx : Context} {x : String} {l : Source.Location} :
    Accepted (ctx.checkFunctionName x l) ↔ ctx.reservedFunctionUse? x = none := by
  unfold Context.checkFunctionName
  split
  · rename_i use hUse
    simp [hUse]
  · rename_i hNone
    simp [hNone]

namespace Source

theorem Ty.accepted_lower {ty : Ty} {l : Location} : Accepted (ty.lower l) ↔ ty = .int := by
  cases ty <;> simp [Ty.lower]

theorem accepted_resultType {ty : Ty} {l : Location} :
    Accepted (resultType ty l) ↔ ty = .int ∨ ty = .void := by
  cases ty <;> simp [resultType, Ty.lower, refuse, Accepted, Functor.map, Except.map]

/-! ## Expressions -/

mutual

/-- An expression and all expressions that it is built from. -/
def Expr.parts : Expr → List Expr
  | .literal value span => [.literal value span]
  | .ident x span => [.ident x span]
  | .binary op a b span => .binary op a b span :: (a.parts ++ b.parts)
  | .unary op e fixity span => .unary op e fixity span :: e.parts
  | .call f args span => .call f args span :: partsOfEach args
  | .assign op x e span => .assign op x e span :: e.parts

def partsOfEach : List Expr → List Expr
  | [] => []
  | e :: rest => e.parts ++ partsOfEach rest

end

/-- The node itself can stand where its value is used, whatever is below it. -/
def Expr.Fits (ctx : Context) : Expr → Prop
  | .literal .. => True
  | .ident x _ => ctx.Allows x
  | .binary .. => True
  | .unary op _ _ _ => op = .negate
  | .call f _ _ => f ∈ ctx.functions
  | .assign .. => False

mutual

theorem Expr.accepted_iff {ctx : Context} :
    (e : Expr) → (Accepted (e.lower ctx) ↔ ∀ x ∈ e.parts, x.Fits ctx)
  | .literal value span => by simp [Expr.lower, Expr.parts, Expr.Fits]
  | .ident x span => by
    rw [Expr.lower, accepted_bind_pure, Context.accepted_checkName]
    simp [Expr.parts, Expr.Fits]
  | .binary op a b span => by
    rw [Expr.lower, accepted_bind fun _ => accepted_bind_pure, a.accepted_iff, b.accepted_iff,
      Expr.parts, List.forall_mem_cons, List.forall_mem_append]
    simp [Expr.Fits]
  | .unary .negate e fixity span => by
    rw [Expr.lower, accepted_bind_pure, e.accepted_iff, Expr.parts, List.forall_mem_cons]
    simp [Expr.Fits]
  | .unary .increment _ _ _ => by simp [Expr.lower, Expr.parts, Expr.Fits]
  | .unary .decrement _ _ _ => by simp [Expr.lower, Expr.parts, Expr.Fits]
  | .call f args span => by
    rw [Expr.lower, Expr.parts, List.forall_mem_cons, Expr.Fits]
    split
    · rename_i hf
      rw [accepted_bind_pure, accepted_lowerEach args]
      simp [hf]
    · rename_i hf
      simp [hf]
  | .assign _ _ _ _ => by simp [Expr.lower, Expr.parts, Expr.Fits]

theorem accepted_lowerEach {ctx : Context} :
    (es : List Expr) → (Accepted (lowerEach ctx es) ↔ ∀ x ∈ partsOfEach es, x.Fits ctx)
  | [] => by simp [lowerEach, partsOfEach]
  | e :: es => by
    rw [lowerEach, accepted_bind fun _ => accepted_bind_pure, e.accepted_iff,
      accepted_lowerEach es, partsOfEach, List.forall_mem_append]

end

/-! ## Statements -/

/-- The expressions directly below an expression. -/
def Expr.operands : Expr → List Expr
  | .literal .. | .ident .. => []
  | .binary _ a b _ => [a, b]
  | .unary _ e _ _ => [e]
  | .call _ args _ => args
  | .assign _ _ e _ => [e]

/-- The expressions of a statement, not counting nested statements. -/
def Stmt.exprs : Stmt → List Expr
  | .declare _ _ init _ => init.toList
  | .eval e _ => [e]
  | .branch condition _ _ _ => [condition]
  | .loop condition _ _ => [condition]
  | .leave value _ => value.toList
  | .block _ _ => []

/-- The expressions of a statement whose value is used: those directly below the whole of an
expression statement, and the whole expressions of any other statement. -/
def Stmt.values : Stmt → List Expr
  | .eval e _ => e.operands
  | s => s.exprs

/-- The expression is one that may be the whole of an expression statement, whatever is below
it. -/
def Expr.FitsAsEffect (ctx : Context) : Expr → Prop
  | .assign _ x _ _ => ctx.Allows x
  | .unary op e _ _ => op ≠ .negate ∧ ∃ x span, e = .ident x span
  | .call f _ _ => f ∈ ctx.functions
  | _ => False

/-- The statement itself can be lowered, whatever statements are nested in it. -/
def Stmt.Fits (ctx : Context) (s : Stmt) : Prop :=
  (match s with
    | .declare x ty _ _ => ty = .int ∧ ctx.Allows x
    | .eval e _ => e.FitsAsEffect ctx
    | _ => True) ∧
  ∀ e ∈ partsOfEach s.values, e.Fits ctx

theorem partsOfEach_singleton (e : Expr) : partsOfEach [e] = e.parts := by
  rw [partsOfEach, partsOfEach, List.append_nil]

theorem Expr.accepted_lowerEffect {ctx : Context} (e : Expr) :
    Accepted (e.lowerEffect ctx) ↔
      e.FitsAsEffect ctx ∧ ∀ x ∈ partsOfEach e.operands, x.Fits ctx := by
  unfold Expr.lowerEffect
  split
  · rename_i op x e span
    rw [accepted_bind fun _ => accepted_bind_pure, Context.accepted_checkName, e.accepted_iff,
      Expr.operands, partsOfEach_singleton]
    rfl
  · simp [Expr.FitsAsEffect]
  · rename_i op operand fixity span hNegate
    have hOp : op ≠ .negate := hNegate
    rw [Expr.operands, partsOfEach_singleton, Expr.FitsAsEffect]
    cases operand with
    | ident x innermost =>
      simp only [Expr.name?]
      rw [accepted_bind_pure, Context.accepted_checkName]
      simp [hOp, Expr.parts, Expr.Fits]
    | _ => simp [Expr.name?]
  · rename_i f args span
    rw [accepted_bind_pure, Expr.accepted_iff, Expr.parts, List.forall_mem_cons]
    rfl
  · rename_i hAssign hNegate hUnary hCall
    cases e with
    | assign op x e span => exact absurd rfl (hAssign op x e span)
    | unary op e fixity span => exact absurd rfl (hUnary op e fixity span)
    | call f args span => exact absurd rfl (hCall f args span)
    | _ => simp [Expr.FitsAsEffect]

theorem accepted_lowerDeclaration {ctx : Context} {x : String} {ty : Ty} {init : Option Expr}
    {l : Location} :
    Accepted (lowerDeclaration ctx x ty init l) ↔
      (ty = .int ∧ ctx.Allows x) ∧ ∀ e ∈ partsOfEach init.toList, e.Fits ctx := by
  unfold lowerDeclaration
  rw [accepted_bind fun _ => accepted_bind fun _ => ?_, Ty.accepted_lower,
    Context.accepted_checkName, and_assoc]
  cases init with
  | none => simp [partsOfEach]
  | some e =>
    simp only [Option.toList_some, partsOfEach_singleton]
    rw [accepted_bind_pure, e.accepted_iff]

theorem accepted_lowerLeave {ctx : Context} {inMain : Bool} {value : Option Expr} :
    Accepted (lowerLeave ctx inMain value) ↔ ∀ e ∈ partsOfEach value.toList, e.Fits ctx := by
  cases value with
  | none => simp [lowerLeave, partsOfEach]
  | some e =>
    rw [lowerLeave, accepted_bind_pure, e.accepted_iff, Option.toList_some,
      partsOfEach_singleton]

mutual

theorem Stmt.accepted_iff {ctx : Context} {inMain : Bool} :
    (s : Stmt) → (Accepted (s.lower ctx inMain) ↔ ∀ t ∈ s.walk, t.Fits ctx)
  | .declare x ty init span => by
    rw [Stmt.lower, accepted_lowerDeclaration]
    simp [Stmt.walk, Stmt.Fits, Stmt.values, Stmt.exprs]
  | .eval e span => by
    rw [Stmt.lower, e.accepted_lowerEffect]
    simp [Stmt.walk, Stmt.Fits, Stmt.values]
  | .branch c b alt span => by
    rw [Stmt.lower, accepted_bind fun _ => accepted_bind fun _ => accepted_bind_pure,
      alt.accepted_iff, c.accepted_iff, b.accepted_iff, Stmt.walk, List.forall_mem_cons,
      List.forall_mem_append]
    simp only [Stmt.Fits, Stmt.values, Stmt.exprs, partsOfEach_singleton, true_and]
    tauto
  | .loop c b span => by
    rw [Stmt.lower, accepted_bind fun _ => accepted_bind_pure, c.accepted_iff, b.accepted_iff,
      Stmt.walk, List.forall_mem_cons]
    simp [Stmt.Fits, Stmt.values, Stmt.exprs, partsOfEach_singleton]
  | .leave value span => by
    rw [Stmt.lower, accepted_lowerLeave]
    simp [Stmt.walk, Stmt.Fits, Stmt.values, Stmt.exprs]
  | .block b span => by
    rw [Stmt.lower, accepted_bind_pure, b.accepted_iff, Stmt.walk, List.forall_mem_cons]
    simp [Stmt.Fits, Stmt.values, Stmt.exprs, partsOfEach]

theorem Block.accepted_iff {ctx : Context} {inMain : Bool} :
    (b : Block) → (Accepted (b.lower ctx inMain) ↔ ∀ t ∈ b.walk, t.Fits ctx)
  | .mk ss span => by rw [Block.lower, Block.walk, accepted_lowerAll ss]

theorem Else.accepted_iff {ctx : Context} {inMain : Bool} :
    (alt : Else) → (Accepted (alt.lower ctx inMain) ↔ ∀ t ∈ alt.walk, t.Fits ctx)
  | .none => by simp [Else.lower, Else.walk]
  | .block b => by rw [Else.lower, accepted_bind_pure, b.accepted_iff, Else.walk]
  | .chain s => by rw [Else.lower, accepted_bind_pure, s.accepted_iff, Else.walk]

theorem accepted_lowerAll {ctx : Context} {inMain : Bool} :
    (ss : List Stmt) → (Accepted (lowerAll ctx inMain ss) ↔ ∀ t ∈ walkAll ss, t.Fits ctx)
  | [] => by simp [lowerAll, walkAll]
  | s :: ss => by
    rw [lowerAll, accepted_bind fun _ => accepted_bind_pure, s.accepted_iff,
      accepted_lowerAll ss, walkAll, List.forall_mem_append]

end

/-! ## Functions and programs -/

/-- The function takes the number of process arguments and the vector of them. -/
def Function.TakesArguments (f : Function) : Prop :=
  ∃ count vector, f.params = [count, vector] ∧ count.type = .int ∧
    (vector.type = .pointer (.pointer .char) ∨ vector.type = .array (.pointer .char))

/-- What a function must satisfy in a context. -/
structure Function.Fits (ctx : Context) (f : Function) : Prop where
  name : ctx.reservedFunctionUse? f.name = none
  returns : f.returns = .int ∨ f.returns = .void
  entry : f.isMain → f.params = [] ∨ f.TakesArguments
  types : ¬ f.isMain → ∀ x ∈ f.params, x.type = .int
  params : ∀ x ∈ f.params, ctx.Allows x.name
  body : ∀ s ∈ f.body.walk, s.Fits ctx

theorem isArgumentVector_iff {ty : Ty} :
    ty.isArgumentVector ↔ ty = .pointer (.pointer .char) ∨ ty = .array (.pointer .char) := by
  unfold Ty.isArgumentVector
  split <;> simp_all

theorem entryForm_plain_iff {f : Function} : EntryForm.of? f = some .plain ↔ f.params = [] := by
  unfold EntryForm.of?
  split
  · simp_all
  · split <;> simp_all
  · simp_all

theorem entryForm_arguments_iff {f : Function} :
    (∃ count vector, EntryForm.of? f = some (.arguments count vector)) ↔ f.TakesArguments := by
  unfold EntryForm.of? Function.TakesArguments
  split
  · simp_all
  · rename_i count vector hParams
    rw [hParams]
    split
    · rename_i hTypes
      rw [isArgumentVector_iff] at hTypes
      exact ⟨fun _ => ⟨count, vector, rfl, hTypes⟩, fun _ => ⟨_, _, rfl⟩⟩
    · rename_i hTypes
      rw [isArgumentVector_iff] at hTypes
      constructor
      · rintro ⟨_, _, h⟩
        cases h
      · rintro ⟨_, _, h, hTypes'⟩
        cases h
        exact absurd hTypes' hTypes
  · rename_i hPair
    constructor
    · rintro ⟨_, _, h⟩
      cases h
    · rintro ⟨count, vector, h, -⟩
      exact absurd h (hPair count vector)

theorem accepted_entryBindings {ctx : Context} {f : Function} :
    Accepted (entryBindings ctx f) ↔
      (f.params = [] ∨ f.TakesArguments) ∧ ∀ x ∈ f.params, ctx.Allows x.name := by
  rw [← entryForm_plain_iff, ← entryForm_arguments_iff]
  unfold entryBindings entryForm
  cases hForm : EntryForm.of? f with
  | none => simp [refuse, Accepted, bind, Except.bind]
  | some form =>
    cases form with
    | plain =>
      have hParams := entryForm_plain_iff.mp hForm
      simp [hParams, bind, Except.bind]
    | arguments count vector =>
      have hNames : Accepted (f.params.forM fun x => ctx.checkName x.name x.span.start) ↔
          ∀ x ∈ f.params, ctx.Allows x.name := by
        rw [List.forM_eq_forM, accepted_forM]
        simp only [Context.accepted_checkName]
      change Accepted ((f.params.forM fun x => ctx.checkName x.name x.span.start) >>= fun _ =>
        pure (bindArguments count vector)) ↔ _
      rw [accepted_bind_pure, hNames]
      simp

theorem accepted_lowerEntry {ctx : Context} {f : Function} :
    Accepted (f.lowerEntry ctx) ↔
      (f.returns = .int ∨ f.returns = .void) ∧
      (f.params = [] ∨ f.TakesArguments) ∧ (∀ x ∈ f.params, ctx.Allows x.name) ∧
      ∀ s ∈ f.body.walk, s.Fits ctx := by
  unfold Function.lowerEntry
  split
  · rename_i hReturns
    constructor
    · rintro ⟨f', h⟩
      cases h
    · rintro ⟨hReturns', -⟩
      exact absurd hReturns' (not_or.mpr hReturns)
  · rename_i hReturns
    have hReturns : f.returns = .int ∨ f.returns = .void := by
      by_contra hNot
      exact hReturns (not_or.mp hNot)
    change Accepted (entryBindings ctx f >>= fun bindings => f.body.lower ctx true >>= fun body =>
      pure _) ↔ _
    rw [accepted_bind fun _ => accepted_bind_pure, accepted_entryBindings, f.body.accepted_iff,
      and_assoc]
    simp only [hReturns, true_and]

theorem Param.accepted_lower {ctx : Context} {x : Param} :
    Accepted (x.lower ctx) ↔ ctx.Allows x.name ∧ x.type = .int := by
  unfold Param.lower
  rw [accepted_bind fun _ => accepted_bind_pure, Context.accepted_checkName, Ty.accepted_lower]

theorem accepted_lowerPlain {ctx : Context} {f : Function} :
    Accepted (f.lowerPlain ctx) ↔
      (f.returns = .int ∨ f.returns = .void) ∧
      (∀ x ∈ f.params, x.type = .int) ∧ (∀ x ∈ f.params, ctx.Allows x.name) ∧
      ∀ s ∈ f.body.walk, s.Fits ctx := by
  unfold Function.lowerPlain
  rw [accepted_bind fun _ => accepted_bind fun _ => accepted_bind_pure, accepted_mapM,
    accepted_resultType, f.body.accepted_iff]
  simp only [Param.accepted_lower, forall_and]
  tauto

theorem Function.accepted_iff {ctx : Context} {f : Function} :
    Accepted (f.lower ctx) ↔ f.Fits ctx := by
  unfold Function.lower
  split
  · rename_i hMain
    rw [accepted_bind fun _ => accepted_lowerEntry, Context.accepted_checkFunctionName]
    constructor
    · rintro ⟨hName, hReturns, hEntry, hParams, hBody⟩
      exact ⟨hName, hReturns, fun _ => hEntry, fun h => absurd hMain h, hParams, hBody⟩
    · intro h
      exact ⟨h.name, h.returns, h.entry hMain, h.params, h.body⟩
  · rename_i hMain
    rw [accepted_bind fun _ => accepted_lowerPlain, Context.accepted_checkFunctionName]
    constructor
    · rintro ⟨hName, hReturns, hTypes, hParams, hBody⟩
      exact ⟨hName, hReturns, fun h => absurd h hMain, fun _ => hTypes, hParams, hBody⟩
    · intro h
      exact ⟨h.name, h.returns, h.types hMain, h.params, h.body⟩

theorem accepted_checkSingleMain {p : Program} :
    Accepted (checkSingleMain p) ↔ (p.functions.filter (·.isMain)).length ≤ 1 := by
  simp [Accepted, checkSingleMain_eq_ok]

theorem Program.accepted_iff {requirements : Requirements} {p : Program} :
    Accepted (p.lower requirements) ↔
      (p.functions.filter (·.isMain)).length ≤ 1 ∧
      ∀ f ∈ p.functions, f.Fits ⟨p.functions.map (·.name), requirements⟩ := by
  unfold Program.lower
  rw [accepted_bind fun _ => accepted_bind_pure, accepted_checkSingleMain, accepted_mapM]
  simp only [Function.accepted_iff]

end Source

end CToGo
