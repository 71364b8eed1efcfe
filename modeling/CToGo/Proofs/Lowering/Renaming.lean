import CToGo.Proofs.Lowering.Translatable
import CToGo.Proofs.Lowering.Walk
import Mathlib.Logic.Equiv.Basic

/-!
# Renamed programs

Lowering compares names with those that mean something in the target language, with those of the
functions that the program defines, and with nothing else. If the names of a program are changed
one for one and those of the first sort are left alone, the names of its image, or the name in
the refusal, are changed in the same way.

* `Source.Program.rename`, `Target.File.rename`, `Refusal.rename`: trees and refusals with other
  names.
* `KeepsReserved`: the renamings that are considered.
* `Context.Renamed`: what lowering has to know of two contexts, before and after.
* `renamed_bind`: a step and what follows it.
* `Source.Expr.lower_rename`, `Source.Stmt.lower_rename`, `Source.Function.lower_rename`: trees.
* `compileProgram_rename`: **renaming and compiling can change places.**
-/

namespace CToGo

/-! ## Other names -/

namespace Source

mutual

/-- The expression with other names. -/
def Expr.rename (r : String → String) : Expr → Expr
  | .literal value span => .literal value span
  | .ident x span => .ident (r x) span
  | .binary op left right span => .binary op (left.rename r) (right.rename r) span
  | .unary op operand fixity span => .unary op (operand.rename r) fixity span
  | .call callee args span => .call (r callee) (renameEach r args) span
  | .assign op target value span => .assign op (r target) (value.rename r) span

def renameEach (r : String → String) : List Expr → List Expr
  | [] => []
  | e :: rest => e.rename r :: renameEach r rest

end

mutual

/-- The statement with other names. -/
def Stmt.rename (r : String → String) : Stmt → Stmt
  | .declare x type init span => .declare (r x) type (init.map (Expr.rename r)) span
  | .eval e span => .eval (e.rename r) span
  | .branch condition thenBlock elseBranch span =>
    .branch (condition.rename r) (thenBlock.rename r) (elseBranch.rename r) span
  | .loop condition body span => .loop (condition.rename r) (body.rename r) span
  | .leave value span => .leave (value.map (Expr.rename r)) span
  | .block body span => .block (body.rename r) span

def Block.rename (r : String → String) : Block → Block
  | .mk stmts span => .mk (renameAll r stmts) span

def Else.rename (r : String → String) : Else → Else
  | .none => .none
  | .block body => .block (body.rename r)
  | .chain next => .chain (next.rename r)

def renameAll (r : String → String) : List Stmt → List Stmt
  | [] => []
  | s :: rest => s.rename r :: renameAll r rest

end

def Param.rename (r : String → String) (p : Param) : Param := { p with name := r p.name }

/-- The function with other names, its own included. -/
def Function.rename (r : String → String) (f : Function) : Function :=
  { f with name := r f.name, params := f.params.map (Param.rename r), body := f.body.rename r }

/-- The program with other names. -/
def Program.rename (r : String → String) (p : Program) : Program :=
  { p with functions := p.functions.map (Function.rename r) }

end Source

namespace Target

mutual

/-- The expression with other names. A name of a package is none of the program. -/
def Expr.rename (r : String → String) : Expr → Expr
  | .literal value => .literal value
  | .ident x => .ident (r x)
  | .selector package name => .selector package name
  | .binary op left right => .binary op (left.rename r) (right.rename r)
  | .unary op operand => .unary op (operand.rename r)
  | .call function args => .call (function.rename r) (renameEach r args)

def renameEach (r : String → String) : List Expr → List Expr
  | [] => []
  | e :: rest => e.rename r :: renameEach r rest

end

mutual

/-- The statement with other names. -/
def Stmt.rename (r : String → String) : Stmt → Stmt
  | .define x value => .define (r x) (value.rename r)
  | .declare x type => .declare (r x) type
  | .assign target op value => .assign (r target) op (value.rename r)
  | .step target op => .step (r target) op
  | .eval e => .eval (e.rename r)
  | .branch condition thenBody elseBranch =>
    .branch (condition.rename r) (renameAll r thenBody) (elseBranch.rename r)
  | .loop condition body => .loop (condition.rename r) (renameAll r body)
  | .leave value => .leave (value.map (Expr.rename r))
  | .block body => .block (renameAll r body)

def Else.rename (r : String → String) : Else → Else
  | .none => .none
  | .block body => .block (renameAll r body)
  | .chain next => .chain (next.rename r)

def renameAll (r : String → String) : List Stmt → List Stmt
  | [] => []
  | s :: rest => s.rename r :: renameAll r rest

end

def Param.rename (r : String → String) (p : Param) : Param := { p with name := r p.name }

/-- The function with other names, its own included. -/
def Function.rename (r : String → String) (f : Function) : Function :=
  { f with
    name := r f.name
    params := f.params.map (Param.rename r)
    body := renameAll r f.body }

/-- The file with other names. -/
def File.rename (r : String → String) (file : File) : File :=
  { file with functions := file.functions.map (Function.rename r) }

theorem renameAll_append (r : String → String) (ss ts : List Stmt) :
    renameAll r (ss ++ ts) = renameAll r ss ++ renameAll r ts := by
  induction ss with
  | nil => rfl
  | cons s ss ih => rw [List.cons_append, renameAll, ih, renameAll, List.cons_append]

end Target

/-- The obstacle with other names: only an unknown function and a reserved name are called by
name. -/
def Obstacle.rename (r : String → String) : Obstacle → Obstacle
  | .builtin name => .builtin (r name)
  | .reserved name use => .reserved (r name) use
  | o => o

/-- The same refusal at the same place, with other names. -/
def Refusal.rename (r : String → String) (e : Refusal) : Refusal :=
  { e with obstacle := e.obstacle.rename r }

/-! ## Outcomes -/

/-- The outcome with other names, which `f` puts into an image. -/
def renamed {α : Type} (r : String → String) (f : α → α) : Lowered α → Lowered α
  | .ok a => .ok (f a)
  | .error e => .error (e.rename r)

section

variable {α β : Type} {r : String → String} {f : α → α}

theorem renamed_bind {g : β → β} {x x' : Lowered α} {k k' : α → Lowered β}
    (hx : x' = renamed r f x) (hk : ∀ a, k' (f a) = renamed r g (k a)) :
    (x' >>= k') = renamed r g (x >>= k) := by
  subst hx
  cases x with
  | ok a => exact hk a
  | error e => rfl

theorem renamed_mapM {g : β → β} {k k' : α → Lowered β}
    (hk : ∀ a, k' (f a) = renamed r g (k a)) (as : List α) :
    (as.map f).mapM k' = renamed r (List.map g) (as.mapM k) := by
  induction as with
  | nil => rfl
  | cons a as ih =>
    rw [List.map_cons, List.mapM_cons, List.mapM_cons]
    exact renamed_bind (hk a) fun b => renamed_bind ih fun bs => rfl

theorem renamed_forM {k k' : α → Lowered PUnit} (hk : ∀ a, k' (f a) = renamed r id (k a))
    (as : List α) : (as.map f).forM k' = renamed r id (as.forM k) := by
  induction as with
  | nil => rfl
  | cons a as ih =>
    rw [List.map_cons]
    exact renamed_bind (hk a) fun _ => ih

end

/-! ## Reserved names -/

/-- Different names stay different, and the names that mean something in the target language, or
to lowering, stay the same. -/
structure KeepsReserved (r : String → String) : Prop where
  injective : Function.Injective r
  main : r "main" = "main"
  init : r "init" = "init"
  len : r "len" = "len"
  os : r "os" = "os"
  blank : r "_" = "_"
  keywords : ∀ x ∈ targetKeywords, r x = x

namespace KeepsReserved

variable {r : String → String} (hr : KeepsReserved r)

include hr

theorem eq_iff {x y : String} (hy : r y = y) : r x = y ↔ x = y := by
  constructor
  · intro h
    exact hr.injective (h.trans hy.symm)
  · rintro rfl
    exact hy

theorem mem_keywords_iff {x : String} : r x ∈ targetKeywords ↔ x ∈ targetKeywords := by
  constructor
  · intro h
    have hSame : r (r x) = r x := hr.keywords (r x) h
    rwa [hr.injective hSame] at h
  · intro h
    rwa [hr.keywords x h]

theorem mem_packages_iff {s : Requirements} {x : String} :
    r x ∈ s.packages ↔ x ∈ s.packages := by
  rw [Requirements.mem_packages, Requirements.mem_packages, hr.eq_iff hr.os]

theorem isMain_rename (f : Source.Function) : (f.rename r).isMain = f.isMain := by
  have hName : r f.name = "main" ↔ f.name = "main" := hr.eq_iff hr.main
  rw [Bool.eq_iff_iff, Source.Function.isMain, Source.Function.isMain, beq_iff_eq, beq_iff_eq]
  exact hName

theorem isMain_comp_rename :
    Source.Function.isMain ∘ Source.Function.rename r = Source.Function.isMain :=
  funext hr.isMain_rename

end KeepsReserved

/-! ## Contexts -/

/-- In the second context the new names are what the old ones are in the first. -/
structure Context.Renamed (r : String → String) (ctx ctx' : Context) : Prop where
  reservedUse? : ∀ x, ctx'.reservedUse? (r x) = ctx.reservedUse? x
  reservedFunctionUse? : ∀ x, ctx'.reservedFunctionUse? (r x) = ctx.reservedFunctionUse? x
  functions : ∀ x, r x ∈ ctx'.functions ↔ x ∈ ctx.functions

theorem KeepsReserved.renamed {r : String → String} (hr : KeepsReserved r) (ctx : Context) :
    ctx.Renamed r { ctx with functions := ctx.functions.map r } := by
  have hUse : ∀ x, Context.reservedUse? { ctx with functions := ctx.functions.map r } (r x) =
      ctx.reservedUse? x := by
    intro x
    unfold Context.reservedUse?
    simp only [hr.mem_keywords_iff, hr.eq_iff hr.blank, hr.mem_packages_iff]
  refine ⟨hUse, ?_, ?_⟩
  · intro x
    unfold Context.reservedFunctionUse?
    rw [hUse x]
    simp only [hr.eq_iff hr.init, hr.eq_iff hr.len]
  · intro x
    exact List.mem_map_of_injective hr.injective

section

variable {r : String → String} {ctx ctx' : Context} (h : ctx.Renamed r ctx')

include h

theorem checkName_rename (x : String) (l : Source.Location) :
    ctx'.checkName (r x) l = renamed r id (ctx.checkName x l) := by
  unfold Context.checkName
  rw [h.reservedUse? x]
  split <;> rfl

theorem checkFunctionName_rename (x : String) (l : Source.Location) :
    ctx'.checkFunctionName (r x) l = renamed r id (ctx.checkFunctionName x l) := by
  unfold Context.checkFunctionName
  rw [h.reservedFunctionUse? x]
  split <;> rfl

end

theorem lower_type_rename (r : String → String) (ty : Source.Ty) (l : Source.Location) :
    ty.lower l = renamed r id (ty.lower l) := by
  cases ty <;> rfl

theorem resultType_rename (r : String → String) (ty : Source.Ty) (l : Source.Location) :
    resultType ty l = renamed r id (resultType ty l) := by
  cases ty <;> rfl

/-! ## Expressions and statements -/

namespace Source

variable {r : String → String} {ctx ctx' : Context}

mutual

theorem Expr.lower_rename (h : ctx.Renamed r ctx') : (e : Expr) →
    (e.rename r).lower ctx' = renamed r (Target.Expr.rename r) (e.lower ctx)
  | .literal .. => rfl
  | .ident x span => by
    rw [Expr.rename, Expr.lower, Expr.lower]
    exact renamed_bind (checkName_rename h x span.start) fun _ => rfl
  | .binary op left right _ => by
    rw [Expr.rename, Expr.lower, Expr.lower]
    refine renamed_bind (left.lower_rename h) fun left' => ?_
    exact renamed_bind (right.lower_rename h) fun right' => rfl
  | .unary .negate operand _ _ => by
    rw [Expr.rename, Expr.lower, Expr.lower]
    exact renamed_bind (operand.lower_rename h) fun operand' => rfl
  | .unary .increment .. => rfl
  | .unary .decrement .. => rfl
  | .call callee args _ => by
    rw [Expr.rename, Expr.lower, Expr.lower]
    by_cases hCallee : callee ∈ ctx.functions
    · rw [if_pos hCallee, if_pos ((h.functions callee).mpr hCallee)]
      exact renamed_bind (lowerEach_rename h args) fun args' => rfl
    · rw [if_neg hCallee, if_neg (mt (h.functions callee).mp hCallee)]
      rfl
  | .assign .. => rfl

theorem lowerEach_rename (h : ctx.Renamed r ctx') : (es : List Expr) →
    lowerEach ctx' (renameEach r es) = renamed r (Target.renameEach r) (lowerEach ctx es)
  | [] => rfl
  | e :: rest => by
    rw [renameEach, lowerEach, lowerEach]
    refine renamed_bind (e.lower_rename h) fun e' => ?_
    exact renamed_bind (lowerEach_rename h rest) fun rest' => rfl

end

theorem Expr.lowerEffect_rename (h : ctx.Renamed r ctx') (e : Expr) :
    (e.rename r).lowerEffect ctx' = renamed r (Target.Stmt.rename r) (e.lowerEffect ctx) := by
  cases e with
  | assign op target value span =>
    refine renamed_bind (checkName_rename h target span.start) fun _ => ?_
    exact renamed_bind (value.lower_rename h) fun value' => rfl
  | unary op operand fixity span =>
    cases op with
    | negate => rfl
    | _ =>
      -- Only a variable can be stepped, and everything else is refused by its description.
      cases operand with
      | ident x inner => exact renamed_bind (checkName_rename h x inner.start) fun _ => rfl
      | _ => rfl
  | call callee args span =>
    exact renamed_bind (Expr.lower_rename h (.call callee args span)) fun e' => rfl
  | _ => rfl

theorem lowerLeave_rename (h : ctx.Renamed r ctx') (inMain : Bool) (value : Option Expr) :
    lowerLeave ctx' inMain (value.map (Expr.rename r)) =
      renamed r (Target.Stmt.rename r) (lowerLeave ctx inMain value) := by
  cases value with
  | none => rfl
  | some e =>
    refine renamed_bind (e.lower_rename h) fun e' => ?_
    cases inMain <;> rfl

theorem lowerDeclaration_rename (h : ctx.Renamed r ctx') (x : String) (ty : Ty)
    (init : Option Expr) (l : Location) :
    lowerDeclaration ctx' (r x) ty (init.map (Expr.rename r)) l =
      renamed r (Target.Stmt.rename r) (lowerDeclaration ctx x ty init l) := by
  refine renamed_bind (lower_type_rename r ty l) fun ty' => ?_
  refine renamed_bind (checkName_rename h x l) fun _ => ?_
  cases init with
  | none => rfl
  | some e => exact renamed_bind (e.lower_rename h) fun e' => rfl

mutual

theorem Stmt.lower_rename (h : ctx.Renamed r ctx') (inMain : Bool) : (s : Stmt) →
    (s.rename r).lower ctx' inMain = renamed r (Target.Stmt.rename r) (s.lower ctx inMain)
  | .declare x ty init span => by
    rw [Stmt.rename, Stmt.lower, Stmt.lower]
    exact lowerDeclaration_rename h x ty init span.start
  | .eval e _ => by
    rw [Stmt.rename, Stmt.lower, Stmt.lower]
    exact e.lowerEffect_rename h
  | .branch condition thenBlock elseBranch _ => by
    rw [Stmt.rename, Stmt.lower, Stmt.lower]
    refine renamed_bind (elseBranch.lower_rename h inMain) fun elseBranch' => ?_
    refine renamed_bind (condition.lower_rename h) fun condition' => ?_
    exact renamed_bind (thenBlock.lower_rename h inMain) fun thenBody => rfl
  | .loop condition body _ => by
    rw [Stmt.rename, Stmt.lower, Stmt.lower]
    refine renamed_bind (condition.lower_rename h) fun condition' => ?_
    exact renamed_bind (body.lower_rename h inMain) fun body' => rfl
  | .leave value _ => by
    rw [Stmt.rename, Stmt.lower, Stmt.lower]
    exact lowerLeave_rename h inMain value
  | .block body _ => by
    rw [Stmt.rename, Stmt.lower, Stmt.lower]
    exact renamed_bind (body.lower_rename h inMain) fun body' => rfl

theorem Block.lower_rename (h : ctx.Renamed r ctx') (inMain : Bool) : (b : Block) →
    (b.rename r).lower ctx' inMain = renamed r (Target.renameAll r) (b.lower ctx inMain)
  | .mk stmts _ => by
    rw [Block.rename, Block.lower, Block.lower]
    exact lowerAll_rename h inMain stmts

theorem Else.lower_rename (h : ctx.Renamed r ctx') (inMain : Bool) : (alt : Else) →
    (alt.rename r).lower ctx' inMain = renamed r (Target.Else.rename r) (alt.lower ctx inMain)
  | .none => rfl
  | .block body => by
    rw [Else.rename, Else.lower, Else.lower]
    exact renamed_bind (body.lower_rename h inMain) fun body' => rfl
  | .chain next => by
    rw [Else.rename, Else.lower, Else.lower]
    exact renamed_bind (next.lower_rename h inMain) fun next' => rfl

theorem lowerAll_rename (h : ctx.Renamed r ctx') (inMain : Bool) : (ss : List Stmt) →
    lowerAll ctx' inMain (renameAll r ss) =
      renamed r (Target.renameAll r) (lowerAll ctx inMain ss)
  | [] => rfl
  | s :: rest => by
    rw [renameAll, lowerAll, lowerAll]
    refine renamed_bind (s.lower_rename h inMain) fun s' => ?_
    exact renamed_bind (lowerAll_rename h inMain rest) fun rest' => rfl

end

end Source

/-! ## Functions -/

/-- The form of `main` with other names for its parameters. -/
def EntryForm.rename (r : String → String) : EntryForm → EntryForm
  | .plain => .plain
  | .arguments count vector => .arguments (r count) (r vector)

theorem EntryForm.of?_rename (r : String → String) (f : Source.Function) :
    EntryForm.of? (f.rename r) = (EntryForm.of? f).map (EntryForm.rename r) := by
  unfold EntryForm.of?
  rcases hParams : f.params with _ | ⟨count, _ | ⟨vector, _ | ⟨third, rest⟩⟩⟩
  · simp [Source.Function.rename, hParams, EntryForm.rename]
  · simp [Source.Function.rename, hParams]
  · simp only [Source.Function.rename, hParams, List.map_cons, List.map_nil, Source.Param.rename]
    split <;> rfl
  · simp [Source.Function.rename, hParams]

theorem entryForm_rename (r : String → String) (f : Source.Function) :
    entryForm (f.rename r) = renamed r (EntryForm.rename r) (entryForm f) := by
  have hTypes : (f.params.map (Source.Param.rename r)).map (·.type) = f.params.map (·.type) := by
    rw [List.map_map]
    rfl
  unfold entryForm
  rw [EntryForm.of?_rename]
  cases EntryForm.of? f with
  | some form => rfl
  | none =>
    simp only [Option.map_none, Source.Function.rename, hTypes]
    rfl

namespace Source

variable {r : String → String} {ctx ctx' : Context}

theorem Param.lower_rename (h : ctx.Renamed r ctx') (p : Param) :
    (p.rename r).lower ctx' = renamed r (Target.Param.rename r) (p.lower ctx) := by
  refine renamed_bind (checkName_rename h p.name p.span.start) fun _ => ?_
  exact renamed_bind (lower_type_rename r p.type p.span.start) fun type' => rfl

theorem entryBindings_rename (hr : KeepsReserved r) (h : ctx.Renamed r ctx') (f : Function) :
    entryBindings ctx' (f.rename r) = renamed r (Target.renameAll r) (entryBindings ctx f) := by
  refine renamed_bind (entryForm_rename r f) fun form => ?_
  cases form with
  | plain => rfl
  | arguments count vector =>
    have hNames : (f.params.map (Param.rename r)).forM
          (fun p => ctx'.checkName p.name p.span.start) =
        renamed r id (f.params.forM fun p => ctx.checkName p.name p.span.start) :=
      renamed_forM (fun p => checkName_rename h p.name p.span.start) f.params
    refine renamed_bind hNames fun _ => ?_
    -- The function that counts the arguments is called by a name that stays the same.
    have hBound : bindArguments (r count) (r vector) =
        Target.renameAll r (bindArguments count vector) := by
      simp [bindArguments, processArguments, Target.renameAll, Target.Stmt.rename,
        Target.Expr.rename, Target.renameEach, hr.len]
    exact congrArg Except.ok hBound

theorem Function.lowerEntry_rename (hr : KeepsReserved r) (h : ctx.Renamed r ctx')
    (f : Function) :
    (f.rename r).lowerEntry ctx' = renamed r (Target.Function.rename r) (f.lowerEntry ctx) := by
  unfold Function.lowerEntry
  by_cases hReturns : f.returns ≠ .int ∧ f.returns ≠ .void
  · have hRenamed : (f.rename r).returns ≠ .int ∧ (f.rename r).returns ≠ .void := hReturns
    rw [if_pos hReturns, if_pos hRenamed]
    rfl
  · have hRenamed : ¬ ((f.rename r).returns ≠ .int ∧ (f.rename r).returns ≠ .void) :=
      hReturns
    rw [if_neg hReturns, if_neg hRenamed]
    refine renamed_bind (entryBindings_rename hr h f) fun bindings => ?_
    refine renamed_bind (f.body.lower_rename h true) fun body => ?_
    rw [← Target.renameAll_append]
    rfl

theorem Function.lowerPlain_rename (h : ctx.Renamed r ctx') (f : Function) :
    (f.rename r).lowerPlain ctx' = renamed r (Target.Function.rename r) (f.lowerPlain ctx) := by
  refine renamed_bind (renamed_mapM (Param.lower_rename h) f.params) fun params => ?_
  refine renamed_bind (resultType_rename r f.returns f.span.start) fun result => ?_
  exact renamed_bind (f.body.lower_rename h false) fun body => rfl

theorem Function.lower_rename (hr : KeepsReserved r) (h : ctx.Renamed r ctx') (f : Function) :
    (f.rename r).lower ctx' = renamed r (Target.Function.rename r) (f.lower ctx) := by
  refine renamed_bind (checkFunctionName_rename h f.name f.span.start) fun _ => ?_
  rw [hr.isMain_rename f]
  split
  · exact f.lowerEntry_rename hr h
  · exact f.lowerPlain_rename h

/-! ## Walks -/

mutual

theorem Stmt.walk_rename (r : String → String) : (s : Stmt) →
    (s.rename r).walk = s.walk.map (Stmt.rename r)
  | .declare .. => rfl
  | .eval .. => rfl
  | .branch _ thenBlock elseBranch _ => by
    rw [Stmt.walk, List.map_cons, List.map_append, ← thenBlock.walk_rename r,
      ← elseBranch.walk_rename r]
    rfl
  | .loop _ body _ => by
    rw [Stmt.walk, List.map_cons, ← body.walk_rename r]
    rfl
  | .leave .. => rfl
  | .block body _ => by
    rw [Stmt.walk, List.map_cons, ← body.walk_rename r]
    rfl

theorem Block.walk_rename (r : String → String) : (b : Block) →
    (b.rename r).walk = b.walk.map (Stmt.rename r)
  | .mk stmts _ => walkAll_rename r stmts

theorem Else.walk_rename (r : String → String) : (alt : Else) →
    (alt.rename r).walk = alt.walk.map (Stmt.rename r)
  | .none => rfl
  | .block body => body.walk_rename r
  | .chain next => next.walk_rename r

theorem walkAll_rename (r : String → String) : (ss : List Stmt) →
    walkAll (renameAll r ss) = (walkAll ss).map (Stmt.rename r)
  | [] => rfl
  | s :: rest => by
    rw [renameAll, walkAll, walkAll, List.map_append, s.walk_rename r, walkAll_rename r rest]

end

theorem Stmt.leavesWithValue_rename (r : String → String) (s : Stmt) :
    (s.rename r).leavesWithValue = s.leavesWithValue := by
  cases s with
  | leave value span => cases value <;> rfl
  | _ => rfl

end Source

/-! ## Programs -/

theorem Rule.holdsOfMain_rename (r : String → String) (rule : Rule) (f : Source.Function) :
    rule.holdsOfMain (f.rename r) = rule.holdsOfMain f := by
  cases rule with
  | argumentVector =>
    rw [holdsOfMain, holdsOfMain, EntryForm.of?_rename]
    rcases EntryForm.of? f with _ | _ | _ <;> rfl
  | mainExit =>
    have hWalk : (f.rename r).body.walk = f.body.walk.map (Source.Stmt.rename r) :=
      f.body.walk_rename r
    rw [holdsOfMain, holdsOfMain, hWalk, List.any_map]
    exact congrArg (f.body.walk.any ·) (funext (Source.Stmt.leavesWithValue_rename r))

section

variable {r : String → String} (hr : KeepsReserved r)

include hr

theorem requirements_rename (rules : List Rule) (p : Source.Program) :
    requirements rules (p.rename r) = requirements rules p := by
  have hMain : (p.rename r).main? = p.main?.map (Source.Function.rename r) := by
    rw [Source.Program.main?, Source.Program.main?, Source.Program.rename, List.find?_map]
    exact congrArg (fun P => (p.functions.find? P).map _) hr.isMain_comp_rename
  have hHolds (rule : Rule) : rule.holds (p.rename r) = rule.holds p := by
    rw [Rule.holds, Rule.holds, hMain, Option.any_map]
    exact congrArg (p.main?.any ·) (funext (rule.holdsOfMain_rename r))
  unfold requirements
  simp only [hHolds]

theorem checkSingleMain_rename (p : Source.Program) :
    checkSingleMain (p.rename r) = renamed r id (checkSingleMain p) := by
  have hFilter : (p.rename r).functions.filter (·.isMain) =
      (p.functions.filter (·.isMain)).map (Source.Function.rename r) := by
    rw [Source.Program.rename, List.filter_map, hr.isMain_comp_rename]
  unfold checkSingleMain
  rw [hFilter]
  generalize p.functions.filter (·.isMain) = mains
  rcases mains with _ | ⟨first, _ | ⟨second, rest⟩⟩ <;> rfl

/-- **Names are opaque.** A program whose names are changed has the image of the program with
its names changed in the same way, or it is refused at the same place for the same reason, which
names the new name instead of the old one. -/
theorem compileProgram_rename (rules : List Rule) (p : Source.Program) :
    compileProgram rules (p.rename r) =
      renamed r (Target.File.rename r) (compileProgram rules p) := by
  have hNames : (p.rename r).functions.map (·.name) = (p.functions.map (·.name)).map r := by
    rw [Source.Program.rename, List.map_map, List.map_map]
    rfl
  unfold compileProgram Source.Program.lower
  rw [requirements_rename hr, hNames]
  refine renamed_bind (checkSingleMain_rename hr p) fun _ => ?_
  have hContext := hr.renamed ⟨p.functions.map (·.name), requirements rules p⟩
  have hFunctions := renamed_mapM (Source.Function.lower_rename hr hContext) p.functions
  exact renamed_bind hFunctions fun functions => rfl

end

/-- The first function is called by the name of a parameter, and the other way round. -/
def exchanged : String → String := Equiv.swap "f" "n"

theorem keepsReserved_exchanged : KeepsReserved exchanged where
  injective := Equiv.injective _
  main := by decide
  init := by decide
  len := by decide
  os := by decide
  blank := by decide
  keywords := by decide

theorem compileProgram_rename_exchanged :
    ∃ file, compileProgram Rule.standard mainBetween = .ok file ∧
      (mainBetween.rename exchanged).functions.map (·.name) = ["n", "main", "g"] ∧
      compileProgram Rule.standard (mainBetween.rename exchanged) =
        .ok (file.rename exchanged) := by
  obtain ⟨file, hFile⟩ : ∃ file, compileProgram Rule.standard mainBetween = .ok file :=
    exists_eq_ok (by decide +kernel)
  have hRenamed := compileProgram_rename keepsReserved_exchanged Rule.standard mainBetween
  rw [hFile] at hRenamed
  exact ⟨file, hFile, by decide, hRenamed⟩

end CToGo
