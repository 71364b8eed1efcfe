import CToGo.Compile
import CToGo.Proofs.Grammar.Vocabulary
import CToGo.Proofs.Locations.Parsing
import CToGo.Proofs.Success

/-!
# Compilation does not depend on locations

Lowering uses the locations of a tree in its refusals and nowhere else, so the bare tree has the
same image. With the parsers this makes two texts with the same tokens compile alike.

* `SameLowered`: the same image, or the same obstacle at possibly different places.
* `requirements_bare`: the imports do not depend on spans.
* `compileProgram_bare`: neither does the image of a program.
* `compile_alike`: **two sources with the same kinds of tokens have the same target text,
  or the same problem at possibly different places.**
-/

namespace CToGo

open Source (Location Param Function Program)

/-- The same image, or the same obstacle at possibly different places. -/
inductive SameLowered {α : Type} : Lowered α → Lowered α → Prop where
  | ok (a : α) : SameLowered (.ok a) (.ok a)
  | refused (obstacle : Obstacle) (l m : Location) :
    SameLowered (refuse obstacle l) (refuse obstacle m)

section

variable {α β : Type}

theorem SameLowered.refl (x : Lowered α) : SameLowered x x := by
  cases x with
  | ok a => exact .ok a
  | error r => exact .refused r.obstacle r.location r.location

theorem SameLowered.symm {x y : Lowered α} (h : SameLowered x y) : SameLowered y x := by
  cases h with
  | ok a => exact .ok a
  | refused obstacle l m => exact .refused obstacle m l

theorem SameLowered.trans {x y z : Lowered α} (hxy : SameLowered x y) (hyz : SameLowered y z) :
    SameLowered x z := by
  cases hxy with
  | ok a => exact hyz
  | refused obstacle l m =>
    cases hyz with
    | refused _ _ n => exact .refused obstacle l n

theorem SameLowered.bind {x y : Lowered α} {f g : α → Lowered β} (h : SameLowered x y)
    (hf : ∀ a, SameLowered (f a) (g a)) : SameLowered (x >>= f) (y >>= g) := by
  cases h with
  | ok a => exact hf a
  | refused obstacle l m => exact .refused obstacle l m

theorem SameLowered.bind_pure {x y : Lowered α} (h : SameLowered x y) (f : α → β) :
    SameLowered (do return f (← x)) (do return f (← y)) :=
  h.bind fun _ => .refl _

theorem sameLowered_mapM {bare : α → α} {f : α → Lowered β}
    (h : ∀ a, SameLowered (f (bare a)) (f a)) (as : List α) :
    SameLowered ((as.map bare).mapM f) (as.mapM f) := by
  induction as with
  | nil => exact .refl _
  | cons a as ih =>
    rw [List.map_cons, List.mapM_cons, List.mapM_cons]
    exact (h a).bind fun b => ih.bind fun bs => .refl _

theorem sameLowered_forM {bare : α → α} {f : α → Lowered PUnit}
    (h : ∀ a, SameLowered (f (bare a)) (f a)) (as : List α) :
    SameLowered ((as.map bare).forM f) (as.forM f) := by
  induction as with
  | nil => exact .refl _
  | cons a as ih =>
    rw [List.map_cons]
    exact (h a).bind fun _ => ih

end

/-! ## Expressions and statements -/

theorem sameLowered_checkName (ctx : Context) (x : String) (l m : Location) :
    SameLowered (ctx.checkName x l) (ctx.checkName x m) := by
  unfold Context.checkName
  split
  · exact .refused _ _ _
  · exact .ok ()

theorem sameLowered_checkFunctionName (ctx : Context) (x : String) (l m : Location) :
    SameLowered (ctx.checkFunctionName x l) (ctx.checkFunctionName x m) := by
  unfold Context.checkFunctionName
  split
  · exact .refused _ _ _
  · exact .ok ()

theorem sameLowered_type (ty : Source.Ty) (l m : Location) :
    SameLowered (ty.lower l) (ty.lower m) := by
  cases ty with
  | int => exact .ok _
  | _ => exact .refused _ _ _

namespace Source

mutual

theorem Expr.lower_bare (ctx : Context) : (e : Expr) →
    SameLowered (e.bare.lower ctx) (e.lower ctx)
  | .literal value _ => .ok _
  | .ident x _ => by
    rw [Expr.bare, Expr.lower, Expr.lower]
    exact (sameLowered_checkName ctx x _ _).bind fun _ => .refl _
  | .binary op left right _ => by
    rw [Expr.bare, Expr.lower, Expr.lower]
    refine (left.lower_bare ctx).bind fun left' => ?_
    exact (right.lower_bare ctx).bind_pure _
  | .unary op operand fixity _ => by
    rw [Expr.bare]
    cases op with
    | negate =>
      rw [Expr.lower, Expr.lower]
      exact (operand.lower_bare ctx).bind_pure _
    | _ => exact .refused _ _ _
  | .call callee args _ => by
    rw [Expr.bare, Expr.lower, Expr.lower]
    split
    · exact (lowerEach_bareEach ctx args).bind_pure _
    · exact .refused _ _ _
  | .assign .. => .refused _ _ _

theorem lowerEach_bareEach (ctx : Context) : (es : List Expr) →
    SameLowered (lowerEach ctx (bareEach es)) (lowerEach ctx es)
  | [] => .ok _
  | e :: rest => by
    rw [bareEach, lowerEach, lowerEach]
    refine (e.lower_bare ctx).bind fun e' => ?_
    exact (lowerEach_bareEach ctx rest).bind_pure _

end

theorem Expr.lowerEffect_step {ctx : Context} {op : UnaryOp} (h : op ≠ .negate) {operand : Expr}
    {fixity : Fixity} {span : Span} :
    (Expr.unary op operand fixity span).lowerEffect ctx =
      operand.name?.elim
        (refuse (.expression (.stepOf op operand.description)) operand.span.start)
        fun target => do
          ctx.checkName target operand.span.start
          return .step target op := by
  cases op with
  | negate => exact absurd rfl h
  | _ => cases hName : operand.name? <;> simp [Expr.lowerEffect, hName]

theorem Expr.lowerEffect_bare (ctx : Context) (e : Expr) :
    SameLowered (e.bare.lowerEffect ctx) (e.lowerEffect ctx) := by
  cases e with
  | assign op target value span =>
    rw [Expr.bare, Expr.lowerEffect, Expr.lowerEffect]
    refine (sameLowered_checkName ctx target _ _).bind fun _ => ?_
    exact (value.lower_bare ctx).bind_pure _
  | unary op operand fixity span =>
    by_cases hOp : op = .negate
    · subst hOp
      exact .refused _ _ _
    · rw [Expr.bare, lowerEffect_step hOp, lowerEffect_step hOp, Expr.name?_bare,
        Expr.description_bare]
      cases operand.name? with
      | some target => exact (sameLowered_checkName ctx target _ _).bind fun _ => .refl _
      | none => exact .refused _ _ _
  | call callee args span =>
    exact (Expr.lower_bare ctx (.call callee args span)).bind_pure _
  | literal => exact .refused _ _ _
  | ident => exact .refused _ _ _
  | binary => exact .refused _ _ _

theorem lowerLeave_bare (ctx : Context) (inMain : Bool) (value : Option Expr) :
    SameLowered (lowerLeave ctx inMain (value.map Expr.bare)) (lowerLeave ctx inMain value) := by
  cases value with
  | none => exact .ok _
  | some e => exact (e.lower_bare ctx).bind_pure _

theorem lowerDeclaration_bare (ctx : Context) (x : String) (ty : Ty) (init : Option Expr)
    (l m : Location) :
    SameLowered (lowerDeclaration ctx x ty (init.map Expr.bare) l)
      (lowerDeclaration ctx x ty init m) := by
  refine (sameLowered_type ty l m).bind fun ty' => ?_
  refine (sameLowered_checkName ctx x l m).bind fun _ => ?_
  cases init with
  | none => exact .refl _
  | some e => exact (e.lower_bare ctx).bind_pure _

mutual

theorem Stmt.lower_bare (ctx : Context) (inMain : Bool) : (s : Stmt) →
    SameLowered (s.bare.lower ctx inMain) (s.lower ctx inMain)
  | .declare x ty init _ => by
    rw [Stmt.bare, Stmt.lower, Stmt.lower]
    exact lowerDeclaration_bare ctx x ty init _ _
  | .eval e _ => by
    rw [Stmt.bare, Stmt.lower, Stmt.lower]
    exact e.lowerEffect_bare ctx
  | .branch condition thenBlock elseBranch _ => by
    rw [Stmt.bare, Stmt.lower, Stmt.lower]
    refine (elseBranch.lower_bare ctx inMain).bind fun elseBranch' => ?_
    refine (condition.lower_bare ctx).bind fun condition' => ?_
    exact (thenBlock.lower_bare ctx inMain).bind_pure _
  | .loop condition body _ => by
    rw [Stmt.bare, Stmt.lower, Stmt.lower]
    refine (condition.lower_bare ctx).bind fun condition' => ?_
    exact (body.lower_bare ctx inMain).bind_pure _
  | .leave value _ => by
    rw [Stmt.bare, Stmt.lower, Stmt.lower]
    exact lowerLeave_bare ctx inMain value
  | .block body _ => by
    rw [Stmt.bare, Stmt.lower, Stmt.lower]
    exact (body.lower_bare ctx inMain).bind_pure _

theorem Block.lower_bare (ctx : Context) (inMain : Bool) : (b : Block) →
    SameLowered (b.bare.lower ctx inMain) (b.lower ctx inMain)
  | .mk stmts _ => by
    rw [Block.bare, Block.lower, Block.lower]
    exact lowerAll_bareAll ctx inMain stmts

theorem Else.lower_bare (ctx : Context) (inMain : Bool) : (alt : Else) →
    SameLowered (alt.bare.lower ctx inMain) (alt.lower ctx inMain)
  | .none => .ok _
  | .block body => by
    rw [Else.bare, Else.lower, Else.lower]
    exact (body.lower_bare ctx inMain).bind_pure _
  | .chain next => by
    rw [Else.bare, Else.lower, Else.lower]
    exact (next.lower_bare ctx inMain).bind_pure _

theorem lowerAll_bareAll (ctx : Context) (inMain : Bool) : (ss : List Stmt) →
    SameLowered (lowerAll ctx inMain (bareAll ss)) (lowerAll ctx inMain ss)
  | [] => .ok _
  | s :: rest => by
    rw [bareAll, lowerAll, lowerAll]
    refine (s.lower_bare ctx inMain).bind fun s' => ?_
    exact (lowerAll_bareAll ctx inMain rest).bind_pure _

end

end Source

/-! ## Functions -/

theorem EntryForm.of?_bare (f : Function) : EntryForm.of? f.bare = EntryForm.of? f := by
  unfold EntryForm.of?
  rcases hParams : f.params with _ | ⟨count, _ | ⟨vector, _ | ⟨third, rest⟩⟩⟩ <;>
    simp [Function.bare, Param.bare, hParams]

theorem map_type_bare (params : List Param) :
    (params.map Param.bare).map (·.type) = params.map (·.type) := by
  rw [List.map_map]
  rfl

theorem entryBindings_bare (ctx : Context) (f : Function) :
    SameLowered (entryBindings ctx f.bare) (entryBindings ctx f) := by
  have hForm : SameLowered (entryForm f.bare) (entryForm f) := by
    unfold entryForm
    rw [EntryForm.of?_bare]
    split
    · exact .ok _
    · rw [Function.bare, map_type_bare]
      exact .refused _ _ _
  refine hForm.bind fun form => ?_
  cases form with
  | plain => exact .refl _
  | arguments count vector =>
    refine SameLowered.bind ?_ fun _ => .refl _
    exact sameLowered_forM (fun p => sameLowered_checkName ctx p.name _ _) f.params

theorem Source.Param.lower_bare (ctx : Context) (p : Param) :
    SameLowered (p.bare.lower ctx) (p.lower ctx) := by
  refine (sameLowered_checkName ctx p.name _ _).bind fun _ => ?_
  exact (sameLowered_type p.type _ _).bind_pure _

theorem resultType_alike (ty : Source.Ty) (l m : Location) :
    SameLowered (resultType ty l) (resultType ty m) := by
  cases ty with
  | void => exact .ok _
  | int => exact .ok _
  | _ => exact .refused _ _ _

theorem Source.Function.lowerEntry_bare (ctx : Context) (f : Function) :
    SameLowered (f.bare.lowerEntry ctx) (f.lowerEntry ctx) := by
  have hRest : SameLowered
      (do
        let bindings ← entryBindings ctx f.bare
        let body ← f.bare.body.lower ctx true
        return ({ name := f.name, params := [], result := none, body := bindings ++ body } :
          Target.Function))
      (do
        let bindings ← entryBindings ctx f
        let body ← f.body.lower ctx true
        return { name := f.name, params := [], result := none, body := bindings ++ body }) := by
    refine (entryBindings_bare ctx f).bind fun bindings => ?_
    exact (f.body.lower_bare ctx true).bind_pure _
  unfold Source.Function.lowerEntry
  by_cases hReturns : f.returns ≠ .int ∧ f.returns ≠ .void
  · have hBare : f.bare.returns ≠ .int ∧ f.bare.returns ≠ .void := hReturns
    rw [if_pos hReturns, if_pos hBare]
    exact .refused _ _ _
  · have hBare : ¬ (f.bare.returns ≠ .int ∧ f.bare.returns ≠ .void) := hReturns
    rw [if_neg hReturns, if_neg hBare]
    exact hRest

theorem Source.Function.lowerPlain_bare (ctx : Context) (f : Function) :
    SameLowered (f.bare.lowerPlain ctx) (f.lowerPlain ctx) := by
  refine (sameLowered_mapM (Source.Param.lower_bare ctx) f.params).bind fun params => ?_
  refine (resultType_alike f.returns _ _).bind fun result => ?_
  exact (f.body.lower_bare ctx false).bind_pure _

theorem Source.Function.lower_bare (ctx : Context) (f : Function) :
    SameLowered (f.bare.lower ctx) (f.lower ctx) := by
  refine (sameLowered_checkFunctionName ctx f.name _ _).bind fun _ => ?_
  have hMain : f.bare.isMain = f.isMain := rfl
  rw [hMain]
  split
  · exact f.lowerEntry_bare ctx
  · exact f.lowerPlain_bare ctx

/-! ## Programs -/

theorem Rule.holdsOfMain_bare (r : Rule) (f : Function) :
    r.holdsOfMain f.bare = r.holdsOfMain f := by
  cases r with
  | argumentVector => rw [holdsOfMain, holdsOfMain, EntryForm.of?_bare]
  | mainExit =>
    have hLeaves : ∀ s : Source.Stmt, s.bare.leavesWithValue = s.leavesWithValue := by
      intro s
      cases s with
      | leave value span => cases value <;> rfl
      | _ => rfl
    rw [holdsOfMain, holdsOfMain, Source.Function.walk_bare, List.any_map]
    exact congrArg (f.body.walk.any ·) (funext hLeaves)

theorem Rule.holds_bare (r : Rule) (p : Program) : r.holds p.bare = r.holds p := by
  have hMain : p.bare.main? = p.main?.map Function.bare := by
    rw [Program.main?, Program.main?, Program.bare, List.find?_map]
    rfl
  rw [holds, holds, hMain, Option.any_map]
  exact congrArg (p.main?.any ·) (funext r.holdsOfMain_bare)

theorem requirements_bare (rules : List Rule) (p : Program) :
    requirements rules p.bare = requirements rules p := by
  unfold requirements
  simp only [Rule.holds_bare]

theorem checkSingleMain_bare (p : Program) :
    SameLowered (checkSingleMain p.bare) (checkSingleMain p) := by
  have hFilter : p.bare.functions.filter (·.isMain) =
      (p.functions.filter (·.isMain)).map Function.bare := by
    rw [Program.bare, List.filter_map]
    rfl
  unfold checkSingleMain
  rw [hFilter]
  generalize p.functions.filter (·.isMain) = mains
  rcases mains with _ | ⟨first, _ | ⟨second, rest⟩⟩
  · exact .ok ()
  · exact .ok ()
  · exact .refused _ _ _

theorem compileProgram_bare (rules : List Rule) (p : Program) :
    SameLowered (compileProgram rules p.bare) (compileProgram rules p) := by
  have hNames : p.bare.functions.map (·.name) = p.functions.map (·.name) := by
    rw [Program.bare, List.map_map]
    rfl
  unfold compileProgram Source.Program.lower
  rw [requirements_bare, hNames]
  refine (checkSingleMain_bare p).bind fun _ => ?_
  exact (sameLowered_mapM (Source.Function.lower_bare _) p.functions).bind_pure _

/-! ## Texts -/

theorem compileProgram_alike (rules : List Rule) {p p' : Program} (h : p.bare = p'.bare) :
    SameLowered (compileProgram rules p) (compileProgram rules p') := by
  have hLeft := (compileProgram_bare rules p).symm
  have hRight := compileProgram_bare rules p'
  rw [h] at hLeft
  exact hLeft.trans hRight

theorem toDiagnostic_alike {e e' : Source.Parser.GrammarError} (h : e.Alike e') :
    ∃ expected found l m, e.toDiagnostic = .grammar expected found l ∧
      e'.toDiagnostic = .grammar expected found m := by
  cases h with
  | @unexpectedToken expected t u hKind =>
    refine ⟨expected.text, t.kind.text, t.span.start, u.span.start, rfl, ?_⟩
    rw [Source.Parser.GrammarError.toDiagnostic, ← hKind]
  | unexpectedEnd expected l m => exact ⟨_, _, _, _, rfl, rfl⟩
  | unsuitable expected description l m => exact ⟨_, _, _, _, rfl, rfl⟩
  | tooDeep l m => exact ⟨_, _, _, _, rfl, rfl⟩

/-- The same text, or the same problem of the grammar or of lowering, possibly at another
place. -/
inductive SameAnswer : Except Diagnostic String → Except Diagnostic String → Prop where
  | text (out : String) : SameAnswer (.ok out) (.ok out)
  | grammar (expected found : String) (l m : Location) :
    SameAnswer (.error (.grammar expected found l)) (.error (.grammar expected found m))
  | lowering (construct reason : String) (l m : Location) :
    SameAnswer (.error (.lowering construct reason l)) (.error (.lowering construct reason m))

theorem compileTree_alike (rules : List Rule) {p p' : Program} (h : p.bare = p'.bare) :
    SameAnswer (compileTree rules p) (compileTree rules p') := by
  have hLowered := compileProgram_alike rules h
  unfold compileTree
  generalize compileProgram rules p = x at hLowered
  generalize compileProgram rules p' = y at hLowered
  cases hLowered with
  | ok file => exact .text _
  | refused obstacle l m => exact .lowering _ _ l m

/-- **Only the tokens count.** Two sources whose tokens are of the same kinds, whatever their
blanks, comments, lines, leading zeros and file names, compile to the same text, or they are
refused for the same reason. -/
theorem compile_alike (rules : List Rule) {file file' source source' : String}
    {tokens tokens' : List Source.Token} (h : Source.tokenize file source = .ok tokens)
    (h' : Source.tokenize file' source' = .ok tokens')
    (hKinds : tokens.map (·.kind) = tokens'.map (·.kind)) :
    SameAnswer (compile rules file source) (compile rules file' source') := by
  rw [compile, compile, Source.parse_of_tokenize h, Source.parse_of_tokenize h']
  rcases Source.parseTokens_alike hKinds with ⟨p, p', hp, hp', hBare⟩ | ⟨e, e', he, he', hAlike⟩
  · rw [hp, hp']
    exact compileTree_alike rules hBare
  · obtain ⟨expected, found, l, m, hLeft, hRight⟩ := toDiagnostic_alike hAlike
    rw [he, he', Except.mapError, Except.mapError, hLeft, hRight]
    exact .grammar expected found l m

/-- A program on one line. -/
def tightSource : String := "int main()\x7breturn 7+f(0);\x7d"

/-- The same tokens on several lines, with comments and leading zeros. -/
def wideSource : String :=
  "/* a\n** b */ int main ( )\n\x7b // c\n\treturn 007 + f(00) ;\n\x7d\n"

theorem compile_alike_wide :
    ∃ tokens tokens', Source.tokenize "a.c" tightSource = .ok tokens ∧
      Source.tokenize "b.c" wideSource = .ok tokens' ∧
      tokens.map (·.kind) = tokens'.map (·.kind) ∧
      SameAnswer (compile Rule.standard "a.c" tightSource)
        (compile Rule.standard "b.c" wideSource) := by
  have hChecked : (Source.tokenize "a.c" tightSource).toOption.any fun tokens =>
      (Source.tokenize "b.c" wideSource).toOption.any fun tokens' =>
        tokens.map (·.kind) = tokens'.map (·.kind) := by decide +kernel
  obtain ⟨tokens, hTokens, hOther⟩ := exists_eq_ok_of_any hChecked
  obtain ⟨tokens', hTokens', hKinds⟩ := exists_eq_ok_of_any hOther
  have hKinds := of_decide_eq_true hKinds
  exact ⟨tokens, tokens', hTokens, hTokens', hKinds,
    compile_alike Rule.standard hTokens hTokens' hKinds⟩

end CToGo
