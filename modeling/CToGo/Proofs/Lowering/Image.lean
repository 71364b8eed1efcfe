import CToGo.Compile
import CToGo.Proofs.Success

/-!
# The images of accepted programs

What lowering returns when it refuses nothing, as relations between source and target trees
that follow the trees and speak of no outcome. All later facts about accepted programs are
read off these relations.

* `Source.Expr.Image`, `Source.Stmt.Image`, `Source.Function.Image`: a tree and its image.
* `Source.Program.image_of_lower`, `image_of_compileProgram`: an accepted program and its file
  are related function by function.
-/

namespace CToGo

open Source (Span)

/-! ## Relations -/

/-- The name may be declared and used. -/
def Context.Allows (ctx : Context) (x : String) : Prop := ctx.reservedUse? x = none

mutual

/-- The image of an expression whose value is used. -/
inductive Source.Expr.Image (ctx : Context) : Source.Expr → Target.Expr → Prop where
  | literal (value : Int) (span : Span) :
    Source.Expr.Image ctx (.literal value span) (.literal value)
  | ident {x : String} {span : Span} :
    ctx.Allows x → Source.Expr.Image ctx (.ident x span) (.ident x)
  | binary {op : BinaryOp} {a b : Source.Expr} {a' b' : Target.Expr} {span : Span} :
    Source.Expr.Image ctx a a' → Source.Expr.Image ctx b b' →
    Source.Expr.Image ctx (.binary op a b span) (.binary op a' b')
  | negate {e : Source.Expr} {e' : Target.Expr} {fixity : Fixity} {span : Span} :
    Source.Expr.Image ctx e e' →
    Source.Expr.Image ctx (.unary .negate e fixity span) (.unary .negate e')
  | call {f : String} {args : List Source.Expr} {args' : List Target.Expr} {span : Span} :
    f ∈ ctx.functions → ImageEach ctx args args' →
    Source.Expr.Image ctx (.call f args span) (.call (.ident f) args')

/-- The images of a list of expressions. -/
inductive ImageEach (ctx : Context) : List Source.Expr → List Target.Expr → Prop where
  | nil : ImageEach ctx [] []
  | cons {e : Source.Expr} {e' : Target.Expr} {es : List Source.Expr} {es' : List Target.Expr} :
    Source.Expr.Image ctx e e' → ImageEach ctx es es' → ImageEach ctx (e :: es) (e' :: es')

end

mutual

/-- The image of a statement, in `main` or elsewhere. -/
inductive Source.Stmt.Image (ctx : Context) (inMain : Bool) :
    Source.Stmt → Target.Stmt → Prop where
  | declare {x : String} {span : Span} :
    ctx.Allows x → Source.Stmt.Image ctx inMain (.declare x .int none span) (.declare x .int)
  | define {x : String} {e : Source.Expr} {e' : Target.Expr} {span : Span} :
    ctx.Allows x → e.Image ctx e' →
    Source.Stmt.Image ctx inMain (.declare x .int (some e) span) (.define x e')
  | assign {op : AssignOp} {x : String} {e : Source.Expr} {e' : Target.Expr}
    {inner span : Span} :
    ctx.Allows x → e.Image ctx e' →
    Source.Stmt.Image ctx inMain (.eval (.assign op x e inner) span) (.assign x op e')
  | step {op : UnaryOp} {x : String} {fixity : Fixity} {innermost inner span : Span} :
    op ≠ .negate → ctx.Allows x →
    Source.Stmt.Image ctx inMain (.eval (.unary op (.ident x innermost) fixity inner) span)
      (.step x op)
  | call {f : String} {args : List Source.Expr} {e' : Target.Expr} {inner span : Span} :
    Source.Expr.Image ctx (.call f args inner) e' →
    Source.Stmt.Image ctx inMain (.eval (.call f args inner) span) (.eval e')
  | branch {c : Source.Expr} {c' : Target.Expr} {ss : List Source.Stmt}
    {ss' : List Target.Stmt} {alt : Source.Else} {alt' : Target.Else} {inner span : Span} :
    c.Image ctx c' → ImageAll ctx inMain ss ss' → Source.Else.Image ctx inMain alt alt' →
    Source.Stmt.Image ctx inMain (.branch c (.mk ss inner) alt span) (.branch c' ss' alt')
  | loop {c : Source.Expr} {c' : Target.Expr} {ss : List Source.Stmt}
    {ss' : List Target.Stmt} {inner span : Span} :
    c.Image ctx c' → ImageAll ctx inMain ss ss' →
    Source.Stmt.Image ctx inMain (.loop c (.mk ss inner) span) (.loop c' ss')
  | leave {span : Span} : Source.Stmt.Image ctx inMain (.leave none span) (.leave none)
  | result {e : Source.Expr} {e' : Target.Expr} {span : Span} :
    inMain = false → e.Image ctx e' →
    Source.Stmt.Image ctx inMain (.leave (some e) span) (.leave (some e'))
  | status {e : Source.Expr} {e' : Target.Expr} {span : Span} :
    inMain = true → e.Image ctx e' →
    Source.Stmt.Image ctx inMain (.leave (some e) span) (exitWith e')
  | block {ss : List Source.Stmt} {ss' : List Target.Stmt} {inner span : Span} :
    ImageAll ctx inMain ss ss' →
    Source.Stmt.Image ctx inMain (.block (.mk ss inner) span) (.block ss')

/-- The image of what follows the first alternative of a branch. -/
inductive Source.Else.Image (ctx : Context) (inMain : Bool) :
    Source.Else → Target.Else → Prop where
  | none : Source.Else.Image ctx inMain .none .none
  | block {ss : List Source.Stmt} {ss' : List Target.Stmt} {inner : Span} :
    ImageAll ctx inMain ss ss' →
    Source.Else.Image ctx inMain (.block (.mk ss inner)) (.block ss')
  | chain {s : Source.Stmt} {s' : Target.Stmt} :
    Source.Stmt.Image ctx inMain s s' → Source.Else.Image ctx inMain (.chain s) (.chain s')

/-- The images of a sequence of statements. -/
inductive ImageAll (ctx : Context) (inMain : Bool) :
    List Source.Stmt → List Target.Stmt → Prop where
  | nil : ImageAll ctx inMain [] []
  | cons {s : Source.Stmt} {s' : Target.Stmt} {ss : List Source.Stmt} {ss' : List Target.Stmt} :
    Source.Stmt.Image ctx inMain s s' → ImageAll ctx inMain ss ss' →
    ImageAll ctx inMain (s :: ss) (s' :: ss')

end

/-- The bindings in front of the body of `main`. -/
inductive BindingsImage (ctx : Context) : List Source.Param → List Target.Stmt → Prop where
  | plain : BindingsImage ctx [] []
  | arguments {count vector : Source.Param} :
    count.type = .int → vector.type.isArgumentVector → ctx.Allows count.name →
    ctx.Allows vector.name →
    BindingsImage ctx [count, vector] (bindArguments count.name vector.name)

/-- The image of a parameter, which is an integer. -/
inductive Source.Param.Image (ctx : Context) : Source.Param → Target.Param → Prop where
  | mk {x : String} {span : Span} :
    ctx.Allows x → Source.Param.Image ctx ⟨x, .int, span⟩ ⟨x, .int⟩

/-- The image of a type of results. -/
inductive ResultImage : Source.Ty → Option Target.Ty → Prop where
  | none : ResultImage .void none
  | int : ResultImage .int (some .int)

/-- The image of a function. -/
inductive Source.Function.Image (ctx : Context) : Source.Function → Target.Function → Prop where
  | entry {f : Source.Function} {bindings body : List Target.Stmt} :
    f.isMain → ctx.reservedFunctionUse? f.name = none → f.returns = .int ∨ f.returns = .void →
    BindingsImage ctx f.params bindings → ImageAll ctx true f.body.stmts body →
    Source.Function.Image ctx f ⟨f.name, [], none, bindings ++ body⟩
  | plain {f : Source.Function} {params : List Target.Param} {result : Option Target.Ty}
    {body : List Target.Stmt} :
    ¬ f.isMain → ctx.reservedFunctionUse? f.name = none →
    List.Forall₂ (Source.Param.Image ctx) f.params params → ResultImage f.returns result →
    ImageAll ctx false f.body.stmts body →
    Source.Function.Image ctx f ⟨f.name, params, result, body⟩

/-! ## Accepted expressions -/

theorem Context.checkName_eq_ok {ctx : Context} {x : String} {location : Source.Location}
    {u : Unit} : ctx.checkName x location = .ok u ↔ ctx.Allows x := by
  unfold Context.checkName Context.Allows
  split
  · rename_i use hUse
    simp [hUse, refuse]
  · rename_i hNone
    simp [hNone]

mutual

theorem Source.Expr.image_of_lower {ctx : Context} : {e : Source.Expr} → {e' : Target.Expr} →
    e.lower ctx = .ok e' → e.Image ctx e'
  | .literal value span, _, h => by
    cases h
    exact .literal value span
  | .ident x span, _, h => by
    obtain ⟨_, hName, hEq⟩ := bind_eq_ok.mp h
    cases hEq
    exact .ident (Context.checkName_eq_ok.mp hName)
  | .binary op a b span, _, h => by
    obtain ⟨a', ha, h⟩ := bind_eq_ok.mp h
    obtain ⟨b', hb, hEq⟩ := bind_eq_ok.mp h
    cases hEq
    exact .binary (Source.Expr.image_of_lower ha) (Source.Expr.image_of_lower hb)
  | .unary .negate e fixity span, _, h => by
    obtain ⟨e', he, hEq⟩ := bind_eq_ok.mp h
    cases hEq
    exact .negate (Source.Expr.image_of_lower he)
  | .unary .increment _ _ _, _, h => by cases h
  | .unary .decrement _ _ _, _, h => by cases h
  | .call f args span, _, h => by
    rw [Source.Expr.lower] at h
    split at h
    · rename_i hf
      obtain ⟨args', hArgs, hEq⟩ := bind_eq_ok.mp h
      cases hEq
      exact .call hf (imageEach_of_lowerEach hArgs)
    · cases h
  | .assign _ _ _ _, _, h => by cases h

theorem imageEach_of_lowerEach {ctx : Context} : {es : List Source.Expr} →
    {es' : List Target.Expr} → lowerEach ctx es = .ok es' → ImageEach ctx es es'
  | [], _, h => by
    cases h
    exact .nil
  | e :: es, _, h => by
    obtain ⟨e', he, h⟩ := bind_eq_ok.mp h
    obtain ⟨es', hes, hEq⟩ := bind_eq_ok.mp h
    cases hEq
    exact .cons (Source.Expr.image_of_lower he) (imageEach_of_lowerEach hes)

end

/-! ## Accepted statements -/

theorem Source.Expr.eval_image_of_lowerEffect {ctx : Context} {inMain : Bool}
    {e : Source.Expr} {s' : Target.Stmt} (span : Span) (h : e.lowerEffect ctx = .ok s') :
    Source.Stmt.Image ctx inMain (.eval e span) s' := by
  unfold Source.Expr.lowerEffect at h
  split at h
  · obtain ⟨_, hName, h⟩ := bind_eq_ok.mp h
    obtain ⟨e', he, hEq⟩ := bind_eq_ok.mp h
    cases hEq
    exact .assign (Context.checkName_eq_ok.mp hName) (Source.Expr.image_of_lower he)
  · cases h
  · rename_i op operand fixity inner hNegate
    split at h
    · rename_i x hx
      obtain ⟨_, hName, hEq⟩ := bind_eq_ok.mp h
      cases hEq
      cases operand with
      | ident y innermost =>
        cases hx
        exact .step (fun hop => hNegate hop) (Context.checkName_eq_ok.mp hName)
      | _ => cases hx
    · cases h
  · obtain ⟨e', he, hEq⟩ := bind_eq_ok.mp h
    cases hEq
    exact .call (Source.Expr.image_of_lower he)
  · cases h

theorem image_of_lowerLeave {ctx : Context} {inMain : Bool} {value : Option Source.Expr}
    {s' : Target.Stmt} (span : Span) (h : lowerLeave ctx inMain value = .ok s') :
    Source.Stmt.Image ctx inMain (.leave value span) s' := by
  cases value with
  | none =>
    cases h
    exact .leave
  | some e =>
    obtain ⟨e', he, hEq⟩ := bind_eq_ok.mp h
    have hImage := Source.Expr.image_of_lower he
    rw [pure_eq_ok] at hEq
    cases inMain with
    | false =>
      subst hEq
      exact .result rfl hImage
    | true =>
      subst hEq
      exact .status rfl hImage

theorem image_of_lowerDeclaration {ctx : Context} {inMain : Bool} {x : String} {type : Source.Ty}
    {init : Option Source.Expr} {location : Source.Location} {s' : Target.Stmt} (span : Span)
    (h : lowerDeclaration ctx x type init location = .ok s') :
    Source.Stmt.Image ctx inMain (.declare x type init span) s' := by
  simp only [lowerDeclaration, bind_eq_ok, Context.checkName_eq_ok] at h
  obtain ⟨type', hType, _, hName, h⟩ := h
  cases type with
  | int =>
    cases hType
    cases init with
    | none =>
      cases h
      exact .declare hName
    | some e =>
      obtain ⟨e', he, hEq⟩ := bind_eq_ok.mp h
      cases hEq
      exact .define hName (Source.Expr.image_of_lower he)
  | _ => cases hType

mutual

theorem Source.Stmt.image_of_lower {ctx : Context} {inMain : Bool} : {s : Source.Stmt} →
    {s' : Target.Stmt} → s.lower ctx inMain = .ok s' → s.Image ctx inMain s'
  | .declare x type init span, _, h => image_of_lowerDeclaration span h
  | .eval e span, _, h => Source.Expr.eval_image_of_lowerEffect span h
  | .branch c (.mk ss inner) alt span, _, h => by
    obtain ⟨alt', hAlt, h⟩ := bind_eq_ok.mp h
    obtain ⟨c', hc, h⟩ := bind_eq_ok.mp h
    obtain ⟨ss', hss, hEq⟩ := bind_eq_ok.mp h
    cases hEq
    exact .branch (Source.Expr.image_of_lower hc) (imageAll_of_lowerAll hss)
      (Source.Else.image_of_lower hAlt)
  | .loop c (.mk ss inner) span, _, h => by
    obtain ⟨c', hc, h⟩ := bind_eq_ok.mp h
    obtain ⟨ss', hss, hEq⟩ := bind_eq_ok.mp h
    cases hEq
    exact .loop (Source.Expr.image_of_lower hc) (imageAll_of_lowerAll hss)
  | .leave value span, _, h => image_of_lowerLeave span h
  | .block (.mk ss inner) span, _, h => by
    obtain ⟨ss', hss, hEq⟩ := bind_eq_ok.mp h
    cases hEq
    exact .block (imageAll_of_lowerAll hss)

theorem Source.Else.image_of_lower {ctx : Context} {inMain : Bool} : {alt : Source.Else} →
    {alt' : Target.Else} → alt.lower ctx inMain = .ok alt' → alt.Image ctx inMain alt'
  | .none, _, h => by
    cases h
    exact .none
  | .block (.mk ss inner), _, h => by
    obtain ⟨ss', hss, hEq⟩ := bind_eq_ok.mp h
    cases hEq
    exact .block (imageAll_of_lowerAll hss)
  | .chain s, _, h => by
    obtain ⟨s', hs, hEq⟩ := bind_eq_ok.mp h
    cases hEq
    exact .chain (Source.Stmt.image_of_lower hs)

theorem imageAll_of_lowerAll {ctx : Context} {inMain : Bool} : {ss : List Source.Stmt} →
    {ss' : List Target.Stmt} → lowerAll ctx inMain ss = .ok ss' → ImageAll ctx inMain ss ss'
  | [], _, h => by
    cases h
    exact .nil
  | s :: ss, _, h => by
    obtain ⟨s', hs, h⟩ := bind_eq_ok.mp h
    obtain ⟨ss', hss, hEq⟩ := bind_eq_ok.mp h
    cases hEq
    exact .cons (Source.Stmt.image_of_lower hs) (imageAll_of_lowerAll hss)

end

/-! ## Accepted functions and programs -/

theorem Source.Param.image_of_lower {ctx : Context} {p : Source.Param} {p' : Target.Param}
    (h : p.lower ctx = .ok p') : p.Image ctx p' := by
  obtain ⟨x, type, span⟩ := p
  simp only [Source.Param.lower, bind_eq_ok, Context.checkName_eq_ok] at h
  obtain ⟨_, hName, type', hType, hEq⟩ := h
  cases hEq
  cases type with
  | int =>
    cases hType
    exact .mk hName
  | _ => cases hType

theorem resultImage_of_resultType {type : Source.Ty} {location : Source.Location}
    {type' : Option Target.Ty} (h : resultType type location = .ok type') :
    ResultImage type type' := by
  cases type with
  | void =>
    cases h
    exact .none
  | int =>
    cases h
    exact .int
  | _ => cases h

theorem bindingsImage_of_entryBindings {ctx : Context} {f : Source.Function}
    {bindings : List Target.Stmt} (h : entryBindings ctx f = .ok bindings) :
    BindingsImage ctx f.params bindings := by
  obtain ⟨form, hForm, h⟩ := bind_eq_ok.mp h
  unfold entryForm at hForm
  split at hForm
  · rename_i form' hOf
    cases hForm
    unfold EntryForm.of? at hOf
    split at hOf
    · rename_i hParams
      cases hOf
      cases h
      rw [hParams]
      exact .plain
    · rename_i count vector hParams
      split at hOf
      · rename_i hTypes
        cases hOf
        simp only [hParams, List.forM_eq_forM, List.forM_cons, List.forM_nil, bind_eq_ok,
          pure_eq_ok, Context.checkName_eq_ok] at h
        obtain ⟨_, ⟨_, hCount, _, hVector, -⟩, rfl⟩ := h
        rw [hParams]
        exact .arguments hTypes.1 hTypes.2 hCount hVector
      · cases hOf
    · cases hOf
  · cases hForm

theorem Source.Function.image_of_lower {ctx : Context} {f : Source.Function}
    {f' : Target.Function} (h : f.lower ctx = .ok f') : f.Image ctx f' := by
  obtain ⟨_, hName, h⟩ := bind_eq_ok.mp h
  have hName : ctx.reservedFunctionUse? f.name = none := by
    unfold Context.checkFunctionName at hName
    split at hName
    · cases hName
    · assumption
  split at h
  · rename_i hMain
    unfold Source.Function.lowerEntry at h
    split at h
    · cases h
    · rename_i hReturns
      obtain ⟨bindings, hBindings, h⟩ := bind_eq_ok.mp h
      obtain ⟨body, hBody, hEq⟩ := bind_eq_ok.mp h
      cases hEq
      refine .entry hMain hName ?_ (bindingsImage_of_entryBindings hBindings) ?_
      · by_cases hInt : f.returns = .int
        · exact .inl hInt
        · exact .inr (Classical.byContradiction fun hVoid => hReturns ⟨hInt, hVoid⟩)
      · cases hb : f.body with
        | mk ss inner =>
          rw [hb] at hBody
          exact imageAll_of_lowerAll hBody
  · rename_i hMain
    unfold Source.Function.lowerPlain at h
    obtain ⟨params, hParams, h⟩ := bind_eq_ok.mp h
    obtain ⟨result, hResult, h⟩ := bind_eq_ok.mp h
    obtain ⟨body, hBody, hEq⟩ := bind_eq_ok.mp h
    cases hEq
    have hParams := (forall₂_of_mapM hParams).imp fun _ _ => Source.Param.image_of_lower
    refine .plain hMain hName hParams (resultImage_of_resultType hResult) ?_
    cases hb : f.body with
    | mk ss inner =>
      rw [hb] at hBody
      exact imageAll_of_lowerAll hBody

/-- The context in which the functions of a program are lowered. -/
def Source.Program.context (rules : List Rule) (p : Source.Program) : Context where
  functions := p.functions.map (·.name)
  requirements := requirements rules p

theorem checkSingleMain_eq_ok {p : Source.Program} {u : Unit} :
    checkSingleMain p = .ok u ↔ (p.functions.filter (·.isMain)).length ≤ 1 := by
  unfold checkSingleMain
  split
  · rename_i first second rest hFilter
    simp [hFilter, refuse]
  · rename_i hFilter
    cases hMains : p.functions.filter (·.isMain) with
    | nil => simp
    | cons first rest =>
      cases rest with
      | nil => simp
      | cons second rest => exact absurd hMains (hFilter _ _ _)

/-- **Accepted programs.** Their functions are related one by one, at most one of them is
`main`, and the packages of the required services are imported. -/
theorem Source.Program.image_of_lower {requirements : Requirements} {p : Source.Program}
    {file : Target.File} (h : p.lower requirements = .ok file) :
    file.imports = requirements.packages ∧
    (p.functions.filter (·.isMain)).length ≤ 1 ∧
    List.Forall₂ (Source.Function.Image ⟨p.functions.map (·.name), requirements⟩)
      p.functions file.functions := by
  unfold Source.Program.lower at h
  obtain ⟨_, hSingle, h⟩ := bind_eq_ok.mp h
  obtain ⟨functions, hFunctions, hEq⟩ := bind_eq_ok.mp h
  cases hEq
  exact ⟨rfl, checkSingleMain_eq_ok.mp hSingle,
    (forall₂_of_mapM hFunctions).imp fun _ _ => Source.Function.image_of_lower⟩

theorem image_of_compileProgram {rules : List Rule} {p : Source.Program} {file : Target.File}
    (h : compileProgram rules p = .ok file) :
    file.imports = (requirements rules p).packages ∧
    (p.functions.filter (·.isMain)).length ≤ 1 ∧
    List.Forall₂ (Source.Function.Image (p.context rules)) p.functions file.functions :=
  Source.Program.image_of_lower h

/-- The names of parameters are kept, and none of them is reserved. -/
theorem paramNames_of_image {ctx : Context} {params : List Source.Param}
    {params' : List Target.Param} (h : List.Forall₂ (Source.Param.Image ctx) params params') :
    params'.map (·.name) = params.map (·.name) ∧
      ∀ x ∈ params.map (·.name), ctx.Allows x := by
  induction h with
  | nil => simp
  | cons hParam _ ih =>
    cases hParam with
    | mk hAllows => exact ⟨by simp [ih.1], List.forall_mem_cons.mpr ⟨hAllows, ih.2⟩⟩

theorem Source.Function.Image.reservedFunctionUse? {ctx : Context} {f : Source.Function}
    {f' : Target.Function} (h : f.Image ctx f') : ctx.reservedFunctionUse? f.name = none := by
  cases h with
  | entry _ hName => exact hName
  | plain _ hName => exact hName

end CToGo
