import CToGo.Proofs.Lowering.Imports
import CToGo.Proofs.Meaning.Agreement

/-!
# Compilation preserves meaning

A run of the source program is followed by a run of its image. Both interpreters spend their
fuel in step, so the simulation is shown by induction on the fuel of the source run, for all
constructs at once (`Simulates`); each construct has a lemma of its own. In `main` a `return`
with a value has become an exit, which takes two more calls of the interpreter to reach.

* `Matches`: how the flows of a statement and of its image correspond.
* `simulates`: the simulation.
* `run_compileProgram`: the status of a compiled program is that of the source program.
-/

namespace CToGo

open Source (Span)

/-! ## Flows -/

/-- The flow of a source statement and the outcome of its image. -/
inductive Matches (ctx : Context) :
    Bool → Flow Source.Env → Except Target.Halt (Flow Target.Env) → Prop where
  | next {inMain : Bool} {env : Source.Env} {env' : Target.Env} :
    SameVariables ctx env env' → Matches ctx inMain (.next env) (.ok (.next env'))
  | leave {inMain : Bool} : Matches ctx inMain (.leave none) (.ok (.leave none))
  | result {v : Datum} : Matches ctx false (.leave (some v)) (.ok (.leave (some v)))
  | status {k : Int} : Matches ctx true (.leave (some (.int k))) (.error (.exit k))
  /-- The vector of process arguments is no status, so the run is undefined anyway. -/
  | vector {args : List String} {outcome : Except Target.Halt (Flow Target.Env)} :
    Matches ctx true (.leave (some (.vector args))) outcome

namespace Matches

variable {ctx : Context} {inMain : Bool} {flow : Flow Source.Env}
  {outcome : Except Target.Halt (Flow Target.Env)}

theorem close (h : Matches ctx inMain flow outcome) :
    Matches ctx inMain flow.close (do return (← outcome).close) := by
  cases h with
  | next hSame => exact .next hSame.tail
  | leave => exact .leave
  | result => exact .result
  | status => exact .status
  | vector => exact .vector

theorem andThen (h : Matches ctx inMain flow outcome)
    {k : Source.Env → Except Source.Halt (Flow Source.Env)}
    {k' : Target.Env → Except Target.Halt (Flow Target.Env)}
    (hk : ∀ env env' flow', SameVariables ctx env env' → k env = .ok flow' →
      Matches ctx inMain flow' (k' env'))
    {flow' : Flow Source.Env} (hFlow : flow.andThen k = .ok flow') :
    Matches ctx inMain flow' (outcome >>= fun f => f.andThen k') := by
  cases h with
  | next hSame => exact hk _ _ _ hSame hFlow
  | leave =>
    cases hFlow
    exact .leave
  | result =>
    cases hFlow
    exact .result
  | status =>
    cases hFlow
    exact .status
  | vector =>
    cases hFlow
    exact .vector

theorem closeAndThen (h : Matches ctx inMain flow outcome)
    {k : Source.Env → Except Source.Halt (Flow Source.Env)}
    {k' : Target.Env → Except Target.Halt (Flow Target.Env)}
    (hk : ∀ env env' flow', SameVariables ctx env env' → k env = .ok flow' →
      Matches ctx inMain flow' (k' env'))
    {flow' : Flow Source.Env} (hFlow : flow.close.andThen k = .ok flow') :
    Matches ctx inMain flow' (outcome >>= fun f => f.close.andThen k') := by
  have hClosed := h.close.andThen hk hFlow
  cases outcome <;> exact hClosed

/-- Outside `main` a call returns what the source call returns. -/
theorem result_eq (h : Matches ctx false flow outcome) :
    (do return (← outcome).result) = .ok flow.result := by
  cases h with
  | next => rfl
  | leave => rfl
  | result => rfl

end Matches

/-! ## The simulation at one amount of fuel -/

/-- A program, its image and what both must satisfy. -/
structure Setting (ctx : Context) (p : Source.Program) (file : Target.File) : Prop where
  images : List.Forall₂ (Source.Function.Image ctx) p.functions file.functions
  imports : file.imports = ctx.requirements.packages
  noMain : ¬ p.Calls "main"

/-- None of the statements calls `main`, and if one of them becomes an exit, then `os` is
imported. -/
def Safe (file : Target.File) (inMain : Bool) (ss : List Source.Stmt) : Prop :=
  ∀ s ∈ ss, "main" ∉ s.callees ∧ (inMain = true → s.leavesWithValue → "os" ∈ file.imports)

theorem Safe.mono {file : Target.File} {inMain : Bool} {ss ts : List Source.Stmt}
    (h : Safe file inMain ss) (hts : ts ⊆ ss) : Safe file inMain ts := fun s hs => h s (hts hs)

/-- How much more fuel a statement may need after lowering. -/
def slack (inMain : Bool) : Nat := if inMain then 2 else 0

/-- Source runs with fuel `n` are followed by target runs with at least that much. -/
structure Simulates (ctx : Context) (p : Source.Program) (file : Target.File)
    (args : List String) (n : Nat) : Prop where
  expr : ∀ {m : Nat} {env env₁ : Source.Env} {env' : Target.Env} {e : Source.Expr}
    {e' : Target.Expr} {v : Datum}, n ≤ m → Agrees env env' → e.Image ctx e' →
    "main" ∉ e.callees → Source.evalExpr p n env e = .ok (v, env₁) →
    env₁ = env ∧ Target.evalExpr file args m env' e' = .ok v
  each : ∀ {m : Nat} {env env₁ : Source.Env} {env' : Target.Env} {es : List Source.Expr}
    {es' : List Target.Expr} {vs : List Datum}, n ≤ m → Agrees env env' →
    ImageEach ctx es es' → "main" ∉ Source.calleesOfEach es →
    Source.evalEach p n env es = .ok (vs, env₁) →
    env₁ = env ∧ Target.evalEach file args m env' es' = .ok vs
  call : ∀ {m : Nat} {env env₁ : Source.Env} {env' : Target.Env} {f : String}
    {es : List Source.Expr} {es' : List Target.Expr} {result : Option Datum}, n ≤ m →
    Agrees env env' → ImageEach ctx es es' → "main" ∉ f :: Source.calleesOfEach es →
    Source.callFunction p n env f es = .ok (result, env₁) →
    env₁ = env ∧ Target.callFunction file args m env' (.ident f) es' = .ok result
  effect : ∀ {m : Nat} {env env₁ : Source.Env} {env' : Target.Env} {inMain : Bool}
    {e : Source.Expr} {span : Span} {s' : Target.Stmt} {v : Datum}, n ≤ m →
    SameVariables ctx env env' → Source.Stmt.Image ctx inMain (.eval e span) s' →
    (∀ f es inner, e ≠ .call f es inner) → "main" ∉ e.callees →
    Source.evalExpr p n env e = .ok (v, env₁) →
    Matches ctx inMain (.next env₁) (Target.runStmt file args m env' s')
  stmt : ∀ {m : Nat} {env : Source.Env} {env' : Target.Env} {inMain : Bool} {s : Source.Stmt}
    {s' : Target.Stmt} {flow : Flow Source.Env}, n + slack inMain ≤ m →
    SameVariables ctx env env' → s.Image ctx inMain s' → Safe file inMain s.walk →
    Source.runStmt p n env s = .ok flow →
    Matches ctx inMain flow (Target.runStmt file args m env' s')
  alt : ∀ {m : Nat} {env : Source.Env} {env' : Target.Env} {inMain : Bool} {s : Source.Else}
    {s' : Target.Else} {flow : Flow Source.Env}, n + slack inMain ≤ m →
    SameVariables ctx env env' → s.Image ctx inMain s' → Safe file inMain s.walk →
    Source.runElse p n env s = .ok flow →
    Matches ctx inMain flow (Target.runElse file args m env' s')
  all : ∀ {m : Nat} {env : Source.Env} {env' : Target.Env} {inMain : Bool}
    {ss : List Source.Stmt} {ss' : List Target.Stmt} {flow : Flow Source.Env},
    n + slack inMain ≤ m → SameVariables ctx env env' → ImageAll ctx inMain ss ss' →
    Safe file inMain (Source.walkAll ss) → Source.runAll p n env ss = .ok flow →
    Matches ctx inMain flow (Target.runAll file args m env' ss')

theorem simulates_zero (ctx : Context) (p : Source.Program) (file : Target.File)
    (args : List String) : Simulates ctx p file args 0 where
  expr _ _ _ _ h := by cases h
  each _ _ _ _ h := by cases h
  call _ _ _ _ h := by cases h
  effect _ _ _ _ _ h := by cases h
  stmt _ _ _ _ h := by cases h
  alt _ _ _ _ h := by cases h
  all _ _ _ _ h := by cases h

section Step

variable {ctx : Context} {p : Source.Program} {file : Target.File} {args : List String}
  {n m : Nat} {env env₁ : Source.Env} {env' : Target.Env} {inMain : Bool}
  {flow : Flow Source.Env}

/-! ## Expressions -/

theorem Simulates.expr_succ (ih : Simulates ctx p file args n) (hm : n ≤ m)
    (hEnv : Agrees env env') {e : Source.Expr} {e' : Target.Expr} {v : Datum}
    (hImage : e.Image ctx e') (hMain : "main" ∉ e.callees)
    (h : Source.evalExpr p (n + 1) env e = .ok (v, env₁)) :
    env₁ = env ∧ Target.evalExpr file args (m + 1) env' e' = .ok v := by
  cases hImage with
  | literal value span =>
    obtain ⟨w, hw, hEq⟩ := bind_eq_ok.mp h
    cases hEq
    exact ⟨rfl, literalValue_agrees hw⟩
  | ident hx =>
    obtain ⟨w, hw, hEq⟩ := bind_eq_ok.mp h
    cases hEq
    exact ⟨rfl, hEnv.readVariable hw⟩
  | binary ha hb =>
    rw [Source.Expr.callees, List.mem_append, not_or] at hMain
    obtain ⟨⟨a, _⟩, hLeft, h₁⟩ := bind_eq_ok.mp h
    obtain ⟨rfl, hLeft'⟩ := ih.expr hm hEnv ha hMain.1 hLeft
    obtain ⟨⟨b, _⟩, hRight, h₂⟩ := bind_eq_ok.mp h₁
    obtain ⟨rfl, hRight'⟩ := ih.expr hm hEnv hb hMain.2 hRight
    obtain ⟨w, hw, hEq⟩ := bind_eq_ok.mp h₂
    cases hEq
    refine ⟨rfl, ?_⟩
    rw [Target.evalExpr_binary, hLeft', hRight']
    exact applyBinary_agrees hw
  | negate he =>
    obtain ⟨⟨a, _⟩, hOperand, h₁⟩ := bind_eq_ok.mp h
    obtain ⟨rfl, hOperand'⟩ := ih.expr hm hEnv he hMain hOperand
    obtain ⟨w, hw, hEq⟩ := bind_eq_ok.mp h₁
    cases hEq
    refine ⟨rfl, ?_⟩
    rw [Target.evalExpr_negate, hOperand']
    exact applyNegate_agrees hw
  | call hf hes =>
    obtain ⟨⟨result, _⟩, hCall, h₁⟩ := bind_eq_ok.mp h
    obtain ⟨rfl, hCall'⟩ := ih.call hm hEnv hes hMain hCall
    obtain ⟨w, hw, hEq⟩ := bind_eq_ok.mp h₁
    cases hEq
    rw [defined_eq_ok] at hw
    refine ⟨rfl, ?_⟩
    rw [Target.evalExpr_call, hCall', hw]
    rfl

theorem Simulates.each_succ (ih : Simulates ctx p file args n) (hm : n ≤ m)
    (hEnv : Agrees env env') {es : List Source.Expr} {es' : List Target.Expr}
    {vs : List Datum} (hImage : ImageEach ctx es es')
    (hMain : "main" ∉ Source.calleesOfEach es)
    (h : Source.evalEach p (n + 1) env es = .ok (vs, env₁)) :
    env₁ = env ∧ Target.evalEach file args (m + 1) env' es' = .ok vs := by
  cases hImage with
  | nil =>
    cases h
    exact ⟨rfl, rfl⟩
  | cons he hes =>
    rw [Source.calleesOfEach, List.mem_append, not_or] at hMain
    obtain ⟨⟨v, _⟩, hFirst, h₁⟩ := bind_eq_ok.mp h
    obtain ⟨rfl, hFirst'⟩ := ih.expr hm hEnv he hMain.1 hFirst
    obtain ⟨⟨vs, _⟩, hRest, hEq⟩ := bind_eq_ok.mp h₁
    obtain ⟨rfl, hRest'⟩ := ih.each hm hEnv hes hMain.2 hRest
    cases hEq
    refine ⟨rfl, ?_⟩
    rw [Target.evalEach_cons, hFirst', hRest']
    rfl

/-! ## Calls -/

theorem Setting.find?_image (hSetting : Setting ctx p file) {f : String} {g : Source.Function}
    (hg : p.find? f = some g) :
    ∃ g', file.functions.find? (·.name == f) = some g' ∧ g.Image ctx g' := by
  have hImages := hSetting.images
  unfold Source.Program.find? at hg
  generalize p.functions = fs at hImages hg
  generalize file.functions = fs' at hImages
  induction hImages with
  | nil => cases hg
  | @cons first first' _ _ hFirst _ ih =>
    rw [List.find?_cons] at hg ⊢
    rw [hFirst.name_eq]
    cases hName : first.name == f with
    | true =>
      rw [hName] at hg
      cases hg
      exact ⟨first', rfl, hFirst⟩
    | false =>
      rw [hName] at hg
      exact ih hg

theorem Setting.safe_body (hSetting : Setting ctx p file) {g : Source.Function}
    (hg : g ∈ p.functions) : Safe file false (Source.walkAll g.body.stmts) := by
  intro s hs
  refine ⟨fun hMain => ?_, fun h => (nomatch h)⟩
  exact hSetting.noMain ⟨g, hg, s, Source.Function.mem_walk_of_stmts hs, hMain⟩

theorem Simulates.call_succ (hSetting : Setting ctx p file) (ih : Simulates ctx p file args n)
    (hm : n ≤ m) (hEnv : Agrees env env') {f : String} {es : List Source.Expr}
    {es' : List Target.Expr} {result : Option Datum} (hImage : ImageEach ctx es es')
    (hMain : "main" ∉ f :: Source.calleesOfEach es)
    (h : Source.callFunction p (n + 1) env f es = .ok (result, env₁)) :
    env₁ = env ∧ Target.callFunction file args (m + 1) env' (.ident f) es' = .ok result := by
  rw [List.mem_cons, not_or] at hMain
  rw [Source.callFunction_succ] at h
  split at h
  · cases h
  · rename_i hVisible
    obtain ⟨g, hg, h₁⟩ := bind_eq_ok.mp h
    obtain ⟨⟨vs, _⟩, hArgs, h₂⟩ := bind_eq_ok.mp h₁
    obtain ⟨rfl, hArgs'⟩ := ih.each hm hEnv hImage hMain.2 hArgs
    obtain ⟨frame, hFrame, h₃⟩ := bind_eq_ok.mp h₂
    obtain ⟨flow, hFlow, hEq⟩ := bind_eq_ok.mp h₃
    cases hEq
    rw [defined_eq_ok] at hg hFrame
    refine ⟨rfl, ?_⟩
    have hAbsent : env'.find? f = none := by
      refine hEnv.absent f ?_
      simpa using hVisible
    obtain ⟨g', hg', hFunction⟩ := hSetting.find?_image hg
    rw [Target.callFunction_ident, hAbsent, if_neg (by simp), hArgs']
    simp only [hg', bind, Except.bind]
    cases hFunction with
    | entry hIsMain =>
      have hName : g.name = f := by simpa using List.find?_some hg
      have hIsMain : g.name = "main" := by simpa [Source.Function.isMain] using hIsMain
      exact absurd (hIsMain.symm.trans hName) hMain.1
    | plain _ _ hParams _ hBody =>
      obtain ⟨hNames, hAllows⟩ := paramNames_of_image hParams
      obtain ⟨frame', hFrame', hSame⟩ := SameVariables.frame hAllows hFrame
      have hSafe := hSetting.safe_body (List.mem_of_find?_eq_some hg)
      have hFuel : n + slack false ≤ m := hm
      have hMatches := ih.all hFuel hSame hBody hSafe hFlow
      simp only [hNames, hFrame', Target.expect]
      exact hMatches.result_eq

/-! ## Statements -/

theorem le_of_slack (hm : n + slack inMain ≤ m) : n ≤ m := Nat.le_trans (Nat.le_add_right _ _) hm

/-- A block is run with variables of its own. -/
theorem Simulates.block (ih : Simulates ctx p file args n) (hm : n + slack inMain ≤ m)
    (hEnv : SameVariables ctx env env') {ss : List Source.Stmt} {ss' : List Target.Stmt}
    (hImage : ImageAll ctx inMain ss ss') (hSafe : Safe file inMain (Source.walkAll ss))
    (hFlow : Source.runAll p n ([] :: env) ss = .ok flow) :
    Matches ctx inMain flow.close
      (do return (← Target.runAll file args m ([] :: env') ss').close) :=
  (ih.all hm hEnv.push hImage hSafe hFlow).close

theorem Simulates.all_succ (ih : Simulates ctx p file args n) (hm : n + slack inMain ≤ m)
    (hEnv : SameVariables ctx env env') {ss : List Source.Stmt} {ss' : List Target.Stmt}
    (hImage : ImageAll ctx inMain ss ss') (hSafe : Safe file inMain (Source.walkAll ss))
    (h : Source.runAll p (n + 1) env ss = .ok flow) :
    Matches ctx inMain flow (Target.runAll file args (m + 1) env' ss') := by
  cases hImage with
  | nil =>
    cases h
    exact .next hEnv
  | cons hs hss =>
    obtain ⟨first, hFirst, hRest⟩ := bind_eq_ok.mp h
    have hFirst := ih.stmt hm hEnv hs (hSafe.mono (by simp [Source.walkAll])) hFirst
    refine hFirst.andThen (fun env₁ env₁' flow₁ hSame hFlow => ?_) hRest
    exact ih.all hm hSame hss (hSafe.mono (by simp [Source.walkAll])) hFlow

theorem Simulates.alt_succ (ih : Simulates ctx p file args n) (hm : n + slack inMain ≤ m)
    (hEnv : SameVariables ctx env env') {s : Source.Else} {s' : Target.Else}
    (hImage : s.Image ctx inMain s') (hSafe : Safe file inMain s.walk)
    (h : Source.runElse p (n + 1) env s = .ok flow) :
    Matches ctx inMain flow (Target.runElse file args (m + 1) env' s') := by
  cases hImage with
  | none =>
    cases h
    exact .next hEnv
  | block hss =>
    obtain ⟨inner, hInner, hEq⟩ := bind_eq_ok.mp h
    cases hEq
    exact ih.block hm hEnv hss hSafe hInner
  | chain hs =>
    obtain ⟨inner, hInner, hEq⟩ := bind_eq_ok.mp h
    cases hEq
    exact (ih.stmt hm hEnv.push hs hSafe hInner).close

theorem Simulates.declare (hEnv : SameVariables ctx env env') {x : String} {span : Span}
    (hx : ctx.Allows x)
    (h : Source.runStmt p (n + 1) env (.declare x .int none span) = .ok flow) :
    Matches ctx inMain flow (Target.runStmt file args (m + 1) env' (.declare x .int)) := by
  obtain ⟨env₁, hDeclared, hEq⟩ := bind_eq_ok.mp h
  cases hEq
  rw [defined_eq_ok] at hDeclared
  obtain ⟨env₁', hDeclared', hSame⟩ := hEnv.declare hx hDeclared (.int 0)
  rw [Target.runStmt_declare, hDeclared']
  exact .next hSame

theorem Simulates.define (ih : Simulates ctx p file args n) (hm : n ≤ m)
    (hEnv : SameVariables ctx env env') {x : String} {e : Source.Expr} {e' : Target.Expr}
    {span : Span} (hx : ctx.Allows x) (he : e.Image ctx e') (hMain : "main" ∉ e.callees)
    (h : Source.runStmt p (n + 1) env (.declare x .int (some e) span) = .ok flow) :
    Matches ctx inMain flow (Target.runStmt file args (m + 1) env' (.define x e')) := by
  obtain ⟨env₁, hDeclared, h₁⟩ := bind_eq_ok.mp h
  rw [defined_eq_ok] at hDeclared
  obtain ⟨⟨v, _⟩, hValue, h₂⟩ := bind_eq_ok.mp h₁
  obtain ⟨rfl, hValue'⟩ := ih.expr hm (hEnv.agrees_declare hDeclared) he hMain hValue
  obtain ⟨env₂, hAssigned, hEq⟩ := bind_eq_ok.mp h₂
  cases hEq
  rw [defined_eq_ok] at hAssigned
  obtain ⟨env₂', hDefined, hSame⟩ := hEnv.assign_declare hx hDeclared hAssigned
  rw [Target.runStmt_define, hValue']
  simp only [bind, Except.bind, hDefined, Target.expect]
  exact .next hSame

theorem Simulates.assign (ih : Simulates ctx p file args n) (hm : n ≤ m)
    (hEnv : SameVariables ctx env env') {op : AssignOp} {x : String} {e : Source.Expr}
    {e' : Target.Expr} {inner : Span} {v : Datum} (he : e.Image ctx e')
    (hMain : "main" ∉ e.callees)
    (h : Source.evalExpr p (n + 1) env (.assign op x e inner) = .ok (v, env₁)) :
    Matches ctx inMain (.next env₁) (Target.runStmt file args (m + 1) env' (.assign x op e')) := by
  obtain ⟨⟨u, _⟩, hValue, h₁⟩ := bind_eq_ok.mp h
  obtain ⟨rfl, hValue'⟩ := ih.expr hm hEnv.agrees he hMain hValue
  obtain ⟨w, hNew, h₂⟩ := bind_eq_ok.mp h₁
  obtain ⟨env₂, hAssigned, hEq⟩ := bind_eq_ok.mp h₂
  cases hEq
  rw [defined_eq_ok] at hAssigned
  obtain ⟨env₂', hAssigned', hSame⟩ := hEnv.assign hAssigned
  rw [Target.runStmt_assign, hValue']
  simp only [bind, Except.bind, hEnv.agrees.assigned hNew, hAssigned', Target.expect]
  exact .next hSame

theorem Simulates.step (hEnv : SameVariables ctx env env') {op : UnaryOp} {x : String}
    {fixity : Fixity} {innermost inner : Span} {v : Datum} (hop : op ≠ .negate)
    (h : Source.evalExpr p (n + 1) env (.unary op (.ident x innermost) fixity inner) =
      .ok (v, env₁)) :
    Matches ctx inMain (.next env₁) (Target.runStmt file args (m + 1) env' (.step x op)) := by
  rw [Source.evalExpr_step p n env hop] at h
  obtain ⟨y, hName, h₁⟩ := bind_eq_ok.mp h
  cases hName
  obtain ⟨old, hOld, h₂⟩ := bind_eq_ok.mp h₁
  obtain ⟨new, hNew, h₃⟩ := bind_eq_ok.mp h₂
  obtain ⟨env₂, hAssigned, hEq⟩ := bind_eq_ok.mp h₃
  cases hEq
  rw [defined_eq_ok] at hAssigned
  obtain ⟨env₂', hAssigned', hSame⟩ := hEnv.assign hAssigned
  rw [Target.runStmt_step, hEnv.agrees.readVariable hOld]
  simp only [bind, Except.bind, stepped_agrees hNew, hAssigned', Target.expect]
  exact .next hSame

theorem Simulates.effect_succ (ih : Simulates ctx p file args n) (hm : n ≤ m)
    (hEnv : SameVariables ctx env env') {e : Source.Expr} {span : Span} {s' : Target.Stmt}
    {v : Datum} (hImage : Source.Stmt.Image ctx inMain (.eval e span) s')
    (hCall : ∀ f es inner, e ≠ .call f es inner) (hMain : "main" ∉ e.callees)
    (h : Source.evalExpr p (n + 1) env e = .ok (v, env₁)) :
    Matches ctx inMain (.next env₁) (Target.runStmt file args (m + 1) env' s') := by
  cases hImage with
  | assign _ he => exact ih.assign hm hEnv he hMain h
  | step hop _ => exact Simulates.step hEnv hop h
  | call _ => exact absurd rfl (hCall _ _ _)

theorem Simulates.evalCall (ih : Simulates ctx p file args n) (hm : n ≤ m)
    (hEnv : SameVariables ctx env env') {f : String} {es : List Source.Expr}
    {e' : Target.Expr} {inner span : Span}
    (hImage : Source.Expr.Image ctx (.call f es inner) e')
    (hMain : "main" ∉ f :: Source.calleesOfEach es)
    (h : Source.runStmt p (n + 1) env (.eval (.call f es inner) span) = .ok flow) :
    Matches ctx inMain flow (Target.runStmt file args (m + 1) env' (.eval e')) := by
  cases hImage with
  | call _ hes =>
    obtain ⟨⟨result, _⟩, hCall, hEq⟩ := bind_eq_ok.mp h
    obtain ⟨rfl, hCall'⟩ := ih.call hm hEnv.agrees hes hMain hCall
    cases hEq
    rw [Target.runStmt_call, hCall']
    exact .next hEnv

theorem Simulates.branch (ih : Simulates ctx p file args n) (hm : n + slack inMain ≤ m)
    (hEnv : SameVariables ctx env env') {c : Source.Expr} {c' : Target.Expr}
    {ss : List Source.Stmt} {ss' : List Target.Stmt} {alt : Source.Else} {alt' : Target.Else}
    {inner span : Span} (hc : c.Image ctx c') (hss : ImageAll ctx inMain ss ss')
    (hAlt : alt.Image ctx inMain alt')
    (hSafe : Safe file inMain (Source.Stmt.branch c (.mk ss inner) alt span).walk)
    (h : Source.runStmt p (n + 1) env (.branch c (.mk ss inner) alt span) = .ok flow) :
    Matches ctx inMain flow (Target.runStmt file args (m + 1) env' (.branch c' ss' alt')) := by
  have hMain : "main" ∉ c.callees := (hSafe _ (Source.Stmt.mem_walk_self _)).1
  obtain ⟨⟨v, _⟩, hCondition, h₁⟩ := bind_eq_ok.mp h
  obtain ⟨rfl, hCondition'⟩ := ih.expr (le_of_slack hm) hEnv.agrees hc hMain hCondition
  rw [Target.runStmt_branch, hCondition']
  simp only [Source.Stmt.walk, Source.Block.walk] at hSafe
  dsimp only at h₁
  change Matches _ _ _ (if v.isTrue then _ else _)
  split at h₁
  · rename_i hTrue
    rw [if_pos hTrue]
    obtain ⟨body, hBody, hEq⟩ := bind_eq_ok.mp h₁
    cases hEq
    exact ih.block hm hEnv hss (hSafe.mono (by simp)) hBody
  · rename_i hFalse
    rw [if_neg hFalse]
    exact ih.alt hm hEnv hAlt (hSafe.mono (by simp)) h₁

theorem Simulates.loop (ih : Simulates ctx p file args n) (hm : n + slack inMain ≤ m)
    (hEnv : SameVariables ctx env env') {c : Source.Expr} {c' : Target.Expr}
    {ss : List Source.Stmt} {ss' : List Target.Stmt} {inner span : Span}
    (hc : c.Image ctx c') (hss : ImageAll ctx inMain ss ss')
    (hSafe : Safe file inMain (Source.Stmt.loop c (.mk ss inner) span).walk)
    (h : Source.runStmt p (n + 1) env (.loop c (.mk ss inner) span) = .ok flow) :
    Matches ctx inMain flow (Target.runStmt file args (m + 1) env' (.loop c' ss')) := by
  have hMain : "main" ∉ c.callees := (hSafe _ (Source.Stmt.mem_walk_self _)).1
  have hBodySafe : Safe file inMain (Source.walkAll ss) :=
    hSafe.mono (by simp [Source.Stmt.walk, Source.Block.walk])
  obtain ⟨⟨v, _⟩, hCondition, h₁⟩ := bind_eq_ok.mp h
  obtain ⟨rfl, hCondition'⟩ := ih.expr (le_of_slack hm) hEnv.agrees hc hMain hCondition
  rw [Target.runStmt_loop, hCondition']
  dsimp only at h₁
  change Matches _ _ _ (if v.isTrue then _ else _)
  split at h₁
  · rename_i hTrue
    rw [if_pos hTrue]
    obtain ⟨body, hBody, h₂⟩ := bind_eq_ok.mp h₁
    have hBlock := ih.all hm hEnv.push hss hBodySafe hBody
    refine hBlock.closeAndThen (fun env₁ env₁' flow₁ hSame hAgain => ?_) h₂
    exact ih.stmt hm hSame (.loop hc hss) hSafe hAgain
  · rename_i hFalse
    rw [if_neg hFalse]
    cases h₁
    exact .next hEnv

theorem evalExpr_eq_ok_pos {e : Source.Expr} {r : Datum × Source.Env}
    (h : Source.evalExpr p n env e = .ok r) : 0 < n := by
  cases n with
  | zero => cases h
  | succ n => exact Nat.succ_pos n

/-- A `return` with a value in `main` has become an exit. -/
theorem Simulates.status (hSetting : Setting ctx p file) (ih : Simulates ctx p file args n)
    (hm : n + 2 ≤ m) (hEnv : SameVariables ctx env env') {e : Source.Expr} {e' : Target.Expr}
    {span : Span} (he : e.Image ctx e') (hMain : "main" ∉ e.callees)
    (hImported : "os" ∈ file.imports)
    (h : Source.runStmt p (n + 1) env (.leave (some e) span) = .ok flow) :
    Matches ctx true flow (Target.runStmt file args (m + 1) env' (exitWith e')) := by
  obtain ⟨⟨v, env₁⟩, hValue, hEq⟩ := bind_eq_ok.mp h
  cases hEq
  have hPos := evalExpr_eq_ok_pos hValue
  obtain ⟨k, rfl⟩ : ∃ k, m = k + 3 := ⟨m - 3, by omega⟩
  obtain ⟨-, hValue'⟩ := ih.expr (m := k + 1) (by omega) hEnv.agrees he hMain hValue
  cases v with
  | vector _ => exact .vector
  | int status =>
    have hSees : file.sees env' "os" := hEnv.sees hSetting.imports hImported
    have hArgs : Target.evalEach file args (k + 2) env' [e'] = .ok [.int status] := by
      rw [Target.evalEach_cons, hValue']
      rfl
    have hExit : Target.callFunction file args (k + 3) env' (.selector "os" "Exit") [e'] =
        .error (.exit status) := by
      rw [Target.callFunction_selector, hArgs]
      simp [bind, Except.bind, hSees, Target.exitProcess]
    rw [exitWith, Target.runStmt_call, hExit]
    exact .status

theorem Simulates.stmt_succ (hSetting : Setting ctx p file) (ih : Simulates ctx p file args n)
    (hm : n + slack inMain ≤ m) (hEnv : SameVariables ctx env env') {s : Source.Stmt}
    {s' : Target.Stmt} (hImage : s.Image ctx inMain s') (hSafe : Safe file inMain s.walk)
    (h : Source.runStmt p (n + 1) env s = .ok flow) :
    Matches ctx inMain flow (Target.runStmt file args (m + 1) env' s') := by
  have hSelf := hSafe s s.mem_walk_self
  have hLess := le_of_slack hm
  have hWhole := hImage
  cases hImage with
  | declare hx => exact Simulates.declare hEnv hx h
  | define hx he => exact ih.define hLess hEnv hx he hSelf.1 h
  | assign _ _ =>
    obtain ⟨⟨v, env₁⟩, hEffect, hEq⟩ := bind_eq_ok.mp h
    cases hEq
    exact ih.effect (Nat.le_succ_of_le hLess) hEnv hWhole (by simp) hSelf.1 hEffect
  | step _ _ =>
    obtain ⟨⟨v, env₁⟩, hEffect, hEq⟩ := bind_eq_ok.mp h
    cases hEq
    exact ih.effect (Nat.le_succ_of_le hLess) hEnv hWhole (by simp) hSelf.1 hEffect
  | call he => exact ih.evalCall hLess hEnv he hSelf.1 h
  | branch hc hss hAlt => exact ih.branch hm hEnv hc hss hAlt hSafe h
  | loop hc hss => exact ih.loop hm hEnv hc hss hSafe h
  | leave =>
    cases h
    exact .leave
  | result hNotMain he =>
    subst hNotMain
    obtain ⟨⟨v, env₁⟩, hValue, hEq⟩ := bind_eq_ok.mp h
    cases hEq
    obtain ⟨-, hValue'⟩ := ih.expr hLess hEnv.agrees he hSelf.1 hValue
    rw [Target.runStmt_leaveWith, hValue']
    exact .result
  | status hIsMain he =>
    subst hIsMain
    exact Simulates.status hSetting ih hm hEnv he hSelf.1 (hSelf.2 rfl rfl) h
  | block hss =>
    obtain ⟨inner, hInner, hEq⟩ := bind_eq_ok.mp h
    cases hEq
    refine ih.block hm hEnv hss (hSafe.mono ?_) hInner
    simp [Source.Stmt.walk, Source.Block.walk]

end Step

/-- Every source run is followed by a target run. -/
theorem simulates {ctx : Context} {p : Source.Program} {file : Target.File}
    (hSetting : Setting ctx p file) (args : List String) (n : Nat) :
    Simulates ctx p file args n := by
  induction n with
  | zero => exact simulates_zero ctx p file args
  | succ n ih =>
    -- the target run has fuel left as well
    have hFuel {m k : Nat} (hm : n + 1 + k ≤ m) : ∃ m', m = m' + 1 ∧ n + k ≤ m' :=
      ⟨m - 1, by omega, by omega⟩
    constructor
    · intro m _ _ _ _ _ _ hm hEnv hImage hMain h
      obtain ⟨m, rfl, hm'⟩ := hFuel (k := 0) hm
      exact ih.expr_succ hm' hEnv hImage hMain h
    · intro m _ _ _ _ _ _ hm hEnv hImage hMain h
      obtain ⟨m, rfl, hm'⟩ := hFuel (k := 0) hm
      exact ih.each_succ hm' hEnv hImage hMain h
    · intro m _ _ _ _ _ _ _ hm hEnv hImage hMain h
      obtain ⟨m, rfl, hm'⟩ := hFuel (k := 0) hm
      exact ih.call_succ hSetting hm' hEnv hImage hMain h
    · intro m _ _ _ _ _ _ _ _ hm hEnv hImage hCall hMain h
      obtain ⟨m, rfl, hm'⟩ := hFuel (k := 0) hm
      exact ih.effect_succ hm' hEnv hImage hCall hMain h
    · intro m _ _ _ _ _ _ hm hEnv hImage hSafe h
      obtain ⟨m, rfl, hm'⟩ := hFuel hm
      exact ih.stmt_succ hSetting hm' hEnv hImage hSafe h
    · intro m _ _ _ _ _ _ hm hEnv hImage hSafe h
      obtain ⟨m, rfl, hm'⟩ := hFuel hm
      exact ih.alt_succ hm' hEnv hImage hSafe h
    · intro m _ _ _ _ _ _ hm hEnv hImage hSafe h
      obtain ⟨m, rfl, hm'⟩ := hFuel hm
      exact ih.all_succ hm' hEnv hImage hSafe h

/-! ## The beginning of a run -/

section Entry

variable {p : Source.Program} {file : Target.File}

theorem os_mem_imports (hFile : compileProgram Rule.standard p = .ok file) {r : Rule}
    (hHolds : r.holds p) : "os" ∈ file.imports := by
  have hr : r ∈ Rule.standard := by cases r <;> decide
  have hService := (contains_requirements_of_mem hr p).mpr hHolds
  rw [(image_of_compileProgram hFile).1, Requirements.packages_eq]
  cases r with
  | argumentVector => rw [if_pos (.inl hService), List.mem_singleton]
  | mainExit => rw [if_pos (.inr hService), List.mem_singleton]

theorem setting_of_compileProgram (hFile : compileProgram Rule.standard p = .ok file)
    (hMain : ¬ p.Calls "main") : Setting (p.context Rule.standard) p file := by
  obtain ⟨hImports, -, hImages⟩ := image_of_compileProgram hFile
  exact ⟨hImages, hImports, hMain⟩

theorem functionNames_of_images {ctx : Context} {fs : List Source.Function}
    {fs' : List Target.Function} (h : List.Forall₂ (Source.Function.Image ctx) fs fs') :
    fs'.map (·.name) = fs.map (·.name) := by
  induction h with
  | nil => rfl
  | cons hf _ ih => rw [List.map_cons, List.map_cons, ih, hf.name_eq]

theorem Setting.isConsistent {ctx : Context} (hSetting : Setting ctx p file)
    (hNodup : (p.functions.map (·.name)).Nodup) : file.isConsistent := by
  have hReserved : ∀ name ∈ p.functions.map (·.name), name ∉ file.imports := by
    intro name hName hPackage
    obtain ⟨f, hf, rfl⟩ := List.mem_map.mp hName
    obtain ⟨f', -, hImage⟩ := exists_right_of_forall₂ hSetting.images hf
    have hUse := hImage.reservedFunctionUse?
    rw [hSetting.imports] at hPackage
    unfold Context.reservedFunctionUse? Context.reservedUse? at hUse
    grind
  unfold Target.File.isConsistent
  rw [functionNames_of_images hSetting.images]
  simpa [hNodup] using hReserved

theorem Setting.find?_len {ctx : Context} (hSetting : Setting ctx p file)
    (hArguments : ctx.requirements.contains .processArguments) :
    file.functions.find? (·.name == "len") = none := by
  rw [List.find?_eq_none]
  intro f' hf' hName
  obtain ⟨f, -, hImage⟩ := exists_left_of_forall₂ hSetting.images hf'
  have hUse := hImage.reservedFunctionUse?
  rw [← hImage.name_eq, beq_iff_eq.mp hName] at hUse
  unfold Context.reservedFunctionUse? at hUse
  grind

theorem evalExpr_processArguments {env' : Target.Env} (hSees : file.sees env' "os")
    (args : List String) (m : Nat) :
    Target.evalExpr file args (m + 1) env' processArguments = .ok (.vector args) := by
  rw [processArguments, Target.evalExpr_selector, if_pos ⟨hSees, rfl, rfl⟩]

theorem evalExpr_argumentCount {ctx : Context} (hSetting : Setting ctx p file)
    (hArguments : ctx.requirements.contains .processArguments)
    (hImported : "os" ∈ file.imports) {args : List String} (hFits : Source.fits args.length)
    (m : Nat) :
    Target.evalExpr file args (m + 4) [[]] (.call (.ident "len") [processArguments]) =
      .ok (.int args.length) := by
  have hSees : file.sees [[]] "os" := by simp [Target.File.sees, hImported, Scopes.find?]
  have hArgs : Target.evalEach file args (m + 2) [[]] [processArguments] =
      .ok [.vector args] := by
    rw [Target.evalEach_cons, evalExpr_processArguments hSees]
    rfl
  have hCall : Target.callFunction file args (m + 3) [[]] (.ident "len") [processArguments] =
      .ok (some (.int args.length)) := by
    have hCount : Target.wrap args.length = .int args.length := by
      rw [Target.wrap, bmod_of_fits hFits]
    rw [Target.callFunction_ident, hArgs]
    simp [bind, Except.bind, Scopes.find?, hSetting.find?_len hArguments, Target.callBuiltin,
      hCount]
  rw [Target.evalExpr_call, hCall]
  rfl

/-- The bindings at the beginning of `main` declare what the parameters of `main` were. -/
theorem runAll_bindArguments {ctx : Context} (hSetting : Setting ctx p file)
    (hArguments : ctx.requirements.contains .processArguments)
    (hImported : "os" ∈ file.imports) {args : List String} (hFits : Source.fits args.length)
    {count vector : String} (hCount : ctx.Allows count) {frame : Target.Env}
    (hFrame : Scopes.declareAll? [count, vector] [.int args.length, .vector args] [[]] =
      some frame) (body : List Target.Stmt) (m : Nat) :
    Target.runAll file args (m + 7) [[]] (bindArguments count vector ++ body) =
      Target.runAll file args (m + 5) frame body := by
  obtain ⟨env₁, hFirst, hRest⟩ := Option.bind_eq_some_iff.mp hFrame
  obtain ⟨env₂, hSecond, hEq⟩ := Option.bind_eq_some_iff.mp hRest
  cases hEq
  have hSees : file.sees env₁ "os" := by
    have hSame : SameVariables ctx [[(count, none)]] env₁ := by
      cases hFirst
      exact .cons (.cons ⟨rfl, hCount, fun _ h => (nomatch h)⟩ .nil) .nil
    exact hSame.sees hSetting.imports hImported
  have hDefineCount : Target.runStmt file args (m + 6) [[]]
      (.define count (.call (.ident "len") [processArguments])) = .ok (.next env₁) := by
    rw [Target.runStmt_define, evalExpr_argumentCount hSetting hArguments hImported hFits]
    simp only [bind, Except.bind, hFirst, Target.expect]
    rfl
  have hDefineVector : Target.runStmt file args (m + 5) env₁ (.define vector processArguments) =
      .ok (.next frame) := by
    rw [Target.runStmt_define, evalExpr_processArguments hSees]
    simp only [bind, Except.bind, hSecond, Target.expect]
    rfl
  change Target.runAll file args (m + 7) [[]]
    (.define count (.call (.ident "len") [processArguments]) ::
      .define vector processArguments :: body) = _
  rw [Target.runAll_cons, hDefineCount]
  change Target.runAll file args (m + 6) env₁ (.define vector processArguments :: body) = _
  rw [Target.runAll_cons, hDefineVector]
  rfl

/-- Behind the bindings the variables are those with which the source program begins. -/
theorem exists_frame (hFile : compileProgram Rule.standard p = .ok file)
    (hSetting : Setting (p.context Rule.standard) p file) {main : Source.Function}
    (hMain : p.main? = some main) {bindings : List Target.Stmt}
    (hBindings : BindingsImage (p.context Rule.standard) main.params bindings)
    {form : EntryForm} (hForm : EntryForm.of? main = some form) {args : List String}
    {values : List Datum} (hValues : Source.entryValues args form = .ok values)
    {frame : Source.Env}
    (hFrame : Scopes.declareAll? (main.params.map (·.name)) (values.map some) [[]] = some frame)
    (body : List Target.Stmt) :
    ∃ frame', SameVariables (p.context Rule.standard) frame frame' ∧ ∀ m, ∃ k ≥ m + 5,
      Target.runAll file args (m + 7) [[]] (bindings ++ body) =
        Target.runAll file args k frame' body := by
  unfold EntryForm.of? at hForm
  generalize hParams : main.params = params at hBindings hForm hFrame
  cases hBindings with
  | plain =>
    cases hForm
    cases hValues
    cases hFrame
    exact ⟨[[]], .cons .nil .nil, fun m => ⟨m + 7, by omega, rfl⟩⟩
  | @arguments count vector hCountType hVectorType hCount hVector =>
    dsimp only at hForm
    rw [if_pos ⟨hCountType, hVectorType⟩] at hForm
    cases hForm
    obtain ⟨_, hLength, hEq⟩ := bind_eq_ok.mp hValues
    obtain ⟨hFits, rfl⟩ := represent_eq_ok.mp hLength
    cases hEq
    have hAllows : ∀ x ∈ [count.name, vector.name], (p.context Rule.standard).Allows x := by
      simp [hCount, hVector]
    obtain ⟨frame', hFrame', hSame⟩ := SameVariables.frame hAllows hFrame
    have hRule : Rule.argumentVector.holds p := by
      simp [Rule.holds, hMain, Rule.holdsOfMain, EntryForm.of?, hParams, hCountType, hVectorType]
    have hArguments : (p.context Rule.standard).requirements.contains .processArguments :=
      (contains_requirements_of_mem (r := .argumentVector) (by decide) p).mpr hRule
    refine ⟨frame', hSame, fun m => ⟨m + 5, by omega, ?_⟩⟩
    exact runAll_bindArguments hSetting hArguments (os_mem_imports hFile hRule) hFits hCount
      hFrame' body m

theorem safe_main (hFile : compileProgram Rule.standard p = .ok file)
    (hSetting : Setting (p.context Rule.standard) p file) {main : Source.Function}
    (hMain : p.main? = some main) : Safe file true (Source.walkAll main.body.stmts) := by
  intro s hs
  have hWalk := Source.Function.mem_walk_of_stmts hs
  refine ⟨fun hCall => ?_, fun _ hLeaves => ?_⟩
  · exact hSetting.noMain ⟨main, List.mem_of_find?_eq_some hMain, s, hWalk, hCall⟩
  · refine os_mem_imports hFile (r := .mainExit) ?_
    rw [Rule.holds, hMain]
    exact List.any_eq_true.mpr ⟨s, hWalk, hLeaves⟩

end Entry

/-- **Meaning is preserved.** Let a program be accepted and let it contain no call of `main`. If
its run with some process arguments ends with a status, then the run of the compiled program
with these arguments ends with the same status, as soon as it has enough fuel. -/
theorem run_compileProgram {p : Source.Program} {file : Target.File}
    (hFile : compileProgram Rule.standard p = .ok file) (hCalls : ¬ p.Calls "main")
    (args : List String) {fuel : Nat} {status : Int}
    (hRun : Source.run p args fuel = .ok status) :
    ∃ enough, ∀ fuel' ≥ enough, Target.run file args fuel' = .ok status := by
  have hSetting := setting_of_compileProgram hFile hCalls
  unfold Source.run at hRun
  split at hRun
  · cases hRun
  · rename_i hNodup
    obtain ⟨main, hMain, h₁⟩ := bind_eq_ok.mp hRun
    obtain ⟨form, hForm, h₂⟩ := bind_eq_ok.mp h₁
    obtain ⟨values, hValues, h₃⟩ := bind_eq_ok.mp h₂
    obtain ⟨frame, hFrame, h₄⟩ := bind_eq_ok.mp h₃
    obtain ⟨flow, hFlow, hStatus⟩ := bind_eq_ok.mp h₄
    rw [defined_eq_ok] at hMain hForm hFrame
    have hIsMain : main.isMain := List.find?_some (p := Source.Function.isMain) hMain
    obtain ⟨main', hMain', hImage⟩ := hSetting.find?_image (f := "main") hMain
    cases hImage with
    | plain hNotMain => exact absurd hIsMain hNotMain
    | @entry bindings body _ _ _ hBindings hBody =>
      obtain ⟨frame', hSame, hStart⟩ :=
        exists_frame hFile hSetting hMain hBindings hForm hValues hFrame body
      refine ⟨fuel + 7, fun fuel' hEnough => ?_⟩
      obtain ⟨m, rfl⟩ : ∃ m, fuel' = m + 7 := ⟨fuel' - 7, by omega⟩
      obtain ⟨k, hk, hBegin⟩ := hStart m
      have hFuel : fuel + slack true ≤ k := by
        rw [slack, if_pos rfl]
        omega
      have hMatches := (simulates hSetting args fuel).all hFuel hSame hBody
        (safe_main hFile hSetting hMain) hFlow
      rw [Target.run, hMain']
      simp only [hSetting.isConsistent (by simpa using hNodup), hBegin]
      generalize Target.runAll file args k frame' body = outcome at hMatches
      cases hMatches with
      | next =>
        cases hStatus
        rfl
      | leave =>
        cases hStatus
        rfl
      | status =>
        cases hStatus
        rfl
      | vector => cases hStatus

/-- A recursive function, and a `main` that returns from inside a loop. -/
def triangleSource : String :=
  "int sum(int n) \x7b if (n < 1) return 0; int m = n - 1; return n + sum(m); \x7d
  int main(int argc, char **argv) \x7b
    int i = 0;
    int s;
    while (1) \x7b ++i; s = sum(i); if (s % 7 == 0) return s * argc; \x7d
  \x7d"

theorem run_compileProgram_triangleSource :
    ∃ p file, Source.parse "f.c" triangleSource = .ok p ∧
      compileProgram Rule.standard p = .ok file ∧ ¬ p.Calls "main" ∧
      Source.run p ["f", "x"] 80 = .ok 42 ∧
      ∃ enough, ∀ fuel ≥ enough, Target.run file ["f", "x"] fuel = .ok 42 := by
  have hChecked : (Source.parse "f.c" triangleSource).toOption.any fun p =>
      (compileProgram Rule.standard p).toOption.isSome && !decide (p.Calls "main") &&
        (Source.run p ["f", "x"] 80).toOption == some 42 := by decide +kernel
  obtain ⟨p, hParse, hChecked⟩ := exists_eq_ok_of_any hChecked
  obtain ⟨hStatic, hRun⟩ := Bool.and_eq_true_iff.mp hChecked
  obtain ⟨hAccepted, hCalls⟩ := Bool.and_eq_true_iff.mp hStatic
  obtain ⟨file, hFile⟩ := exists_eq_ok hAccepted
  have hCalls : ¬ p.Calls "main" := by simpa using hCalls
  have hRun := eq_ok_of_toOption (beq_iff_eq.mp hRun)
  exact ⟨p, file, hParse, hFile, hCalls, hRun, run_compileProgram hFile hCalls _ hRun⟩

end CToGo
