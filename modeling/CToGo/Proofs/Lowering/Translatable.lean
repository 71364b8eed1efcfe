import CToGo.Proofs.Lowering.Acceptance

/-!
# Translatable programs

Which programs are compiled with the standard rules, said of the source tree alone: no
condition speaks of lowering, of requirements or of a context.

* `Source.Program.Translatable`: the conditions.
* `processArguments_iff`, `processExit_iff`: what the standard rules find in `main`.
* `compileProgram_accepts_iff`: a program is compiled exactly if it is translatable.
-/

namespace CToGo

namespace Source

/-! ## Conditions -/

def Expr.isAssignment : Expr → Bool
  | .assign .. => true
  | _ => false

/-- Whether the expression steps its operand up or down by one. -/
def Expr.isStep : Expr → Bool
  | .unary op _ _ _ => op != .negate
  | _ => false

def Expr.isCall : Expr → Bool
  | .call .. => true
  | _ => false

namespace Program

/-- The statements of all functions, nested ones included. -/
def stmts (p : Program) : List Stmt := p.functions.flatMap (·.body.walk)

/-- The expressions of all statements, with all their parts. -/
def nodes (p : Program) : List Expr := p.stmts.flatMap fun s => partsOfEach s.exprs

/-- `main` takes the process arguments. -/
def TakesArguments (p : Program) : Prop := ∃ f ∈ p.functions, f.isMain ∧ f.TakesArguments

/-- Somewhere in `main` a value is returned. -/
def ReturnsStatus (p : Program) : Prop :=
  ∃ f ∈ p.functions, f.isMain ∧ ∃ e span, Stmt.leave (some e) span ∈ f.body.walk

/-- The name is declared in the program, assigned to or used as a variable. -/
inductive Mentions (p : Program) : String → Prop where
  | function {f : Function} : f ∈ p.functions → Mentions p f.name
  | param {f : Function} {x : Param} : f ∈ p.functions → x ∈ f.params → Mentions p x.name
  | declared {x : String} {ty : Ty} {init : Option Expr} {span : Span} :
    Stmt.declare x ty init span ∈ p.stmts → Mentions p x
  | target {op : AssignOp} {x : String} {e : Expr} {span : Span} :
    Expr.assign op x e span ∈ p.nodes → Mentions p x
  | ident {x : String} {span : Span} : Expr.ident x span ∈ p.nodes → Mentions p x

/-- What a program must satisfy to be compiled with the standard rules. -/
structure Translatable (p : Program) : Prop where
  singleMain : (p.functions.filter (·.isMain)).length ≤ 1
  mainParams : ∀ f ∈ p.functions, f.isMain → f.params = [] ∨ f.TakesArguments
  otherParams : ∀ f ∈ p.functions, ¬ f.isMain → ∀ x ∈ f.params, x.type = .int
  returns : ∀ f ∈ p.functions, f.returns = .int ∨ f.returns = .void
  locals : ∀ x ty init span, Stmt.declare x ty init span ∈ p.stmts → ty = .int
  callees : ∀ f args span, Expr.call f args span ∈ p.nodes → f ∈ p.functions.map (·.name)
  /-- No assignment and no step stands where its value is used. -/
  effects : ∀ s ∈ p.stmts, ∀ e ∈ partsOfEach s.values, ¬ e.isAssignment ∧ ¬ e.isStep
  /-- What is evaluated for its effect has one. -/
  evaluated : ∀ e span, Stmt.eval e span ∈ p.stmts → e.isAssignment ∨ e.isStep ∨ e.isCall
  stepped : ∀ op e fixity inner span, Stmt.eval (.unary op e fixity inner) span ∈ p.stmts →
    op ≠ .negate → ∃ x innermost, e = .ident x innermost
  names : ∀ x, p.Mentions x →
    x ∉ targetKeywords ∧ x ≠ "_" ∧ (p.TakesArguments ∨ p.ReturnsStatus → x ≠ "os")
  noInit : ∀ f ∈ p.functions, f.name ≠ "init"
  noLen : p.TakesArguments → ∀ f ∈ p.functions, f.name ≠ "len"

end Program

theorem Stmt.mem_parts_iff {s : Stmt} {e : Expr} :
    e ∈ partsOfEach s.exprs ↔ e ∈ partsOfEach s.values ∨ ∃ span, s = .eval e span := by
  cases s with
  | eval x span =>
    have hParts : x.parts = x :: partsOfEach x.operands := by
      cases x <;> simp [Expr.parts, Expr.operands, partsOfEach]
    rw [Stmt.exprs, partsOfEach_singleton, hParts, Stmt.values, List.mem_cons, or_comm]
    simp [eq_comm]
  | _ => simp [Stmt.values]

end Source

/-! ## What the standard rules find -/

section

variable {p : Source.Program}

theorem any_main?_iff (hSingle : (p.functions.filter (·.isMain)).length ≤ 1)
    {P : Source.Function → Bool} :
    p.main?.any P ↔ ∃ f ∈ p.functions, f.isMain ∧ P f := by
  rw [Option.any_eq_true]
  constructor
  · rintro ⟨f, hf, hP⟩
    exact ⟨f, List.mem_of_find?_eq_some hf,
      List.find?_some (p := Source.Function.isMain) hf, hP⟩
  · rintro ⟨f, hf, hMain, hP⟩
    exact ⟨f, Source.Program.main?_eq_some hSingle hf hMain, hP⟩

theorem processArguments_iff (hSingle : (p.functions.filter (·.isMain)).length ≤ 1) :
    (requirements Rule.standard p).contains .processArguments ↔ p.TakesArguments := by
  have hMem : Rule.argumentVector ∈ Rule.standard := by decide
  have hRule := contains_requirements_of_mem hMem p
  have hForm (f : Source.Function) :
      Rule.argumentVector.holdsOfMain f ↔ f.TakesArguments := by
    rw [← Source.entryForm_arguments_iff, Rule.holdsOfMain]
    split <;> simp_all
  rw [Rule.holds, any_main?_iff hSingle] at hRule
  simp only [hForm] at hRule
  exact hRule

theorem processExit_iff (hSingle : (p.functions.filter (·.isMain)).length ≤ 1) :
    (requirements Rule.standard p).contains .processExit ↔ p.ReturnsStatus := by
  have hMem : Rule.mainExit ∈ Rule.standard := by decide
  have hRule := contains_requirements_of_mem hMem p
  have hLeaves (s : Source.Stmt) : s.leavesWithValue ↔ ∃ e span, s = .leave (some e) span := by
    unfold Source.Stmt.leavesWithValue
    split <;> simp_all
  rw [Rule.holds, any_main?_iff hSingle] at hRule
  simp only [Rule.holdsOfMain, List.any_eq_true, hLeaves] at hRule
  refine hRule.trans ⟨?_, ?_⟩
  · rintro ⟨f, hf, hMain, _, hs, e, span, rfl⟩
    exact ⟨f, hf, hMain, e, span, hs⟩
  · rintro ⟨f, hf, hMain, e, span, hs⟩
    exact ⟨f, hf, hMain, _, hs, e, span, rfl⟩

theorem Requirements.mem_packages {s : Requirements} {x : String} :
    x ∈ s.packages ↔ (s.contains .processArguments ∨ s.contains .processExit) ∧ x = "os" := by
  rw [Requirements.packages_eq]
  by_cases h : s.contains .processArguments ∨ s.contains .processExit
  · simp [h]
  · simp [h]

theorem allows_iff (hSingle : (p.functions.filter (·.isMain)).length ≤ 1) {x : String} :
    (p.context Rule.standard).Allows x ↔
      x ∉ targetKeywords ∧ x ≠ "_" ∧ (p.TakesArguments ∨ p.ReturnsStatus → x ≠ "os") := by
  have hPackages : x ∈ (p.context Rule.standard).requirements.packages ↔
      (p.TakesArguments ∨ p.ReturnsStatus) ∧ x = "os" := by
    rw [← processArguments_iff hSingle, ← processExit_iff hSingle]
    exact Requirements.mem_packages
  rw [Context.allows_iff, hPackages, not_and]

theorem allowsFunction_iff (hSingle : (p.functions.filter (·.isMain)).length ≤ 1) {x : String} :
    (p.context Rule.standard).reservedFunctionUse? x = none ↔
      (p.context Rule.standard).Allows x ∧ x ≠ "init" ∧ (p.TakesArguments → x ≠ "len") := by
  rw [Context.reservedFunctionUse?_eq_none, ← processArguments_iff hSingle]
  rfl

end

/-! ## Compiled programs -/

theorem Source.Program.mem_stmts {p : Source.Program} {s : Source.Stmt} :
    s ∈ p.stmts ↔ ∃ f ∈ p.functions, s ∈ f.body.walk := List.mem_flatMap

theorem Source.Program.mem_nodes {p : Source.Program} {e : Source.Expr} :
    e ∈ p.nodes ↔ ∃ s ∈ p.stmts, e ∈ partsOfEach s.values ∨ ∃ span, s = .eval e span := by
  simp [nodes, Stmt.mem_parts_iff]

section

variable {p : Source.Program} (hSingle : (p.functions.filter (·.isMain)).length ≤ 1)

include hSingle

theorem translatable_of_fits (h : ∀ f ∈ p.functions, f.Fits (p.context Rule.standard)) :
    p.Translatable := by
  have hStmts : ∀ s ∈ p.stmts, s.Fits (p.context Rule.standard) := by
    intro s hs
    obtain ⟨f, hf, hs⟩ := Source.Program.mem_stmts.mp hs
    exact (h f hf).body s hs
  refine ⟨hSingle, fun f hf => (h f hf).entry, fun f hf => (h f hf).types,
    fun f hf => (h f hf).returns, ?_, ?_, ?_, ?_, ?_, ?_, ?_, ?_⟩
  · intro x ty init span hs
    exact (hStmts _ hs).1.1
  · intro f args span he
    obtain ⟨s, hs, he | ⟨_, rfl⟩⟩ := Source.Program.mem_nodes.mp he
    · exact (hStmts s hs).2 _ he
    · exact (hStmts _ hs).1
  · intro s hs e he
    have hFits := (hStmts s hs).2 e he
    cases e <;> simp_all [Source.Expr.Fits, Source.Expr.isAssignment, Source.Expr.isStep]
  · intro e span hs
    have hFits := (hStmts _ hs).1
    cases e <;> simp_all [Source.Expr.FitsAsEffect, Source.Expr.isAssignment,
      Source.Expr.isStep, Source.Expr.isCall]
  · intro op e fixity inner span hs _
    exact (hStmts _ hs).1.2
  · intro x hx
    rw [← allows_iff hSingle]
    cases hx with
    | function hf => exact ((allowsFunction_iff hSingle).mp (h _ hf).name).1
    | param hf hx => exact (h _ hf).params _ hx
    | declared hs => exact (hStmts _ hs).1.2
    | target he =>
      obtain ⟨s, hs, he | ⟨_, rfl⟩⟩ := Source.Program.mem_nodes.mp he
      · exact ((hStmts s hs).2 _ he).elim
      · exact (hStmts _ hs).1
    | ident he =>
      obtain ⟨s, hs, he | ⟨_, rfl⟩⟩ := Source.Program.mem_nodes.mp he
      · exact (hStmts s hs).2 _ he
      · exact (hStmts _ hs).1.elim
  · intro f hf
    exact ((allowsFunction_iff hSingle).mp (h f hf).name).2.1
  · intro hTakes f hf
    exact ((allowsFunction_iff hSingle).mp (h f hf).name).2.2 hTakes

omit hSingle in
theorem Source.Program.Translatable.expr_fits (h : p.Translatable) {s : Source.Stmt}
    (hs : s ∈ p.stmts) {e : Source.Expr} (he : e ∈ Source.partsOfEach s.values) :
    e.Fits (p.context Rule.standard) := by
  have hNode : e ∈ p.nodes := Source.Program.mem_nodes.mpr ⟨s, hs, .inl he⟩
  obtain ⟨hAssign, hStep⟩ := h.effects s hs e he
  cases e with
  | literal value span => trivial
  | ident x span => exact (allows_iff h.singleMain).mpr (h.names x (.ident hNode))
  | binary op a b span => trivial
  | unary op e fixity span =>
    have hOp : op = .negate := by simpa [Source.Expr.isStep] using hStep
    exact hOp
  | call f args span => exact h.callees f args span hNode
  | assign op x e span => exact absurd rfl hAssign

omit hSingle in
theorem Source.Program.Translatable.stmt_fits (h : p.Translatable) {s : Source.Stmt}
    (hs : s ∈ p.stmts) : s.Fits (p.context Rule.standard) := by
  refine ⟨?_, fun e he => h.expr_fits hs he⟩
  cases s with
  | declare x ty init span =>
    exact ⟨h.locals x ty init span hs, (allows_iff h.singleMain).mpr (h.names x (.declared hs))⟩
  | eval e span =>
    have hNode : e ∈ p.nodes := Source.Program.mem_nodes.mpr ⟨_, hs, .inr ⟨span, rfl⟩⟩
    have hEffect := h.evaluated e span hs
    cases e with
    | assign op x e inner => exact (allows_iff h.singleMain).mpr (h.names x (.target hNode))
    | unary op e fixity inner =>
      have hOp : op ≠ .negate := by
        simpa [Source.Expr.isAssignment, Source.Expr.isStep, Source.Expr.isCall] using hEffect
      exact ⟨hOp, h.stepped op e fixity inner span hs hOp⟩
    | call f args inner => exact h.callees f args inner hNode
    | _ => simp [Source.Expr.isAssignment, Source.Expr.isStep, Source.Expr.isCall] at hEffect
  | _ => trivial

omit hSingle in
theorem Source.Program.Translatable.function_fits (h : p.Translatable) {f : Source.Function}
    (hf : f ∈ p.functions) : f.Fits (p.context Rule.standard) where
  name := (allowsFunction_iff h.singleMain).mpr
    ⟨(allows_iff h.singleMain).mpr (h.names _ (.function hf)), h.noInit f hf,
      fun hTakes => h.noLen hTakes f hf⟩
  returns := h.returns f hf
  entry := h.mainParams f hf
  types := h.otherParams f hf
  params _ hx := (allows_iff h.singleMain).mpr (h.names _ (.param hf hx))
  body _ hs := h.stmt_fits (Source.Program.mem_stmts.mpr ⟨f, hf, hs⟩)

end

/-- **Accepted programs.** With the standard rules a program of any shape is compiled exactly if
it is translatable. -/
theorem compileProgram_accepts_iff (p : Source.Program) :
    (∃ file, compileProgram Rule.standard p = .ok file) ↔ p.Translatable := by
  change Accepted (p.lower (requirements Rule.standard p)) ↔ _
  rw [Source.Program.accepted_iff]
  constructor
  · rintro ⟨hSingle, hFits⟩
    exact translatable_of_fits hSingle hFits
  · intro h
    exact ⟨h.singleMain, fun f hf => h.function_fits hf⟩

end CToGo
