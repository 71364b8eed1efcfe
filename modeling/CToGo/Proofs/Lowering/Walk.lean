import CToGo.Proofs.Lowering.Acceptance

/-!
# Lowering statement by statement

Walking a body and its image in the same order meets corresponding statements, however deep
they are nested. What becomes of a `return` depends on the function it stands in and on
nothing else: not on its depth, and not on the functions before it.

* `Source.Stmt.Image.lower_eq`: an image is what lowering returns.
* `Corresponds`: a statement and what it becomes, without the statements nested in it.
* `Source.Stmt.Image.corresponds`: the walks of a statement and of its image.
* `lower_statementwise`: accepted programs.
-/

namespace CToGo

open Source (Span)

/-! ## Images are what lowering returns -/

theorem Context.Allows.checkName_eq {ctx : Context} {x : String} (h : ctx.Allows x)
    (l : Source.Location) : ctx.checkName x l = .ok () :=
  Context.checkName_eq_ok.mpr h

mutual

theorem Source.Expr.Image.lower_eq {ctx : Context} {e : Source.Expr} {e' : Target.Expr} :
    e.Image ctx e' → e.lower ctx = .ok e'
  | .literal .. => rfl
  | .ident hx => by
    rw [Source.Expr.lower, hx.checkName_eq]
    rfl
  | .binary ha hb => by
    rw [Source.Expr.lower, ha.lower_eq, hb.lower_eq]
    rfl
  | .negate he => by
    rw [Source.Expr.lower, he.lower_eq]
    rfl
  | .call hf hargs => by
    rw [Source.Expr.lower, if_pos hf, hargs.lower_eq]
    rfl

theorem ImageEach.lower_eq {ctx : Context} {es : List Source.Expr} {es' : List Target.Expr} :
    ImageEach ctx es es' → lowerEach ctx es = .ok es'
  | .nil => rfl
  | .cons he hes => by
    rw [lowerEach, he.lower_eq, hes.lower_eq]
    rfl

end

theorem lower_step {ctx : Context} {inMain : Bool} {op : UnaryOp} {x : String} {fixity : Fixity}
    {innermost inner span : Span} (hop : op ≠ .negate) (hx : ctx.Allows x) :
    Source.Stmt.lower ctx inMain (.eval (.unary op (.ident x innermost) fixity inner) span) =
      .ok (.step x op) := by
  cases op with
  | negate => exact absurd rfl hop
  | _ =>
    simp only [Source.Stmt.lower, Source.Expr.lowerEffect, Source.Expr.name?, hx.checkName_eq]
    rfl

mutual

theorem Source.Stmt.Image.lower_eq {ctx : Context} {inMain : Bool} {s : Source.Stmt}
    {s' : Target.Stmt} : s.Image ctx inMain s' → s.lower ctx inMain = .ok s'
  | .declare hx => by
    rw [Source.Stmt.lower, lowerDeclaration, hx.checkName_eq]
    rfl
  | .define hx he => by
    simp only [Source.Stmt.lower, lowerDeclaration, hx.checkName_eq, he.lower_eq]
    rfl
  | .assign hx he => by
    rw [Source.Stmt.lower, Source.Expr.lowerEffect, hx.checkName_eq, he.lower_eq]
    rfl
  | .step hop hx => lower_step hop hx
  | .call he => by
    rw [Source.Stmt.lower, Source.Expr.lowerEffect, he.lower_eq]
    rfl
  | .branch hc hss hAlt => by
    rw [Source.Stmt.lower, Source.Block.lower, hAlt.lower_eq, hc.lower_eq, hss.lower_eq]
    rfl
  | .loop hc hss => by
    rw [Source.Stmt.lower, Source.Block.lower, hc.lower_eq, hss.lower_eq]
    rfl
  | .leave => rfl
  | .result hMain he => by
    rw [Source.Stmt.lower, lowerLeave, he.lower_eq, hMain]
    rfl
  | .status hMain he => by
    rw [Source.Stmt.lower, lowerLeave, he.lower_eq, hMain]
    rfl
  | .block hss => by
    rw [Source.Stmt.lower, Source.Block.lower, hss.lower_eq]
    rfl

theorem Source.Else.Image.lower_eq {ctx : Context} {inMain : Bool} {alt : Source.Else}
    {alt' : Target.Else} : alt.Image ctx inMain alt' → alt.lower ctx inMain = .ok alt'
  | .none => rfl
  | .block hss => by
    rw [Source.Else.lower, Source.Block.lower, hss.lower_eq]
    rfl
  | .chain hs => by
    rw [Source.Else.lower, hs.lower_eq]
    rfl

theorem ImageAll.lower_eq {ctx : Context} {inMain : Bool} {ss : List Source.Stmt}
    {ss' : List Target.Stmt} : ImageAll ctx inMain ss ss' → lowerAll ctx inMain ss = .ok ss'
  | .nil => rfl
  | .cons hs hss => by
    rw [lowerAll, hs.lower_eq, hss.lower_eq]
    rfl

end

theorem Source.Block.walk_eq (b : Source.Block) : b.walk = Source.walkAll b.stmts := by
  cases b
  rfl

theorem ImageAll.block_lower_eq {ctx : Context} {inMain : Bool} {b : Source.Block}
    {body : List Target.Stmt} (h : ImageAll ctx inMain b.stmts body) :
    b.lower ctx inMain = .ok body := by
  cases b
  exact h.lower_eq

/-! ## Walks -/

namespace Target

mutual

/-- A statement, followed by all statements nested in it in the order of the text. -/
def Stmt.walk : Stmt → List Stmt
  | s@(.branch _ thenBody elseBranch) => s :: (walkAll thenBody ++ elseBranch.walk)
  | s@(.loop _ body) => s :: walkAll body
  | s@(.block body) => s :: walkAll body
  | s => [s]

def Else.walk : Else → List Stmt
  | .none => []
  | .block body => walkAll body
  | .chain next => next.walk

def walkAll : List Stmt → List Stmt
  | [] => []
  | s :: rest => s.walk ++ walkAll rest

end

end Target

/-- Both branches lack a second alternative, or it is a block in both or a branch in both. -/
inductive SameForm : Source.Else → Target.Else → Prop where
  | none : SameForm .none .none
  | block (body : Source.Block) (body' : List Target.Stmt) : SameForm (.block body) (.block body')
  | chain (next : Source.Stmt) (next' : Target.Stmt) : SameForm (.chain next) (.chain next')

/-- A statement and what it becomes, in `main` or elsewhere. Of nested statements nothing is
said. -/
inductive Corresponds (ctx : Context) (inMain : Bool) : Source.Stmt → Target.Stmt → Prop where
  | declare (x : String) (span : Span) :
    Corresponds ctx inMain (.declare x .int none span) (.declare x .int)
  | define {x : String} {e : Source.Expr} {e' : Target.Expr} {span : Span} :
    e.lower ctx = .ok e' →
    Corresponds ctx inMain (.declare x .int (some e) span) (.define x e')
  | assign {op : AssignOp} {x : String} {e : Source.Expr} {e' : Target.Expr}
    {inner span : Span} :
    e.lower ctx = .ok e' →
    Corresponds ctx inMain (.eval (.assign op x e inner) span) (.assign x op e')
  | step {op : UnaryOp} {x : String} {fixity : Fixity} {innermost inner span : Span} :
    op ≠ .negate →
    Corresponds ctx inMain (.eval (.unary op (.ident x innermost) fixity inner) span) (.step x op)
  | call {f : String} {args : List Source.Expr} {e' : Target.Expr} {inner span : Span} :
    Source.Expr.lower ctx (.call f args inner) = .ok e' →
    Corresponds ctx inMain (.eval (.call f args inner) span) (.eval e')
  | branch {c : Source.Expr} {c' : Target.Expr} {b : Source.Block} {b' : List Target.Stmt}
    {alt : Source.Else} {alt' : Target.Else} {span : Span} :
    c.lower ctx = .ok c' → SameForm alt alt' →
    Corresponds ctx inMain (.branch c b alt span) (.branch c' b' alt')
  | loop {c : Source.Expr} {c' : Target.Expr} {b : Source.Block} {b' : List Target.Stmt}
    {span : Span} :
    c.lower ctx = .ok c' → Corresponds ctx inMain (.loop c b span) (.loop c' b')
  | leave (span : Span) : Corresponds ctx inMain (.leave none span) (.leave none)
  | result {e : Source.Expr} {e' : Target.Expr} {span : Span} :
    inMain = false → e.lower ctx = .ok e' →
    Corresponds ctx inMain (.leave (some e) span) (.leave (some e'))
  | status {e : Source.Expr} {e' : Target.Expr} {span : Span} :
    inMain = true → e.lower ctx = .ok e' →
    Corresponds ctx inMain (.leave (some e) span) (.eval (.call (.selector "os" "Exit") [e']))
  | block (b : Source.Block) (b' : List Target.Stmt) (span : Span) :
    Corresponds ctx inMain (.block b span) (.block b')

theorem Source.Else.Image.sameForm {ctx : Context} {inMain : Bool} {alt : Source.Else}
    {alt' : Target.Else} (h : alt.Image ctx inMain alt') : SameForm alt alt' := by
  cases h with
  | none => exact .none
  | block => exact .block _ _
  | chain => exact .chain _ _

mutual

theorem Source.Stmt.Image.corresponds {ctx : Context} {inMain : Bool} {s : Source.Stmt}
    {s' : Target.Stmt} :
    s.Image ctx inMain s' → List.Forall₂ (Corresponds ctx inMain) s.walk s'.walk
  | .declare _ => .cons (.declare _ _) .nil
  | .define _ he => .cons (.define he.lower_eq) .nil
  | .assign _ he => .cons (.assign he.lower_eq) .nil
  | .step hop _ => .cons (.step hop) .nil
  | .call he => .cons (.call he.lower_eq) .nil
  | .branch hc hss hAlt =>
    .cons (.branch hc.lower_eq hAlt.sameForm) (List.rel_append hss.corresponds hAlt.corresponds)
  | .loop hc hss => .cons (.loop hc.lower_eq) hss.corresponds
  | .leave => .cons (.leave _) .nil
  | .result hMain he => .cons (.result hMain he.lower_eq) .nil
  | .status hMain he => .cons (.status hMain he.lower_eq) .nil
  | .block hss => .cons (.block _ _ _) hss.corresponds

theorem Source.Else.Image.corresponds {ctx : Context} {inMain : Bool} {alt : Source.Else}
    {alt' : Target.Else} :
    alt.Image ctx inMain alt' → List.Forall₂ (Corresponds ctx inMain) alt.walk alt'.walk
  | .none => .nil
  | .block hss => hss.corresponds
  | .chain hs => hs.corresponds

theorem ImageAll.corresponds {ctx : Context} {inMain : Bool} {ss : List Source.Stmt}
    {ss' : List Target.Stmt} :
    ImageAll ctx inMain ss ss' →
      List.Forall₂ (Corresponds ctx inMain) (Source.walkAll ss) (Target.walkAll ss')
  | .nil => .nil
  | .cons hs hss => List.rel_append hs.corresponds hss.corresponds

end

/-! ## Functions and programs -/

/-- What an emitted function owes to the function it comes from: only in a `main` that takes the
process arguments two bindings precede the image of the body, and only in `main` a name of the
package `os` occurs. -/
structure Source.Function.Statementwise (ctx : Context) (f : Source.Function)
    (f' : Target.Function) : Prop where
  name : f'.name = f.name
  params : f'.params.map (·.name) = if f.isMain then [] else f.params.map (·.name)
  body : ∃ bindings body, f'.body = bindings ++ body ∧
    (∀ count vector, f.isMain → f.TakesArguments → f.params = [count, vector] →
      bindings = [.define count.name (.call (.ident "len") [.selector "os" "Args"]),
        .define vector.name (.selector "os" "Args")]) ∧
    (¬ (f.isMain ∧ f.TakesArguments) → bindings = []) ∧
    f.body.lower ctx f.isMain = .ok body ∧
    List.Forall₂ (Corresponds ctx f.isMain) f.body.walk (Target.walkAll body)
  elsewhere : ¬ f.isMain → ¬ Target.Names "os" (Target.exprsOf f'.body)

theorem Source.Function.Image.statementwise {ctx : Context} {f : Source.Function}
    {f' : Target.Function} (h : f.Image ctx f') : f.Statementwise ctx f' := by
  have hName := h.name_eq
  have hElsewhere : ¬ f.isMain → ¬ Target.Names "os" (Target.exprsOf f'.body) :=
    fun hMain => h.not_names hMain "os"
  cases h with
  | @entry bindings body hMain _ _ hBindings hBody =>
    refine ⟨hName, by simp [hMain], ⟨bindings, body, rfl, ?_, ?_, ?_, ?_⟩, hElsewhere⟩
    · intro count vector _ _ hParams
      rw [hParams] at hBindings
      cases hBindings with
      | arguments => rfl
    · intro hNot
      generalize hParams : f.params = params at hBindings
      cases hBindings with
      | plain => rfl
      | @arguments count vector hCount hVector =>
        have hVector := Source.isArgumentVector_iff.mp hVector
        exact absurd ⟨hMain, count, vector, hParams, hCount, hVector⟩ hNot
    · rw [hMain]
      exact hBody.block_lower_eq
    · rw [hMain, Source.Block.walk_eq]
      exact hBody.corresponds
  | @plain params result body hMain _ hParams _ hBody =>
    have hMain' : f.isMain = false := by simpa using hMain
    have hNames := (paramNames_of_image hParams).1
    refine ⟨hName, by simpa [hMain'] using hNames, ⟨[], body, rfl, ?_, fun _ => rfl, ?_, ?_⟩,
      hElsewhere⟩
    · intro count vector hIsMain
      exact absurd hIsMain hMain
    · rw [hMain']
      exact hBody.block_lower_eq
    · rw [hMain', Source.Block.walk_eq]
      exact hBody.corresponds

/-- **Position by position.** Whatever is required of an accepted program, its functions and
those of the file are related one by one, and so are the statements of their bodies. -/
theorem lower_statementwise {requirements : Requirements} {p : Source.Program}
    {file : Target.File} (h : p.lower requirements = .ok file) :
    List.Forall₂ (Source.Function.Statementwise ⟨p.functions.map (·.name), requirements⟩)
      p.functions file.functions :=
  (Source.Program.image_of_lower h).2.2.imp fun _ _ hImage => hImage.statementwise

/-- A `main` between two functions that return values, with values returned from a second
alternative and from a loop. -/
def mainBetween : Source.Program where
  functions := [
    { name := "f"
      params := [⟨"n", .int, default⟩]
      returns := .int
      body := .mk [.leave (some (.ident "n" default)) default] default
      span := default },
    { name := "main"
      params := [⟨"n", .int, default⟩, ⟨"v", .array (.pointer .char), default⟩]
      returns := .int
      body := .mk [
        .branch (.ident "n" default) (.mk [.leave none default] default)
          (.chain (.branch (.call "g" [] default)
            (.mk [.leave (some (.call "f" [.ident "n" default] default)) default] default)
            .none default)) default,
        .loop (.ident "n" default) (.mk [.leave (some (.literal 3 default)) default] default)
          default] default
      span := default },
    { name := "g"
      params := []
      returns := .int
      body := .mk [.block (.mk [.leave (some (.literal 2 default)) default] default) default]
        default
      span := default }]
  span := default

theorem lower_statementwise_mainBetween :
    ∃ file, mainBetween.lower .empty = .ok file ∧
      List.Forall₂ (Source.Function.Statementwise ⟨["f", "main", "g"], .empty⟩)
        mainBetween.functions file.functions := by
  obtain ⟨file, hFile⟩ : ∃ file, mainBetween.lower .empty = .ok file :=
    exists_eq_ok (by decide +kernel)
  exact ⟨file, hFile, lower_statementwise hFile⟩

end CToGo
