import CToGo.Diagnostic
import CToGo.Proofs.Grammar.Rules
import CToGo.Source.Parser.Stream

/-!
# Moved trees

What was read from one place is the same as what was read from another, but for its locations.
Here every location of a token, a tree or an error is moved by a function.

* `Token.move`, `Expr.move`, `Stmt.move`, `Function.move`: tokens and trees.
* `Parser.GrammarError.move`, `Diagnostic.move`: errors, and what the user is told of them.
* `Function.move_id`: a tree that is moved nowhere stays the same.
-/

namespace CToGo.Source

/-! ## Tokens and trees -/

def Span.move (σ : Location → Location) (s : Span) : Span := ⟨σ s.start, σ s.stop⟩

/-- The same token at another place. -/
def Token.move (σ : Location → Location) (t : Token) : Token := ⟨t.kind, t.span.move σ⟩

mutual

/-- The same expression at another place. -/
def Expr.move (σ : Location → Location) : Expr → Expr
  | .literal value span => .literal value (span.move σ)
  | .ident name span => .ident name (span.move σ)
  | .binary op left right span => .binary op (left.move σ) (right.move σ) (span.move σ)
  | .unary op operand fixity span => .unary op (operand.move σ) fixity (span.move σ)
  | .call callee args span => .call callee (moveEach σ args) (span.move σ)
  | .assign op target value span => .assign op target (value.move σ) (span.move σ)

def moveEach (σ : Location → Location) : List Expr → List Expr
  | [] => []
  | e :: rest => e.move σ :: moveEach σ rest

end

mutual

/-- The same statement at another place. -/
def Stmt.move (σ : Location → Location) : Stmt → Stmt
  | .declare name type init span => .declare name type (init.map (Expr.move σ)) (span.move σ)
  | .eval e span => .eval (e.move σ) (span.move σ)
  | .branch condition thenBlock elseBranch span =>
    .branch (condition.move σ) (thenBlock.move σ) (elseBranch.move σ) (span.move σ)
  | .loop condition body span => .loop (condition.move σ) (body.move σ) (span.move σ)
  | .leave value span => .leave (value.map (Expr.move σ)) (span.move σ)
  | .block body span => .block (body.move σ) (span.move σ)

def Block.move (σ : Location → Location) : Block → Block
  | .mk stmts span => .mk (moveAll σ stmts) (span.move σ)

def Else.move (σ : Location → Location) : Else → Else
  | .none => .none
  | .block body => .block (body.move σ)
  | .chain next => .chain (next.move σ)

def moveAll (σ : Location → Location) : List Stmt → List Stmt
  | [] => []
  | s :: rest => s.move σ :: moveAll σ rest

end

def Param.move (σ : Location → Location) (p : Param) : Param :=
  { p with span := p.span.move σ }

/-- The same function at another place. -/
def Function.move (σ : Location → Location) (f : Function) : Function :=
  { f with params := f.params.map (Param.move σ), body := f.body.move σ, span := f.span.move σ }

/-- The same program at another place. -/
def Program.move (σ : Location → Location) (p : Program) : Program :=
  { p with functions := p.functions.map (Function.move σ), span := p.span.move σ }

section

variable (σ : Location → Location)

theorem moveEach_eq_map (es : List Expr) : moveEach σ es = es.map (Expr.move σ) := by
  induction es with
  | nil => rfl
  | cons e rest ih => rw [moveEach, ih, List.map_cons]

theorem moveAll_eq_map (ss : List Stmt) : moveAll σ ss = ss.map (Stmt.move σ) := by
  induction ss with
  | nil => rfl
  | cons s rest ih => rw [moveAll, ih, List.map_cons]

@[simp] theorem Expr.name?_move (e : Expr) : (e.move σ).name? = e.name? := by
  cases e <;> rfl

@[simp] theorem Expr.description_move (e : Expr) : (e.move σ).description = e.description := by
  cases e <;> rfl

@[simp] theorem Expr.span_move (e : Expr) : (e.move σ).span = e.span.move σ := by
  cases e <;> rfl

@[simp] theorem Stmt.span_move (s : Stmt) : (s.move σ).span = s.span.move σ := by
  cases s <;> rfl

end

/-! ## Trees that are moved nowhere -/

mutual

theorem Expr.move_id : (e : Expr) → e.move id = e
  | .literal _ _ => rfl
  | .ident _ _ => rfl
  | .binary _ left right _ => by rw [Expr.move, Expr.move_id left, Expr.move_id right]; rfl
  | .unary _ operand _ _ => by rw [Expr.move, Expr.move_id operand]; rfl
  | .call _ args _ => by rw [Expr.move, moveEach_id args]; rfl
  | .assign _ _ value _ => by rw [Expr.move, Expr.move_id value]; rfl

theorem moveEach_id : (es : List Expr) → moveEach id es = es
  | [] => rfl
  | e :: rest => by rw [moveEach, Expr.move_id e, moveEach_id rest]

end

theorem map_move_id (value : Option Expr) : value.map (Expr.move id) = value := by
  cases value with
  | none => rfl
  | some e => exact congrArg some e.move_id

mutual

theorem Stmt.move_id : (s : Stmt) → s.move id = s
  | .declare _ _ init _ => by rw [Stmt.move, map_move_id init]; rfl
  | .eval e _ => by rw [Stmt.move, e.move_id]; rfl
  | .branch condition thenBlock elseBranch _ => by
    rw [Stmt.move, condition.move_id, Block.move_id thenBlock, Else.move_id elseBranch]
    rfl
  | .loop condition body _ => by rw [Stmt.move, condition.move_id, Block.move_id body]; rfl
  | .leave value _ => by rw [Stmt.move, map_move_id value]; rfl
  | .block body _ => by rw [Stmt.move, Block.move_id body]; rfl

theorem Block.move_id : (b : Block) → b.move id = b
  | .mk stmts _ => by rw [Block.move, moveAll_id stmts]; rfl

theorem Else.move_id : (alt : Else) → alt.move id = alt
  | .none => rfl
  | .block body => by rw [Else.move, Block.move_id body]
  | .chain next => by rw [Else.move, Stmt.move_id next]

theorem moveAll_id : (ss : List Stmt) → moveAll id ss = ss
  | [] => rfl
  | s :: rest => by rw [moveAll, Stmt.move_id s, moveAll_id rest]

end

theorem Function.move_id (f : Function) : f.move id = f := by
  obtain ⟨name, params, returns, body, span⟩ := f
  have hParams : params.map (Param.move id) = params := List.map_id params
  rw [Function.move, hParams, Block.move_id]
  rfl

theorem Program.move_id (p : Program) : p.move id = p := by
  obtain ⟨functions, span⟩ := p
  have hFunctions : functions.map (Function.move id) = functions :=
    (List.map_congr_left fun f _ => f.move_id).trans functions.map_id
  rw [Program.move, hFunctions]
  rfl

/-! ## Errors -/

/-- The same error at another place. -/
def Parser.GrammarError.move (σ : Location → Location) : GrammarError → GrammarError
  | unexpectedToken expected token => unexpectedToken expected (token.move σ)
  | unexpectedEnd expected location => unexpectedEnd expected (σ location)
  | unsuitable expected description location => unsuitable expected description (σ location)
  | tooDeep location => tooDeep (σ location)

theorem Parser.GrammarError.move_id (e : GrammarError) : e.move id = e := by
  cases e <;> rfl

end Source

/-- The same diagnostic for another place. -/
def Diagnostic.move (σ : Source.Location → Source.Location) : Diagnostic → Diagnostic
  | lexical reason location => lexical reason (σ location)
  | grammar expected found location => grammar expected found (σ location)
  | lowering construct reason location => lowering construct reason (σ location)
  | file reason => file reason

theorem Source.Parser.GrammarError.toDiagnostic_move (σ : Source.Location → Source.Location)
    (e : Source.Parser.GrammarError) : (e.move σ).toDiagnostic = e.toDiagnostic.move σ := by
  cases e <;> rfl

end CToGo
