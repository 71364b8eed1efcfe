import CToGo.Proofs.Sequence
import CToGo.Source.Token
import CToGo.Source.Tree

/-!
# The grammar of source programs

The grammar is a family of relations `Spelled ts x rest`: the tokens `ts` begin with a
spelling of the tree `x`, and `rest` is what follows the spelling. Trees are taken without
their spans (`Expr.bare` and its siblings), and the left recursion of the binary operators is
kept, since it is what makes them group to the left.

* `Expr.Spelled`: expressions, level by level.
* `Stmt.Spelled`, `Block.Spelled`, `Body.Spelled`, `Else.Spelled`: statements. A branch
  without a second alternative is not followed by `else`, so that an `else` belongs to the
  nearest `if`.
* `Function.Spelled`, `Program.Spelled`: functions and whole streams of tokens.
* `Opens`: a spelling begins with one of a few tokens and never takes the end of the file.
-/

namespace CToGo.Source

/-! ## Trees without spans -/

/-- The span of every node of a tree without spans. -/
def nowhere : Span := .point .unknown

mutual

/-- The expression without its spans. -/
def Expr.bare : Expr → Expr
  | .literal value _ => .literal value nowhere
  | .ident name _ => .ident name nowhere
  | .binary op left right _ => .binary op left.bare right.bare nowhere
  | .unary op operand fixity _ => .unary op operand.bare fixity nowhere
  | .call callee args _ => .call callee (bareEach args) nowhere
  | .assign op target value _ => .assign op target value.bare nowhere

def bareEach : List Expr → List Expr
  | [] => []
  | e :: rest => e.bare :: bareEach rest

end

mutual

def Stmt.bare : Stmt → Stmt
  | .declare name type init _ => .declare name type (init.map Expr.bare) nowhere
  | .eval e _ => .eval e.bare nowhere
  | .branch condition thenBlock elseBranch _ =>
    .branch condition.bare thenBlock.bare elseBranch.bare nowhere
  | .loop condition body _ => .loop condition.bare body.bare nowhere
  | .leave value _ => .leave (value.map Expr.bare) nowhere
  | .block body _ => .block body.bare nowhere

def Block.bare : Block → Block
  | .mk stmts _ => .mk (bareAll stmts) nowhere

def Else.bare : Else → Else
  | .none => .none
  | .block body => .block body.bare
  | .chain next => .chain next.bare

def bareAll : List Stmt → List Stmt
  | [] => []
  | s :: rest => s.bare :: bareAll rest

end

def Param.bare (p : Param) : Param := { p with span := nowhere }

def Function.bare (f : Function) : Function :=
  { f with params := f.params.map Param.bare, body := f.body.bare, span := nowhere }

def Program.bare (p : Program) : Program where
  functions := p.functions.map Function.bare
  span := nowhere

theorem bareEach_eq_map (es : List Expr) : bareEach es = es.map Expr.bare := by
  induction es with
  | nil => rfl
  | cons e rest ih => rw [bareEach, ih, List.map_cons]

theorem bareAll_eq_map (ss : List Stmt) : bareAll ss = ss.map Stmt.bare := by
  induction ss with
  | nil => rfl
  | cons s rest ih => rw [bareAll, ih, List.map_cons]

@[simp] theorem Expr.name?_bare (e : Expr) : e.bare.name? = e.name? := by
  cases e <;> rfl

@[simp] theorem Expr.description_bare (e : Expr) : e.bare.description = e.description := by
  cases e <;> rfl

/-- An expression names a variable exactly if it is an identifier. -/
theorem Expr.name?_eq_some {e : Expr} {x : String} :
    e.name? = some x ↔ e.bare = .ident x nowhere := by
  cases e <;> simp [name?, bare]

/-! ## Levels and operators -/

/-- The levels of expressions, from the loosest to the tightest. -/
inductive Level where
  | assignment | equality | relational | additive | multiplicative
  /-- Operators in front of their operand. -/
  | leading
  /-- At most one operator behind its operand. -/
  | trailing
  /-- At most one list of arguments. -/
  | call
  | primary
deriving DecidableEq, Inhabited, Repr

/-- The next tighter level. -/
def Level.tighter? : Level → Option Level
  | assignment => some equality
  | equality => some relational
  | relational => some additive
  | additive => some multiplicative
  | multiplicative => some leading
  | leading => some trailing
  | trailing => some call
  | call => some primary
  | primary => none

/-- The symbol of a binary operator. -/
def binaryMark : BinaryOp → Symbol
  | .add => .plus
  | .sub => .minus
  | .mul => .star
  | .div => .slash
  | .mod => .percent
  | .equal => .equalEqual
  | .notEqual => .bangEqual
  | .less => .less
  | .greater => .greater
  | .lessEqual => .lessEqual
  | .greaterEqual => .greaterEqual

/-- The level on which a binary operator joins its operands. -/
def binaryLevel : BinaryOp → Level
  | .add | .sub => .additive
  | .mul | .div | .mod => .multiplicative
  | .equal | .notEqual => .equality
  | .less | .greater | .lessEqual | .greaterEqual => .relational

/-- The symbol of an assignment operator. -/
def assignMark : AssignOp → Symbol
  | .assign => .equal
  | .addAssign => .plusEqual
  | .subAssign => .minusEqual
  | .mulAssign => .starEqual
  | .divAssign => .slashEqual
  | .modAssign => .percentEqual

/-- The symbol of an operator with one operand. -/
def unaryMark : UnaryOp → Symbol
  | .negate => .minus
  | .increment => .plusPlus
  | .decrement => .minusMinus

/-! ## Sequences -/

/-- A comma and an item. -/
inductive AfterComma {α : Type} (R : List TokenKind → α → List TokenKind → Prop) :
    List TokenKind → α → List TokenKind → Prop where
  | mk {ts rest : List TokenKind} {a : α} :
    R ts a rest → AfterComma R (.symbol .comma :: ts) a rest

/-! ## Expressions -/

/-- An identifier, which may stand in parentheses. -/
inductive Names : List TokenKind → String → List TokenKind → Prop where
  | bare (x : String) (rest : List TokenKind) : Names (.identifier x :: rest) x rest
  | parenthesized {ts rest : List TokenKind} {x : String} :
    Names ts x (.symbol .rightParen :: rest) → Names (.symbol .leftParen :: ts) x rest

mutual

/-- The expressions of each level. -/
inductive Expr.Spelled : Level → List TokenKind → Expr → List TokenKind → Prop where
  | literal (value : Int) (rest : List TokenKind) :
    Expr.Spelled .primary (.literal value :: rest) (.literal value nowhere) rest
  | ident (x : String) (rest : List TokenKind) :
    Expr.Spelled .primary (.identifier x :: rest) (.ident x nowhere) rest
  | parenthesized {ts rest : List TokenKind} {e : Expr} :
    Expr.Spelled .assignment ts e (.symbol .rightParen :: rest) →
    Expr.Spelled .primary (.symbol .leftParen :: ts) e rest
  | call {ts us rest : List TokenKind} {f : String} {args : List Expr} :
    Names ts f (.symbol .leftParen :: us) →
    Arguments us args (.symbol .rightParen :: rest) →
    Expr.Spelled .call ts (.call f args nowhere) rest
  | trailing {ts rest : List TokenKind} {op : UnaryOp} {x : String} :
    op ≠ .negate → Names ts x (.symbol (unaryMark op) :: rest) →
    Expr.Spelled .trailing ts (.unary op (.ident x nowhere) .trailing nowhere) rest
  | negate {ts rest : List TokenKind} {e : Expr} :
    Expr.Spelled .leading ts e rest →
    Expr.Spelled .leading (.symbol .minus :: ts) (.unary .negate e .leading nowhere) rest
  | leading {ts rest : List TokenKind} {op : UnaryOp} {x : String} :
    op ≠ .negate → Names ts x rest →
    Expr.Spelled .leading (.symbol (unaryMark op) :: ts)
      (.unary op (.ident x nowhere) .leading nowhere) rest
  /-- The left operand may be joined by an operator of the same level, the right one not. -/
  | binary {l tight : Level} {ts us rest : List TokenKind} {op : BinaryOp} {a b : Expr} :
    binaryLevel op = l → l.tighter? = some tight →
    Expr.Spelled l ts a (.symbol (binaryMark op) :: us) → Expr.Spelled tight us b rest →
    Expr.Spelled l ts (.binary op a b nowhere) rest
  | assign {ts us rest : List TokenKind} {op : AssignOp} {x : String} {e : Expr} :
    Names ts x (.symbol (assignMark op) :: us) → Expr.Spelled .assignment us e rest →
    Expr.Spelled .assignment ts (.assign op x e nowhere) rest
  | tighter {l tight : Level} {ts rest : List TokenKind} {e : Expr} :
    l.tighter? = some tight → Expr.Spelled tight ts e rest → Expr.Spelled l ts e rest

/-- The arguments between the parentheses of a call. -/
inductive Arguments : List TokenKind → List Expr → List TokenKind → Prop where
  | none (rest : List TokenKind) : Arguments rest [] rest
  | some {ts us rest : List TokenKind} {e : Expr} {es : List Expr} :
    Expr.Spelled .assignment ts e us → MoreArguments us es rest →
    Arguments ts (e :: es) rest

/-- The arguments behind the first, each with a comma in front of it. -/
inductive MoreArguments : List TokenKind → List Expr → List TokenKind → Prop where
  | done (rest : List TokenKind) : MoreArguments rest [] rest
  | comma {ts us rest : List TokenKind} {e : Expr} {es : List Expr} :
    Expr.Spelled .assignment ts e us → MoreArguments us es rest →
    MoreArguments (.symbol .comma :: ts) (e :: es) rest

end

/-! ## Declarations -/

/-- The types that a single token names. -/
inductive BaseType : TokenKind → Ty → Prop where
  | int : BaseType (.keyword .kwInt) .int
  | char : BaseType (.keyword .kwChar) .char
  | void : BaseType (.keyword .kwVoid) .void

/-- Stars, each of which makes a pointer type of the type before it. -/
inductive Stars : List TokenKind → Ty → Ty → List TokenKind → Prop where
  | none (ty : Ty) (rest : List TokenKind) : Stars rest ty ty rest
  | star {ts rest : List TokenKind} {base ty : Ty} :
    Stars ts (.pointer base) ty rest → Stars (.symbol .star :: ts) base ty rest

/-- A base type, stars, the declared name and possibly an empty pair of brackets. -/
inductive Declared : List TokenKind → String → Ty → List TokenKind → Prop where
  | plain {k : TokenKind} {ts rest : List TokenKind} {base ty : Ty} {x : String} :
    BaseType k base → Stars ts base ty (.identifier x :: rest) → Declared (k :: ts) x ty rest
  | array {k : TokenKind} {ts rest : List TokenKind} {base ty : Ty} {x : String} :
    BaseType k base →
    Stars ts base ty
      (.identifier x :: .symbol .leftBracket :: .symbol .rightBracket :: rest) →
    Declared (k :: ts) x (.array ty) rest

/-! ## Statements -/

/-- An expression in the parentheses that every condition has. -/
inductive Condition : List TokenKind → Expr → List TokenKind → Prop where
  | mk {ts rest : List TokenKind} {e : Expr} :
    Expr.Spelled .assignment ts e (.symbol .rightParen :: rest) →
    Condition (.symbol .leftParen :: ts) e rest

mutual

/-- The statements. -/
inductive Stmt.Spelled : List TokenKind → Stmt → List TokenKind → Prop where
  | declare {ts rest : List TokenKind} {x : String} {ty : Ty} :
    Declared ts x ty (.symbol .semicolon :: rest) →
    Stmt.Spelled ts (.declare x ty none nowhere) rest
  | define {ts us rest : List TokenKind} {x : String} {ty : Ty} {e : Expr} :
    Declared ts x ty (.symbol .equal :: us) →
    Expr.Spelled .assignment us e (.symbol .semicolon :: rest) →
    Stmt.Spelled ts (.declare x ty (some e) nowhere) rest
  | eval {ts rest : List TokenKind} {e : Expr} :
    Expr.Spelled .assignment ts e (.symbol .semicolon :: rest) →
    Stmt.Spelled ts (.eval e nowhere) rest
  | branch {ts us vs rest : List TokenKind} {e : Expr} {b : Block} {alt : Else} :
    Condition ts e us → Body.Spelled us b vs → Else.Spelled vs alt rest →
    Stmt.Spelled (.keyword .kwIf :: ts) (.branch e b alt nowhere) rest
  | loop {ts us rest : List TokenKind} {e : Expr} {b : Block} :
    Condition ts e us → Body.Spelled us b rest →
    Stmt.Spelled (.keyword .kwWhile :: ts) (.loop e b nowhere) rest
  | leave (rest : List TokenKind) :
    Stmt.Spelled (.keyword .kwReturn :: .symbol .semicolon :: rest) (.leave none nowhere) rest
  | leaveWith {ts rest : List TokenKind} {e : Expr} :
    Expr.Spelled .assignment ts e (.symbol .semicolon :: rest) →
    Stmt.Spelled (.keyword .kwReturn :: ts) (.leave (some e) nowhere) rest
  | block {ts rest : List TokenKind} {b : Block} :
    Block.Spelled ts b rest → Stmt.Spelled ts (.block b nowhere) rest

/-- A sequence of statements in braces. -/
inductive Block.Spelled : List TokenKind → Block → List TokenKind → Prop where
  | mk {ts rest : List TokenKind} {ss : List Stmt} :
    EachSpelled ts ss (.symbol .rightBrace :: rest) →
    Block.Spelled (.symbol .leftBrace :: ts) (.mk ss nowhere) rest

/-- A sequence of statements. -/
inductive EachSpelled : List TokenKind → List Stmt → List TokenKind → Prop where
  | nil (rest : List TokenKind) : EachSpelled rest [] rest
  | cons {ts us rest : List TokenKind} {s : Stmt} {ss : List Stmt} :
    Stmt.Spelled ts s us → EachSpelled us ss rest → EachSpelled ts (s :: ss) rest

/-- The body of a branch or a loop: a block, or one statement that is none and stands for the
block that holds it. -/
inductive Body.Spelled : List TokenKind → Block → List TokenKind → Prop where
  | braced {ts rest : List TokenKind} {b : Block} :
    Block.Spelled ts b rest → Body.Spelled ts b rest
  | single {ts rest : List TokenKind} {s : Stmt} :
    ts.head? ≠ some (.symbol .leftBrace) → Stmt.Spelled ts s rest →
    Body.Spelled ts (.mk [s] nowhere) rest

/-- What follows the first alternative. There is only nothing where no `else` stands. -/
inductive Else.Spelled : List TokenKind → Else → List TokenKind → Prop where
  | none {rest : List TokenKind} :
    rest.head? ≠ some (.keyword .kwElse) → Else.Spelled rest .none rest
  | block {ts rest : List TokenKind} {b : Block} :
    ts.head? ≠ some (.keyword .kwIf) → Body.Spelled ts b rest →
    Else.Spelled (.keyword .kwElse :: ts) (.block b) rest
  | chain {ts rest : List TokenKind} {s : Stmt} :
    ts.head? = some (.keyword .kwIf) → Stmt.Spelled ts s rest →
    Else.Spelled (.keyword .kwElse :: ts) (.chain s) rest

end

/-! ## Functions and programs -/

/-- A parameter: a declared name. -/
inductive Param.Spelled : List TokenKind → Param → List TokenKind → Prop where
  | mk {ts rest : List TokenKind} {x : String} {ty : Ty} :
    Declared ts x ty rest → Param.Spelled ts ⟨x, ty, nowhere⟩ rest

/-- The parameters between the parentheses, with the parenthesis that closes them. -/
inductive Params : List TokenKind → List Param → List TokenKind → Prop where
  | none (rest : List TokenKind) : Params (.symbol .rightParen :: rest) [] rest
  | void (rest : List TokenKind) :
    Params (.keyword .kwVoid :: .symbol .rightParen :: rest) [] rest
  | some {ts us rest : List TokenKind} {p : Param} {ps : List Param} :
    Param.Spelled ts p us →
    Repeated (AfterComma Param.Spelled) us ps (.symbol .rightParen :: rest) →
    Params ts (p :: ps) rest

/-- The definition of a function. -/
inductive Function.Spelled : List TokenKind → Function → List TokenKind → Prop where
  | mk {k : TokenKind} {ts us vs rest : List TokenKind} {base ty : Ty} {f : String}
    {ps : List Param} {b : Block} :
    BaseType k base → Stars ts base ty (.identifier f :: .symbol .leftParen :: us) →
    Params us ps vs → Block.Spelled vs b rest →
    Function.Spelled (k :: ts) ⟨f, ps, ty, b, nowhere⟩ rest

/-- A whole stream of tokens: functions up to the end of the file. -/
def Program.Spelled (ts : List TokenKind) (p : Program) : Prop :=
  Repeated Function.Spelled ts p.functions [.endOfFile] ∧ p.span = nowhere

/-! ## First tokens -/

/-- The tokens `rest` are left when some of `ts` have been read, none of them the end of the
file. -/
inductive Passes : List TokenKind → List TokenKind → Prop where
  | refl (rest : List TokenKind) : Passes rest rest
  | cons {k : TokenKind} {ts rest : List TokenKind} :
    k ≠ .endOfFile → Passes ts rest → Passes (k :: ts) rest

namespace Passes

theorem trans {ts us rest : List TokenKind} (h₁ : Passes ts us) (h₂ : Passes us rest) :
    Passes ts rest := by
  induction h₁ with
  | refl _ => exact h₂
  | cons hk _ ih => exact .cons hk (ih h₂)

theorem tail {k : TokenKind} {ts rest : List TokenKind} (h : Passes ts (k :: rest))
    (hk : k ≠ .endOfFile) : Passes ts rest :=
  h.trans (.cons hk (.refl rest))

theorem length_le {ts rest : List TokenKind} (h : Passes ts rest) :
    rest.length ≤ ts.length := by
  induction h with
  | refl _ => exact Nat.le_refl _
  | cons _ _ ih => exact Nat.le_succ_of_le ih

/-- What is passed over and what is left make up the whole. -/
theorem exists_append {ts rest : List TokenKind} (h : Passes ts rest) :
    ∃ used, .endOfFile ∉ used ∧ ts = used ++ rest := by
  induction h with
  | refl rest => exact ⟨[], by simp, rfl⟩
  | @cons k _ _ hk _ ih =>
    obtain ⟨used, hUsed, rfl⟩ := ih
    exact ⟨k :: used, by simp [hUsed, Ne.symm hk], rfl⟩

end Passes

/-- The tokens `ts` begin with one for which `P` holds, and `rest` is left when it and
possibly more have been read, none of them the end of the file. -/
def Opens (P : TokenKind → Bool) (ts rest : List TokenKind) : Prop :=
  ∃ k us, ts = k :: us ∧ P k ∧ k ≠ .endOfFile ∧ Passes us rest

namespace Opens

variable {P Q : TokenKind → Bool} {ts us rest : List TokenKind}

theorem passes (h : Opens P ts rest) : Passes ts rest := by
  obtain ⟨k, us, rfl, -, hk, hus⟩ := h
  exact .cons hk hus

theorem length_lt (h : Opens P ts rest) : rest.length < ts.length := by
  obtain ⟨k, us, rfl, -, -, hus⟩ := h
  exact Nat.lt_succ_of_le hus.length_le

theorem head (h : Opens P ts rest) : ∃ k, ts.head? = some k ∧ P k := by
  obtain ⟨k, us, rfl, hP, -, -⟩ := h
  exact ⟨k, rfl, hP⟩

theorem mono (h : Opens P ts rest) (hPQ : ∀ k, P k → Q k) : Opens Q ts rest := by
  obtain ⟨k, us, rfl, hP, hk, hus⟩ := h
  exact ⟨k, us, rfl, hPQ k hP, hk, hus⟩

theorem trans (h₁ : Opens P ts us) (h₂ : Passes us rest) : Opens P ts rest := by
  obtain ⟨k, vs, rfl, hP, hk, hvs⟩ := h₁
  exact ⟨k, vs, rfl, hP, hk, hvs.trans h₂⟩

theorem tail {k : TokenKind} (h : Opens P ts (k :: rest)) (hk : k ≠ .endOfFile) :
    Opens P ts rest :=
  h.trans (.cons hk (.refl rest))

end Opens

/-- The tokens that an operand without an operator in front of it begins with. -/
def startsOperand : TokenKind → Bool
  | .literal _ | .identifier _ | .symbol .leftParen => true
  | _ => false

/-- The tokens that an expression begins with. -/
def startsExpr : TokenKind → Bool
  | .symbol .minus | .symbol .plusPlus | .symbol .minusMinus => true
  | k => startsOperand k

/-- The tokens that an expression of a level begins with. -/
def Level.starts : Level → TokenKind → Bool
  | .trailing | .call | .primary => startsOperand
  | _ => startsExpr

/-- The tokens that a statement begins with. -/
def startsStmt : TokenKind → Bool
  | .symbol .leftBrace | .keyword .kwIf | .keyword .kwWhile | .keyword .kwReturn => true
  | k => k.isTypeSpecifier || startsExpr k

theorem startsExpr_of_startsOperand {k : TokenKind} (h : startsOperand k) : startsExpr k := by
  unfold startsExpr
  split <;> simp_all

theorem Level.starts_of_tighter {l tight : Level} (hl : l.tighter? = some tight) (k : TokenKind)
    (h : tight.starts k) : l.starts k := by
  cases l <;> cases hl <;> first | exact h | exact startsExpr_of_startsOperand h

theorem startsStmt_of_startsExpr (k : TokenKind) (h : startsExpr k) : startsStmt k := by
  unfold startsStmt
  split <;> simp_all

theorem Names.opens {ts rest : List TokenKind} {x : String} (h : Names ts x rest) :
    Opens startsOperand ts rest := by
  induction h with
  | bare x rest => exact ⟨_, _, rfl, rfl, by simp, .refl rest⟩
  | parenthesized _ ih => exact ⟨_, _, rfl, rfl, by simp, ih.passes.tail (by simp)⟩

mutual

theorem Expr.Spelled.opens {l : Level} {ts rest : List TokenKind} {e : Expr} :
    Expr.Spelled l ts e rest → Opens l.starts ts rest
  | .literal _ rest => ⟨_, _, rfl, rfl, by simp, .refl rest⟩
  | .ident _ rest => ⟨_, _, rfl, rfl, by simp, .refl rest⟩
  | .parenthesized h => ⟨_, _, rfl, rfl, by simp, h.opens.passes.tail (by simp)⟩
  | .call hf hargs =>
    (hf.opens.tail (by simp)).trans (hargs.passes.tail (by simp))
  | .trailing _ hx => hx.opens.tail (by simp)
  | .negate h => ⟨_, _, rfl, rfl, by simp, h.opens.passes⟩
  | @Expr.Spelled.leading _ _ op _ hop hx =>
    ⟨_, _, rfl, by cases op <;> rfl, by simp, hx.opens.passes⟩
  | .binary _ _ ha hb => (ha.opens.tail (by simp)).trans hb.opens.passes
  | .assign hx he =>
    ((hx.opens.tail (by simp)).mono fun _ => startsExpr_of_startsOperand).trans he.opens.passes
  | .tighter hl h => h.opens.mono (Level.starts_of_tighter hl)

theorem Arguments.passes {ts rest : List TokenKind} {es : List Expr} :
    Arguments ts es rest → Passes ts rest
  | .none rest => .refl rest
  | .some h hs => h.opens.passes.trans hs.passes

theorem MoreArguments.passes {ts rest : List TokenKind} {es : List Expr} :
    MoreArguments ts es rest → Passes ts rest
  | .done rest => .refl rest
  | .comma h hs => .cons (by simp) (h.opens.passes.trans hs.passes)

end

theorem BaseType.isTypeSpecifier {k : TokenKind} {ty : Ty} (h : BaseType k ty) :
    k.isTypeSpecifier := by
  cases h <;> rfl

theorem BaseType.ne_endOfFile {k : TokenKind} {ty : Ty} (h : BaseType k ty) :
    k ≠ .endOfFile := by
  cases h <;> simp

theorem Stars.passes {ts rest : List TokenKind} {base ty : Ty} (h : Stars ts base ty rest) :
    Passes ts rest := by
  induction h with
  | none _ rest => exact .refl rest
  | star _ ih => exact .cons (by simp) ih

theorem Declared.opens {ts rest : List TokenKind} {x : String} {ty : Ty}
    (h : Declared ts x ty rest) : Opens TokenKind.isTypeSpecifier ts rest := by
  cases h with
  | plain hk hs =>
    exact ⟨_, _, rfl, hk.isTypeSpecifier, hk.ne_endOfFile, hs.passes.tail (by simp)⟩
  | array hk hs =>
    have hBracket := ((hs.passes.tail (by simp)).tail (by simp)).tail (by simp)
    exact ⟨_, _, rfl, hk.isTypeSpecifier, hk.ne_endOfFile, hBracket⟩

theorem startsStmt_of_isTypeSpecifier (k : TokenKind) (h : k.isTypeSpecifier) :
    startsStmt k := by
  unfold startsStmt
  split <;> simp_all

theorem Condition.passes {ts rest : List TokenKind} {e : Expr} (h : Condition ts e rest) :
    Passes ts rest := by
  cases h with
  | mk h => exact .cons (by simp) (h.opens.passes.tail (by simp))

mutual

theorem Stmt.Spelled.opens {ts rest : List TokenKind} {s : Stmt} :
    Stmt.Spelled ts s rest → Opens startsStmt ts rest
  | .declare h => (h.opens.mono startsStmt_of_isTypeSpecifier).tail (by simp)
  | .define h he =>
    ((h.opens.mono startsStmt_of_isTypeSpecifier).tail (by simp)).trans
      (he.opens.passes.tail (by simp))
  | .eval h => (h.opens.mono startsStmt_of_startsExpr).tail (by simp)
  | .branch he hb halt =>
    ⟨_, _, rfl, rfl, by simp, he.passes.trans (hb.opens.passes.trans halt.passes)⟩
  | .loop he hb => ⟨_, _, rfl, rfl, by simp, he.passes.trans hb.opens.passes⟩
  | .leave rest => ⟨_, _, rfl, rfl, by simp, .cons (by simp) (.refl rest)⟩
  | .leaveWith h => ⟨_, _, rfl, rfl, by simp, h.opens.passes.tail (by simp)⟩
  | .block h => h.opens

theorem Block.Spelled.opens {ts rest : List TokenKind} {b : Block} :
    Block.Spelled ts b rest → Opens startsStmt ts rest
  | .mk h => ⟨_, _, rfl, rfl, by simp, h.passes.tail (by simp)⟩

theorem EachSpelled.passes {ts rest : List TokenKind} {ss : List Stmt} :
    EachSpelled ts ss rest → Passes ts rest
  | .nil rest => .refl rest
  | .cons h hs => h.opens.passes.trans hs.passes

theorem Body.Spelled.opens {ts rest : List TokenKind} {b : Block} :
    Body.Spelled ts b rest → Opens startsStmt ts rest
  | .braced h => h.opens
  | .single _ h => h.opens

theorem Else.Spelled.passes {ts rest : List TokenKind} {alt : Else} :
    Else.Spelled ts alt rest → Passes ts rest
  | .none _ => .refl _
  | .block _ h => .cons (by simp) h.opens.passes
  | .chain _ h => .cons (by simp) h.opens.passes

end

theorem passes_of_repeated {α : Type} {R : List TokenKind → α → List TokenKind → Prop}
    {ts rest : List TokenKind} {as : List α} (hR : ∀ ts a us, R ts a us → Passes ts us)
    (h : Repeated R ts as rest) : Passes ts rest := by
  induction h with
  | nil rest => exact .refl rest
  | cons ha _ ih => exact (hR _ _ _ ha).trans ih

theorem AfterComma.passes {α : Type} {R : List TokenKind → α → List TokenKind → Prop}
    {ts rest : List TokenKind} {a : α} (hR : ∀ ts a us, R ts a us → Passes ts us)
    (h : AfterComma R ts a rest) : Passes ts rest := by
  cases h with
  | mk h => exact .cons (by simp) (hR _ _ _ h)

theorem Param.Spelled.passes {ts rest : List TokenKind} {p : Param}
    (h : Param.Spelled ts p rest) : Passes ts rest := by
  cases h with
  | mk h => exact h.opens.passes

theorem Params.passes {ts rest : List TokenKind} {ps : List Param} (h : Params ts ps rest) :
    Passes ts rest := by
  cases h with
  | none rest => exact .cons (by simp) (.refl rest)
  | void rest => exact .cons (by simp) (.cons (by simp) (.refl rest))
  | some h hs =>
    have hMore := passes_of_repeated
      (fun _ _ _ => AfterComma.passes fun _ _ _ => Param.Spelled.passes) hs
    exact (h.passes.trans hMore).tail (by simp)

theorem Function.Spelled.opens {ts rest : List TokenKind} {f : Function}
    (h : Function.Spelled ts f rest) : Opens TokenKind.isTypeSpecifier ts rest := by
  cases h with
  | mk hk hs hps hb =>
    have hHead := (hs.passes.tail (by simp)).tail (by simp)
    exact ⟨_, _, rfl, hk.isTypeSpecifier, hk.ne_endOfFile,
      hHead.trans (hps.passes.trans hb.opens.passes)⟩

end CToGo.Source
