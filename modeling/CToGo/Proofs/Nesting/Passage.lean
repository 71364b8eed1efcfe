import CToGo.Proofs.Grammar.Programs

/-!
# What parsers leave behind

Whether it succeeds or fails, a parser leaves a stream behind. What holds between the stream
before and the stream after a run is decided by the steps alone: it is enough that it holds of
a token that is read, of a payment and of a refund.

* `Passage R`, `PaidPassage R`: `R` holds of the steps of a run.
* `Keeps R p`: `R` holds of whatever `p` leaves behind.
* `statement_keeps`, `program_keeps`, ...: every parser keeps what its steps keep.
* `Call`, `Reachable`: the streams that calls of parsers lead to, one after the other.
-/

namespace CToGo.Source.Parser

/-- The stream that a run leaves behind, whether it succeeds or fails. -/
def streamAfter {α : Type} (p : Parser α) (s : Stream) : Stream :=
  match p s with
  | .ok _ t => t
  | .error _ t => t

theorem get_eq (s : Stream) : (get : Parser Stream) s = .ok s s := rfl

/-- A payment goes through exactly if the budget is large enough. -/
theorem spend_eq (cost : Nat) (s : Stream) :
    spend cost s = if s.budget < cost then .error (.tooDeep s.location) s
      else .ok () { s with budget := s.budget - cost } := by
  simp only [spend, bind, EStateM.bind, get_eq]
  split <;> rfl

/-- A relation between an earlier and a later stream that a token read keeps. -/
structure Passage (R : Stream → Stream → Prop) : Prop where
  refl (s : Stream) : R s s
  trans {s t u : Stream} : R s t → R t u → R s u
  tail (s : Stream) : R s s.tail

/-- A relation that payments and refunds keep as well. -/
structure PaidPassage (R : Stream → Stream → Prop) : Prop extends Passage R where
  spend (s : Stream) (cost : Nat) : R s { s with budget := s.budget - cost }
  refund {s t : Stream} : R s t → R s { t with budget := s.budget }

/-- Whatever `p` leaves behind is related to where it began. -/
def Keeps {α : Type} (R : Stream → Stream → Prop) (p : Parser α) : Prop :=
  ∀ s, R s (streamAfter p s)

section

variable {α β : Type} {R : Stream → Stream → Prop} {p : Parser α}

/-! ## Composition -/

theorem keeps_pure (hR : Passage R) (a : α) : Keeps R (pure a) := hR.refl

theorem keeps_throw (hR : Passage R) (e : GrammarError) : Keeps R (throw e : Parser α) := hR.refl

theorem keeps_bind (hR : Passage R) {f : α → Parser β} (hp : Keeps R p)
    (hf : ∀ a, Keeps R (f a)) : Keeps R (p >>= f) := by
  intro s
  have hFirst := hp s
  unfold streamAfter at hFirst ⊢
  simp only [bind, EStateM.bind]
  cases hRun : p s with
  | ok a t =>
    rw [hRun] at hFirst
    exact hR.trans hFirst (hf a t)
  | error e t =>
    rw [hRun] at hFirst
    exact hFirst

/-- A step whose result does not count. -/
theorem keeps_then (hR : Passage R) {step : Parser Unit} (hStep : Keeps R step)
    (hRest : Keeps R p) : Keeps R (do step; p) :=
  keeps_bind hR hStep fun _ => hRest

theorem keeps_map (hR : Passage R) {f : α → β} (hp : Keeps R p) : Keeps R (f <$> p) := by
  rw [map_eq_pure_bind]
  exact keeps_bind hR hp fun a => keeps_pure hR (f a)

theorem keeps_ite {c : Prop} [Decidable c] {q : Parser α} (hThen : Keeps R p)
    (hElse : Keeps R q) : Keeps R (if c then p else q) := by
  split
  · exact hThen
  · exact hElse

/-! ## Steps -/

theorem keeps_get (hR : Passage R) : Keeps R (get : Parser Stream) := hR.refl

theorem keeps_peek? (hR : Passage R) : Keeps R peek? := hR.refl

theorem keeps_isAt (hR : Passage R) (kind : TokenKind) : Keeps R (isAt kind) := hR.refl

theorem keeps_here (hR : Passage R) : Keeps R here := hR.refl

theorem keeps_unexpected (hR : Passage R) (expected : Expectation) :
    Keeps R (unexpected expected : Parser α) := hR.refl

theorem keeps_advance (hR : Passage R) : Keeps R advance := hR.tail

/-- A node takes its span last. -/
theorem keeps_spanned (hR : Passage R) (start : Location) (f : Span → α) :
    Keeps R (do return f (← spanFrom start)) := hR.refl

theorem keeps_spend (hR : PaidPassage R) (cost : Nat) : Keeps R (spend cost) := by
  intro s
  rw [streamAfter, spend_eq]
  split
  · next h =>
    split at h
    · cases h
    · cases h
      exact hR.spend s cost
  · next h =>
    split at h
    · cases h
      exact hR.refl s
    · cases h

theorem keeps_refunding (hR : PaidPassage R) (hp : Keeps R p) : Keeps R (refunding p) := by
  intro s
  have hFirst := hp s
  unfold streamAfter at hFirst ⊢
  simp only [refunding, bind, EStateM.bind, get_eq]
  cases hRun : p s with
  | ok a t =>
    rw [hRun] at hFirst
    exact hR.refund hFirst
  | error e t =>
    rw [hRun] at hFirst
    exact hFirst

theorem keeps_accept (hR : Passage R) (kind : TokenKind) : Keeps R (accept kind) := by
  refine keeps_bind hR (keeps_isAt hR kind) fun _ => ?_
  exact keeps_ite (keeps_then hR (keeps_advance hR) (keeps_pure hR true)) (keeps_pure hR false)

theorem keeps_expectSymbol (hR : Passage R) (mark : Symbol) (context : String) :
    Keeps R (expectSymbol mark context) := by
  refine keeps_bind hR (keeps_isAt hR _) fun _ => ?_
  exact keeps_ite (keeps_advance hR) (keeps_unexpected hR _)

theorem keeps_identifier (hR : Passage R) (context : String) : Keeps R (identifier context) := by
  refine keeps_bind hR (keeps_peek? hR) fun _ => ?_
  split
  · exact keeps_then hR (keeps_advance hR) (keeps_pure hR _)
  · exact keeps_unexpected hR _

/-! ## Repetition -/

theorem keeps_many (hR : Passage R) (next? : Stream → Option β) {item : β → Parser α}
    (hItem : ∀ b, Keeps R (item b)) : Keeps R (many next? item) := by
  refine keeps_bind hR (keeps_get hR) fun s => ?_
  generalize s.tokens = bound
  induction bound with
  | nil => exact keeps_pure hR []
  | cons _ bound ih =>
    refine keeps_bind hR (keeps_get hR) fun t => ?_
    split
    · exact keeps_pure hR []
    · refine keeps_bind hR (hItem _) fun a => ?_
      exact keeps_bind hR ih fun as => keeps_pure hR (a :: as)

theorem keeps_manyWhile (hR : Passage R) (more : Stream → Bool) (hp : Keeps R p) :
    Keeps R (manyWhile more p) :=
  keeps_many hR _ fun _ => hp

theorem keeps_commaSeparated (hR : Passage R) (hp : Keeps R p) :
    Keeps R (commaSeparated p) := by
  refine keeps_bind hR hp fun first => ?_
  refine keeps_bind hR (keeps_manyWhile hR _ (keeps_then hR (keeps_advance hR) hp)) fun rest => ?_
  exact keeps_pure hR (first :: rest)

end

section

variable {R : Stream → Stream → Prop}

/-! ## Declarators and parameters

These spend nothing, so a relation that payments break is kept as well. -/

theorem typeSpecifier_keeps (hR : Passage R) : Keeps R typeSpecifier := by
  refine keeps_bind hR (keeps_peek? hR) fun _ => ?_
  split
  · exact keeps_then hR (keeps_advance hR) (keeps_pure hR _)
  · exact keeps_unexpected hR _

theorem pointers_keeps (hR : Passage R) (base : Ty) : Keeps R (pointers base) :=
  keeps_bind hR (keeps_manyWhile hR _ (keeps_advance hR)) fun _ => keeps_pure hR _

theorem declarator_keeps (hR : Passage R) (base : Ty) (context : String) :
    Keeps R (declarator base context) := by
  refine keeps_bind hR (pointers_keeps hR base) fun ty => ?_
  refine keeps_bind hR (keeps_identifier hR context) fun name => ?_
  refine keeps_bind hR (keeps_accept hR _) fun _ => ?_
  refine keeps_ite ?_ (keeps_pure hR _)
  exact keeps_then hR (keeps_expectSymbol hR _ _) (keeps_pure hR _)

theorem param_keeps (hR : Passage R) : Keeps R param := by
  refine keeps_bind hR (keeps_here hR) fun start => ?_
  refine keeps_bind hR (typeSpecifier_keeps hR) fun base => ?_
  refine keeps_bind hR (declarator_keeps hR base _) fun _ => ?_
  exact keeps_spanned hR start _

theorem params_keeps (hR : Passage R) : Keeps R params := by
  refine keeps_bind hR (keeps_isAt hR _) fun _ => ?_
  refine keeps_ite (keeps_pure hR []) ?_
  refine keeps_bind hR (keeps_get hR) fun _ => ?_
  refine keeps_ite (keeps_then hR (keeps_advance hR) (keeps_pure hR [])) ?_
  exact keeps_commaSeparated hR (param_keeps hR)

end

section

variable {R : Stream → Stream → Prop} {inner : Parser Expr}

/-! ## Expressions -/

theorem primaryOver_keeps (hR : PaidPassage R) (hInner : Keeps R inner) :
    Keeps R (primaryOver inner) := by
  have hP := hR.toPassage
  refine keeps_bind hP (keeps_here hP) fun start => ?_
  refine keeps_bind hP (keeps_peek? hP) fun _ => ?_
  split
  · exact keeps_then hP (keeps_advance hP) (keeps_spanned hP start _)
  · exact keeps_then hP (keeps_advance hP) (keeps_spanned hP start _)
  · refine keeps_then hP (keeps_spend hR _) ?_
    refine keeps_then hP (keeps_advance hP) ?_
    refine keeps_bind hP hInner fun e => ?_
    exact keeps_then hP (keeps_expectSymbol hP _ _) (keeps_pure hP e)
  · exact keeps_unexpected hP _

theorem callOver_keeps (hR : PaidPassage R) (hInner : Keeps R inner) (callee : Expr) :
    Keeps R (callOver inner callee) := by
  have hP := hR.toPassage
  unfold callOver
  dsimp only
  split
  · exact keeps_throw hP _
  · next name _ =>
    have hClose (es : List Expr) : Keeps R (do
        expectSymbol .rightParen "function call"
        return Expr.call name es (← spanFrom callee.span.start)) :=
      keeps_then hP (keeps_expectSymbol hP _ _) (keeps_spanned hP _ _)
    refine keeps_then hP (keeps_spend hR _) ?_
    refine keeps_then hP (keeps_expectSymbol hP _ _) ?_
    refine keeps_bind hP (keeps_isAt hP _) fun _ => ?_
    refine keeps_ite (hClose []) ?_
    exact keeps_bind hP (keeps_commaSeparated hP hInner) hClose

theorem stepOver_keeps (hP : Passage R) (e : Expr) : Keeps R (stepOver e) := by
  refine keeps_bind hP (keeps_peek? hP) fun _ => ?_
  split
  · exact keeps_pure hP e
  · split
    · exact keeps_throw hP _
    · exact keeps_then hP (keeps_advance hP) (keeps_spanned hP _ _)

theorem suffixedOver_keeps (hR : PaidPassage R) (hInner : Keeps R inner) :
    Keeps R (suffixedOver inner) := by
  have hP := hR.toPassage
  rw [suffixedOver_eq]
  refine keeps_bind hP (primaryOver_keeps hR hInner) fun head => ?_
  refine keeps_bind hP (keeps_isAt hP _) fun _ => ?_
  refine keeps_ite ?_ (stepOver_keeps hP head)
  exact keeps_bind hP (callOver_keeps hR hInner head) (stepOver_keeps hP)

theorem unaryWithin_keeps (hR : PaidPassage R) (hInner : Keeps R inner) (n : Nat) :
    Keeps R (unaryWithin inner n) := by
  have hP := hR.toPassage
  induction n with
  | zero => exact keeps_bind hP (keeps_here hP) fun _ => keeps_throw hP _
  | succ n ih =>
    refine keeps_bind hP (keeps_here hP) fun start => ?_
    refine keeps_bind hP (keeps_peek? hP) fun _ => ?_
    split
    · exact suffixedOver_keeps hR hInner
    · refine keeps_then hP (keeps_spend hR _) ?_
      refine keeps_then hP (keeps_advance hP) ?_
      refine keeps_bind hP ih fun operand => ?_
      exact keeps_ite (keeps_throw hP _) (keeps_pure hP _)

theorem unaryOver_keeps (hR : PaidPassage R) (hInner : Keeps R inner) :
    Keeps R (unaryOver inner) :=
  keeps_bind hR.toPassage (keeps_get hR.toPassage) fun _ => unaryWithin_keeps hR hInner _

theorem chain_keeps (hR : PaidPassage R) (op? : TokenKind → Option BinaryOp)
    {operand : Parser Expr} (hOperand : Keeps R operand) : Keeps R (chain op? operand) := by
  have hP := hR.toPassage
  refine keeps_bind hP hOperand fun first => ?_
  refine keeps_bind hP (keeps_many hP _ fun op => ?_) fun rest => keeps_pure hP _
  refine keeps_then hP (keeps_spend hR _) ?_
  refine keeps_then hP (keeps_advance hP) ?_
  exact keeps_bind hP hOperand fun right => keeps_pure hP _

theorem multiplicativeOver_keeps (hR : PaidPassage R) (hInner : Keeps R inner) :
    Keeps R (multiplicativeOver inner) := chain_keeps hR _ (unaryOver_keeps hR hInner)

theorem additiveOver_keeps (hR : PaidPassage R) (hInner : Keeps R inner) :
    Keeps R (additiveOver inner) := chain_keeps hR _ (multiplicativeOver_keeps hR hInner)

theorem relationalOver_keeps (hR : PaidPassage R) (hInner : Keeps R inner) :
    Keeps R (relationalOver inner) := chain_keeps hR _ (additiveOver_keeps hR hInner)

theorem equalityOver_keeps (hR : PaidPassage R) (hInner : Keeps R inner) :
    Keeps R (equalityOver inner) := chain_keeps hR _ (relationalOver_keeps hR hInner)

theorem assignmentOver_keeps (hR : PaidPassage R) (hInner : Keeps R inner) :
    Keeps R (assignmentOver inner) := by
  have hP := hR.toPassage
  refine keeps_bind hP (equalityOver_keeps hR hInner) fun left => ?_
  refine keeps_bind hP (keeps_peek? hP) fun _ => ?_
  split
  · exact keeps_pure hP left
  · refine keeps_then hP (keeps_advance hP) ?_
    refine keeps_then hP (keeps_spend hR _) ?_
    refine keeps_bind hP hInner fun right => ?_
    split
    · exact keeps_throw hP _
    · exact keeps_pure hP _

theorem expression_keeps (hR : PaidPassage R) : Keeps R expression := by
  have hP := hR.toPassage
  refine keeps_bind hP (keeps_get hP) fun s => ?_
  generalize s.budget + 1 = n
  induction n with
  | zero => exact keeps_bind hP (keeps_here hP) fun _ => keeps_throw hP _
  | succ n ih => exact assignmentOver_keeps hR ih

end

section

variable {R : Stream → Stream → Prop} {inner : Parser Stmt}

/-! ## Statements -/

theorem blockOver_keeps (hR : PaidPassage R) (hInner : Keeps R inner) :
    Keeps R (blockOver inner) := by
  have hP := hR.toPassage
  refine keeps_bind hP (keeps_here hP) fun start => ?_
  refine keeps_bind hP (keeps_refunding hR ?_) fun _ => keeps_spanned hP start _
  refine keeps_then hP (keeps_spend hR _) ?_
  refine keeps_then hP (keeps_expectSymbol hP _ _) ?_
  refine keeps_bind hP (keeps_manyWhile hP _ hInner) fun stmts => ?_
  exact keeps_then hP (keeps_expectSymbol hP _ _) (keeps_pure hP stmts)

theorem bodyOver_keeps (hR : PaidPassage R) (hInner : Keeps R inner) :
    Keeps R (bodyOver inner) := by
  have hP := hR.toPassage
  refine keeps_bind hP (keeps_isAt hP _) fun _ => ?_
  refine keeps_ite (blockOver_keeps hR hInner) ?_
  refine keeps_then hP (keeps_spend hR _) ?_
  exact keeps_bind hP hInner fun _ => keeps_pure hP _

theorem condition_keeps (hR : PaidPassage R) (construct : String) :
    Keeps R (condition construct) := by
  have hP := hR.toPassage
  refine keeps_then hP (keeps_expectSymbol hP _ _) ?_
  refine keeps_bind hP (keeps_refunding hR (expression_keeps hR)) fun e => ?_
  exact keeps_then hP (keeps_expectSymbol hP _ _) (keeps_pure hP e)

theorem elseOver_keeps (hR : PaidPassage R) (hInner : Keeps R inner) :
    Keeps R (elseOver inner) := by
  have hP := hR.toPassage
  refine keeps_bind hP (keeps_accept hP _) fun _ => ?_
  refine keeps_ite ?_ (keeps_pure hP _)
  refine keeps_bind hP (keeps_isAt hP _) fun _ => ?_
  refine keeps_ite (keeps_then hP (keeps_spend hR _) ?_) ?_
  · exact keeps_bind hP hInner fun _ => keeps_pure hP _
  · exact keeps_bind hP (bodyOver_keeps hR hInner) fun _ => keeps_pure hP _

theorem branchOver_keeps (hR : PaidPassage R) (hInner : Keeps R inner) :
    Keeps R (branchOver inner) := by
  have hP := hR.toPassage
  refine keeps_bind hP (condition_keeps hR "if") fun e => ?_
  refine keeps_bind hP (bodyOver_keeps hR hInner) fun thenBlock => ?_
  exact keeps_bind hP (elseOver_keeps hR hInner) fun _ => keeps_pure hP _

theorem loopOver_keeps (hR : PaidPassage R) (hInner : Keeps R inner) :
    Keeps R (loopOver inner) := by
  have hP := hR.toPassage
  refine keeps_bind hP (condition_keeps hR "while") fun e => ?_
  exact keeps_bind hP (bodyOver_keeps hR hInner) fun _ => keeps_pure hP _

theorem leave_keeps (hR : PaidPassage R) : Keeps R leave := by
  have hP := hR.toPassage
  have hClose (value : Option Expr) : Keeps R (do
      expectSymbol .semicolon "return statement"
      return Stmt.leave value) :=
    keeps_then hP (keeps_expectSymbol hP _ _) (keeps_pure hP _)
  refine keeps_bind hP (keeps_isAt hP _) fun _ => ?_
  exact keeps_ite (hClose none) (keeps_bind hP (keeps_map hP (expression_keeps hR)) hClose)

theorem declaration_keeps (hR : PaidPassage R) : Keeps R declaration := by
  have hP := hR.toPassage
  refine keeps_bind hP (typeSpecifier_keeps hP) fun base => ?_
  refine keeps_bind hP (declarator_keeps hP base _) fun declared => ?_
  have hClose (init : Option Expr) : Keeps R (do
      expectSymbol .semicolon "variable declaration"
      return Stmt.declare declared.1 declared.2 init) :=
    keeps_then hP (keeps_expectSymbol hP _ _) (keeps_pure hP _)
  refine keeps_bind hP (keeps_accept hP _) fun _ => ?_
  exact keeps_ite (keeps_bind hP (keeps_map hP (expression_keeps hR)) hClose) (hClose none)

theorem evaluation_keeps (hR : PaidPassage R) : Keeps R evaluation := by
  have hP := hR.toPassage
  refine keeps_bind hP (expression_keeps hR) fun e => ?_
  exact keeps_then hP (keeps_expectSymbol hP _ _) (keeps_pure hP _)

theorem formOver_keeps (hR : PaidPassage R) (hInner : Keeps R inner) :
    Keeps R (formOver inner) := by
  have hP := hR.toPassage
  refine keeps_bind hP (keeps_peek? hP) fun _ => ?_
  split
  · exact keeps_bind hP (blockOver_keeps hR hInner) fun _ => keeps_pure hP _
  · exact keeps_then hP (keeps_advance hP) (branchOver_keeps hR hInner)
  · exact keeps_then hP (keeps_advance hP) (loopOver_keeps hR hInner)
  · exact keeps_then hP (keeps_advance hP) (leave_keeps hR)
  · exact keeps_ite (declaration_keeps hR) (evaluation_keeps hR)
  · exact evaluation_keeps hR

theorem statementOver_keeps (hR : PaidPassage R) (hInner : Keeps R inner) :
    Keeps R (statementOver inner) := by
  have hP := hR.toPassage
  refine keeps_bind hP (keeps_here hP) fun start => ?_
  refine keeps_bind hP (keeps_refunding hR (formOver_keeps hR hInner)) fun form => ?_
  exact keeps_spanned hP start form

theorem statement_keeps (hR : PaidPassage R) : Keeps R statement := by
  have hP := hR.toPassage
  refine keeps_bind hP (keeps_get hP) fun s => ?_
  generalize s.budget + 1 = n
  induction n with
  | zero => exact keeps_bind hP (keeps_here hP) fun _ => keeps_throw hP _
  | succ n ih => exact statementOver_keeps hR ih

theorem block_keeps (hR : PaidPassage R) : Keeps R block :=
  blockOver_keeps hR (statement_keeps hR)

/-! ## Programs -/

theorem functionHead_keeps (hR : Passage R) : Keeps R functionHead := by
  refine keeps_bind hR (typeSpecifier_keeps hR) fun base => ?_
  refine keeps_bind hR (pointers_keeps hR base) fun returns => ?_
  refine keeps_bind hR (keeps_identifier hR _) fun name => ?_
  refine keeps_then hR (keeps_expectSymbol hR _ _) ?_
  refine keeps_bind hR (params_keeps hR) fun params => ?_
  exact keeps_then hR (keeps_expectSymbol hR _ _) (keeps_pure hR _)

theorem function_keeps (hR : PaidPassage R) : Keeps R function := by
  have hP := hR.toPassage
  rw [function_eq]
  refine keeps_bind hP (keeps_here hP) fun start => ?_
  refine keeps_bind hP (functionHead_keeps hP) fun head => ?_
  refine keeps_bind hP (block_keeps hR) fun body => ?_
  exact keeps_spanned hP start _

theorem program_keeps (hR : PaidPassage R) : Keeps R program := by
  have hP := hR.toPassage
  refine keeps_bind hP (keeps_here hP) fun start => ?_
  refine keeps_bind hP (keeps_manyWhile hP _ (function_keeps hR)) fun functions => ?_
  exact keeps_bind hP (keeps_here hP) fun _ => keeps_pure hP _

end

/-! ## Calls -/

/-- The levels on which an expression can be asked for. -/
inductive Entry where
  | expression | assignment | equality | relational | additive | multiplicative
  | unary | suffixed | primary
deriving DecidableEq, Inhabited, Repr

/-- The parser of the expressions of a level. -/
def Entry.parser : Entry → Parser Expr
  | expression => Parser.expression
  | assignment => Parser.assignment
  | equality => Parser.equality
  | relational => Parser.relational
  | additive => Parser.additive
  | multiplicative => Parser.multiplicative
  | unary => Parser.unary
  | suffixed => Parser.suffixed
  | primary => Parser.primary

/-- What a stream can be asked for. -/
inductive Call where
  | program | function | block | statement
  | expression (entry : Entry)
  | typeSpecifier
  | declarator (base : Ty) (context : String)
deriving DecidableEq, Inhabited, Repr

/-- The stream that a call leaves behind, whether it succeeds or fails. -/
def Call.after : Call → Stream → Stream
  | program => streamAfter Parser.program
  | function => streamAfter Parser.function
  | block => streamAfter Parser.block
  | statement => streamAfter Parser.statement
  | expression entry => streamAfter entry.parser
  | typeSpecifier => streamAfter Parser.typeSpecifier
  | declarator base context => streamAfter (Parser.declarator base context)

/-- The streams that any calls, one after the other, lead to from a list of tokens. -/
inductive Reachable (tokens : List Token) : Stream → Prop where
  | fresh : Reachable tokens (.ofTokens tokens)
  | call {s : Stream} (c : Call) : Reachable tokens s → Reachable tokens (c.after s)

theorem Entry.parser_keeps {R : Stream → Stream → Prop} (hR : PaidPassage R) (entry : Entry) :
    Keeps R entry.parser := by
  have hInner := expression_keeps hR
  cases entry with
  | expression => exact hInner
  | assignment => exact assignmentOver_keeps hR hInner
  | equality => exact equalityOver_keeps hR hInner
  | relational => exact relationalOver_keeps hR hInner
  | additive => exact additiveOver_keeps hR hInner
  | multiplicative => exact multiplicativeOver_keeps hR hInner
  | unary => exact unaryOver_keeps hR hInner
  | suffixed => exact suffixedOver_keeps hR hInner
  | primary => exact primaryOver_keeps hR hInner

theorem Call.after_keeps {R : Stream → Stream → Prop} (hR : PaidPassage R) (c : Call)
    (s : Stream) : R s (c.after s) := by
  cases c with
  | program => exact program_keeps hR s
  | function => exact function_keeps hR s
  | block => exact block_keeps hR s
  | statement => exact statement_keeps hR s
  | expression entry => exact entry.parser_keeps hR s
  | typeSpecifier => exact typeSpecifier_keeps hR.toPassage s
  | declarator base context => exact declarator_keeps hR.toPassage base context s

/-- What the steps of parsers keep holds of every stream that calls lead to. -/
theorem Reachable.keeps {R : Stream → Stream → Prop} (hR : PaidPassage R) {tokens : List Token}
    {s : Stream} (h : Reachable tokens s) : R (.ofTokens tokens) s := by
  induction h with
  | fresh => exact hR.refl _
  | call c _ ih => exact hR.trans ih (c.after_keeps hR _)

end CToGo.Source.Parser
