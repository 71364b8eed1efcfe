import CToGo.Proofs.Locations.Endings
import CToGo.Proofs.Termination.Rounds

/-!
# Every call ends

Each step of a recursion into a nested expression, operand or statement is paid for, and each
iteration of a loop reads a token. So the budget bounds how deep a call goes and the tokens how
often a loop goes round, from every stream: with tokens behind the end of the file, with the end
in the middle, without one, and with whatever budget earlier calls have left.

* `expression_alike`, `statement_alike`, `program_alike`, ...: the parsers leave later streams.
* `Recursions`, `Loops`: what goes round in the parsers, and that it ends.
* `Call.parser_progresses`: a call that succeeds has read a token.
* `calls_end`: **every call ends, and reads some of the tokens in front of the end of the file.**
-/

namespace CToGo.Source.Parser

section

variable {n : Nat}

/-! ## Declarators -/

theorem typeSpecifier_alike : Alike n typeSpecifier typeSpecifier := by
  refine alike_peek? rfl rfl ?_ (alike_unexpected _)
  intro kind
  split
  · exact alike_then alike_advance (alike_pure _)
  · exact alike_unexpected _

theorem pointers_alike (base : Ty) : Alike n (pointers base) (pointers base) := by
  refine alike_bind (alike_manyWhile ?_ alike_advance) fun stars => alike_pure _
  exact fun s => Stream.shown_ne_nil_of_isAt (by simp)

theorem declarator_alike (base : Ty) (context : String) :
    Alike n (declarator base context) (declarator base context) := by
  refine alike_bind (pointers_alike base) fun ty => ?_
  refine alike_bind (alike_identifier context) fun name => ?_
  refine alike_bind (alike_accept (by simp)) fun bracketed => ?_
  split
  · exact alike_then (alike_expectSymbol _ _) (alike_pure _)
  · exact alike_pure _

/-! ## Expressions -/

section

variable {inner inner' self self' : Parser Expr}

theorem primaryOver_alike (hInner : Alike n inner inner') :
    Alike (n + 1) (primaryOver inner) (primaryOver inner') := by
  refine alike_bind alike_here fun start => ?_
  refine alike_peek? rfl rfl ?_ (alike_unexpected _)
  intro kind
  split
  · exact alike_then alike_advance (alike_spanned start _)
  · exact alike_then alike_advance (alike_spanned start _)
  · refine alike_spend_then (by decide) ?_
    refine alike_then alike_advance ?_
    refine alike_bind hInner fun e => ?_
    exact alike_then (alike_expectSymbol _ _) (alike_pure e)
  · exact alike_unexpected _

theorem callOver_alike (hInner : Alike n inner inner') (callee : Expr) :
    Alike (n + 1) (callOver inner callee) (callOver inner' callee) := by
  unfold callOver
  dsimp only
  split
  · exact alike_throw _
  · next name _ =>
    have hClose (es : List Expr) : Alike n
        (do
          expectSymbol .rightParen "function call"
          return Expr.call name es (← spanFrom callee.span.start))
        (do
          expectSymbol .rightParen "function call"
          return Expr.call name es (← spanFrom callee.span.start)) :=
      alike_then (alike_expectSymbol _ _) (alike_spanned _ _)
    refine alike_spend_then (by decide) ?_
    refine alike_then (alike_expectSymbol _ _) ?_
    refine alike_isAt (by simp) (hClose []).relax ?_
    exact alike_bind (alike_commaSeparated hInner) hClose

theorem stepOver_alike (e : Expr) : Alike n (stepOver e) (stepOver e) := by
  refine alike_peek? rfl rfl ?_ (alike_pure e)
  intro kind
  split
  · exact alike_pure e
  · split
    · exact alike_throw _
    · exact alike_then alike_advance (alike_spanned _ _)

theorem suffixedOver_alike (hInner : Alike n inner inner') :
    Alike (n + 1) (suffixedOver inner) (suffixedOver inner') := by
  rw [suffixedOver_eq, suffixedOver_eq]
  refine alike_bind (primaryOver_alike hInner) fun head => ?_
  refine alike_isAt (by simp) ?_ (stepOver_alike head)
  exact (alike_bind (callOver_alike hInner head) stepOver_alike).relax

/-- An operator in front of an operand, which `self` reads, or an expression without one. -/
def unaryRound (inner self : Parser Expr) : Parser Expr := do
  let start ← here
  match (← peek?).bind leadingOp? with
  | none => suffixedOver inner
  | some op =>
    spend operatorCost
    advance
    let operand ← self
    if op ≠ .negate ∧ operand.name? = none then
      throw (.unsuitable (.operandAfter op) operand.description operand.span.start)
    return .unary op operand .leading ⟨start, operand.span.stop⟩

theorem unaryRound_alike (hInner : Alike n inner inner') (hSelf : Alike n self self') :
    Alike (n + 1) (unaryRound inner self) (unaryRound inner' self') := by
  have hSuffixed := suffixedOver_alike hInner
  refine alike_bind alike_here fun start => ?_
  refine alike_peek? rfl rfl ?_ hSuffixed
  intro kind
  split
  · exact hSuffixed.relax
  · refine alike_spend_then (by decide) ?_
    refine alike_then alike_advance ?_
    refine alike_bind hSelf fun operand => ?_
    split
    · exact alike_throw _
    · exact alike_pure _

theorem unaryWithin_alike (hInner : Alike n inner inner') {k : Nat} (hk : k ≤ n + 1) :
    Alike k (unaryWithin inner k) (unaryWithin inner' k) := by
  induction k with
  | zero => exact fun s hs => absurd hs (Nat.not_lt_zero _)
  | succ k ih =>
    exact unaryRound_alike (hInner.mono (Nat.le_of_succ_le_succ hk)) (ih (Nat.le_of_succ_le hk))

theorem unaryOver_alike (hInner : Alike n inner inner') :
    Alike (n + 1) (unaryOver inner) (unaryOver inner') :=
  alike_bounded fun _ => unaryWithin_alike hInner

theorem chain_alike {op? : TokenKind → Option BinaryOp} (hEnd : op? .endOfFile = none)
    {operand operand' : Parser Expr} (hOperand : Alike n operand operand') :
    Alike n (chain op? operand) (chain op? operand') := by
  refine alike_bind hOperand fun first => ?_
  refine alike_bind (alike_many ?_ ?_) fun rest => alike_pure _
  · intro s op hSeen hs
    rcases Stream.peek?_of_shown_eq_nil hs with hPeek | hPeek
    · simp [hPeek] at hSeen
    · simp [hPeek, hEnd] at hSeen
  · intro op
    refine (alike_spend_then (by decide) ?_).mono (Nat.le_succ n)
    refine alike_then alike_advance ?_
    exact alike_bind hOperand fun right => alike_pure _

theorem multiplicativeOver_alike (hInner : Alike n inner inner') :
    Alike (n + 1) (multiplicativeOver inner) (multiplicativeOver inner') :=
  chain_alike rfl (unaryOver_alike hInner)

theorem additiveOver_alike (hInner : Alike n inner inner') :
    Alike (n + 1) (additiveOver inner) (additiveOver inner') :=
  chain_alike rfl (multiplicativeOver_alike hInner)

theorem relationalOver_alike (hInner : Alike n inner inner') :
    Alike (n + 1) (relationalOver inner) (relationalOver inner') :=
  chain_alike rfl (additiveOver_alike hInner)

theorem equalityOver_alike (hInner : Alike n inner inner') :
    Alike (n + 1) (equalityOver inner) (equalityOver inner') :=
  chain_alike rfl (relationalOver_alike hInner)

theorem assignmentOver_alike (hInner : Alike n inner inner') :
    Alike (n + 1) (assignmentOver inner) (assignmentOver inner') := by
  refine alike_bind (equalityOver_alike hInner) fun left => ?_
  refine alike_peek? rfl rfl ?_ (alike_pure left)
  intro kind
  split
  · exact alike_pure left
  · refine alike_then alike_advance ?_
    refine alike_spend_then (by decide) ?_
    refine alike_bind hInner fun right => ?_
    split
    · exact alike_throw _
    · exact alike_pure _

end

theorem expressionWithin_alike (k : Nat) :
    Alike k (expressionWithin k) (expressionWithin k) := by
  induction k with
  | zero => exact fun s hs => absurd hs (Nat.not_lt_zero _)
  | succ k ih => exact assignmentOver_alike ih

theorem expression_alike : Alike n expression expression :=
  alike_bounded fun k _ => expressionWithin_alike k

theorem Entry.parser_alike (entry : Entry) : Alike (n + 1) entry.parser entry.parser := by
  have hInner : Alike n Parser.expression Parser.expression := expression_alike
  cases entry with
  | expression => exact expression_alike
  | assignment => exact assignmentOver_alike hInner
  | equality => exact equalityOver_alike hInner
  | relational => exact relationalOver_alike hInner
  | additive => exact additiveOver_alike hInner
  | multiplicative => exact multiplicativeOver_alike hInner
  | unary => exact unaryOver_alike hInner
  | suffixed => exact suffixedOver_alike hInner
  | primary => exact primaryOver_alike hInner

/-! ## Statements -/

section

variable {inner inner' : Parser Stmt}

theorem blockOver_alike (hInner : Alike n inner inner') :
    Alike (n + 1) (blockOver inner) (blockOver inner') := by
  refine alike_bind alike_here fun start => ?_
  refine alike_bind (alike_refunding ?_) fun stmts => alike_spanned start _
  refine alike_spend_then (by decide) ?_
  refine alike_then (alike_expectSymbol _ _) ?_
  refine alike_bind (alike_manyWhile ?_ hInner.relax) fun stmts => ?_
  · intro s hMore
    exact Stream.shown_ne_nil_of_not_isAt (by simpa using (Bool.and_eq_true_iff.mp hMore).2)
  · exact alike_then (alike_expectSymbol _ _) (alike_pure stmts)

theorem bodyOver_alike (hInner : Alike n inner inner') :
    Alike (n + 1) (bodyOver inner) (bodyOver inner') := by
  refine alike_isAt (by simp) (blockOver_alike hInner).relax ?_
  refine alike_spend_then (by decide) ?_
  exact alike_bind hInner fun _ => alike_pure _

theorem condition_alike (construct : String) :
    Alike n (condition construct) (condition construct) := by
  refine alike_then (alike_expectSymbol _ _) ?_
  refine alike_bind (alike_refunding expression_alike) fun e => ?_
  exact alike_then (alike_expectSymbol _ _) (alike_pure e)

theorem elseOver_alike (hInner : Alike n inner inner') :
    Alike (n + 1) (elseOver inner) (elseOver inner') := by
  refine alike_bind (alike_accept (by simp)) fun found => ?_
  split
  · refine alike_isAt (by simp) ?_ ?_
    · exact alike_spend_then (by decide) (alike_bind hInner fun _ => alike_pure _).relax
    · exact alike_bind (bodyOver_alike hInner) fun _ => alike_pure _
  · exact alike_pure _

theorem branchOver_alike (hInner : Alike n inner inner') :
    Alike (n + 1) (branchOver inner) (branchOver inner') := by
  refine alike_bind (condition_alike "if") fun e => ?_
  refine alike_bind (bodyOver_alike hInner) fun thenBlock => ?_
  exact alike_bind (elseOver_alike hInner) fun _ => alike_pure _

theorem loopOver_alike (hInner : Alike n inner inner') :
    Alike (n + 1) (loopOver inner) (loopOver inner') := by
  refine alike_bind (condition_alike "while") fun e => ?_
  exact alike_bind (bodyOver_alike hInner) fun _ => alike_pure _

theorem leave_alike : Alike n leave leave := by
  have hClose (value : Option Expr) : Alike n
      (do expectSymbol .semicolon "return statement"; return Stmt.leave value)
      (do expectSymbol .semicolon "return statement"; return Stmt.leave value) :=
    alike_then (alike_expectSymbol _ _) (alike_pure _)
  refine alike_isAt (by simp) (hClose none).relax ?_
  exact alike_bind (alike_map expression_alike) hClose

theorem declaration_alike : Alike n declaration declaration := by
  refine alike_bind typeSpecifier_alike fun base => ?_
  refine alike_bind (declarator_alike base _) fun declared => ?_
  have hClose (init : Option Expr) : Alike n
      (do
        expectSymbol .semicolon "variable declaration"
        return Stmt.declare declared.1 declared.2 init)
      (do
        expectSymbol .semicolon "variable declaration"
        return Stmt.declare declared.1 declared.2 init) :=
    alike_then (alike_expectSymbol _ _) (alike_pure _)
  refine alike_bind (alike_accept (by simp)) fun initialised => ?_
  split
  · exact alike_bind (alike_map expression_alike) hClose
  · exact hClose none

theorem evaluation_alike : Alike n evaluation evaluation := by
  refine alike_bind expression_alike fun e => ?_
  exact alike_then (alike_expectSymbol _ _) (alike_pure _)

theorem formOver_alike (hInner : Alike n inner inner') :
    Alike (n + 1) (formOver inner) (formOver inner') := by
  refine alike_peek? rfl rfl ?_ evaluation_alike
  intro kind
  split
  · exact (alike_bind (blockOver_alike hInner) fun _ => alike_pure _).relax
  · exact alike_then alike_advance (branchOver_alike hInner)
  · exact alike_then alike_advance (loopOver_alike hInner)
  · exact alike_then alike_advance leave_alike
  · split
    · exact declaration_alike.relax
    · exact evaluation_alike.relax
  · exact evaluation_alike.relax

theorem statementOver_alike (hInner : Alike n inner inner') :
    Alike (n + 1) (statementOver inner) (statementOver inner') := by
  refine alike_bind alike_here fun start => ?_
  refine alike_bind (alike_refunding (formOver_alike hInner)) fun form => ?_
  exact alike_spanned start form

end

theorem statementWithin_alike (k : Nat) :
    Alike k (statementWithin k) (statementWithin k) := by
  induction k with
  | zero => exact fun s hs => absurd hs (Nat.not_lt_zero _)
  | succ k ih => exact statementOver_alike ih

theorem statement_alike : Alike n statement statement :=
  alike_bounded fun k _ => statementWithin_alike k

theorem block_alike : Alike (n + 1) block block :=
  blockOver_alike statement_alike

/-! ## Programs -/

theorem param_alike : Alike n param param := by
  refine alike_bind alike_here fun start => ?_
  refine alike_bind typeSpecifier_alike fun base => ?_
  refine alike_bind (declarator_alike base _) fun declared => ?_
  exact alike_spanned start _

theorem params_alike : Alike n params params := by
  refine alike_isAt (by simp) (alike_pure []) ?_
  refine alike_choice isVoidAlone ?_ (alike_then alike_advance (alike_pure []))
    (alike_commaSeparated param_alike)
  intro s hVoid
  exact Stream.shown_ne_nil_of_isAt (by simp) (Bool.and_eq_true_iff.mp hVoid).1

theorem functionHead_alike : Alike n functionHead functionHead := by
  refine alike_bind typeSpecifier_alike fun base => ?_
  refine alike_bind (pointers_alike base) fun returns => ?_
  refine alike_bind (alike_identifier _) fun name => ?_
  refine alike_then (alike_expectSymbol _ _) ?_
  refine alike_bind params_alike fun params => ?_
  exact alike_then (alike_expectSymbol _ _) (alike_pure _)

theorem function_alike : Alike (n + 1) function function := by
  rw [function_eq]
  refine alike_bind alike_here fun start => ?_
  refine alike_bind functionHead_alike fun head => ?_
  refine alike_bind block_alike fun body => ?_
  exact alike_spanned start _

theorem program_alike : Alike (n + 1) program program := by
  refine alike_bind alike_here fun start => ?_
  refine alike_bind (alike_manyWhile ?_ function_alike.relax) fun functions => ?_
  · exact fun s hMore => Stream.shown_ne_nil_of_not_isAt (by simpa using hMore)
  · exact alike_bind alike_here fun _ => alike_pure _

theorem Call.parser_alike (c : Call) : Alike (n + 1) c.parser c.parser := by
  cases c with
  | program => exact program_alike
  | function => exact function_alike
  | block => exact block_alike
  | statement => exact statement_alike
  | expression entry => exact entry.parser_alike
  | typeSpecifier => exact typeSpecifier_alike
  | declarator base context => exact declarator_alike base context

end

/-- Whether it succeeds or fails, a call reads tokens in front of the end of the file only. -/
theorem Call.later (c : Call) (s : Stream) : Later s (c.after s) := by
  have hLeads : Leads s (c.parser s) (c.parser s) :=
    c.parser_alike s (Nat.lt_succ_self s.budget) nofun
  rw [c.after_eq, streamAfter]
  generalize c.parser s = x at hLeads
  cases hLeads with
  | ok a hLater => exact hLater
  | error e hLater => exact hLater

/-! ## Progress -/

theorem progresses_of_reads {α : Type} {p : Parser α} {sites : α → List Site}
    (h : ∀ s, Outcome p s (fun a t => Reads s (sites a) t) fun _ => True) : Progresses p := by
  intro s a t hRun
  have hReads := h s
  rw [Outcome, hRun] at hReads
  obtain ⟨ts, hTokens, hPassed, -⟩ := hReads
  have hLength := List.length_pos_iff.mpr hTokens
  rw [hPassed.tokens, List.length_append]
  omega

theorem Entry.parser_reads (entry : Entry) : ReadsEach .expr entry.parser := by
  have hInner := expression_reads
  have hUnary : ReadsEach .expr Parser.unary :=
    fun s => unaryWithin_reads hInner (s.budget + 1) s
  have hMultiplicative : ReadsEach .expr Parser.multiplicative := chain_reads rfl hUnary
  have hAdditive : ReadsEach .expr Parser.additive := chain_reads rfl hMultiplicative
  have hRelational : ReadsEach .expr Parser.relational := chain_reads rfl hAdditive
  cases entry with
  | expression => exact hInner
  | assignment => exact assignmentOver_reads hInner
  | equality => exact equalityOver_reads hInner
  | relational => exact hRelational
  | additive => exact hAdditive
  | multiplicative => exact hMultiplicative
  | unary => exact hUnary
  | suffixed => exact suffixedOver_reads hInner
  | primary => exact primaryOver_reads hInner

/-- Only a program may be empty. -/
theorem Call.parser_progresses (c : Call) : c = .program ∨ Progresses c.parser := by
  cases c with
  | program => exact .inl rfl
  | function => exact .inr function_progresses
  | block => exact .inr (progresses_of_reads block_reads)
  | statement => exact .inr Fork.statement_progresses
  | expression entry => exact .inr (progresses_of_reads entry.parser_reads)
  | typeSpecifier => exact .inr (progresses_of_reads typeSpecifier_reads)
  | declarator base context => exact .inr (progresses_of_reads (declarator_reads base context))

/-! ## Recursions and loops -/

/-- The recursions: an expression inside another one, an operator in front of an operator, and a
statement or a block inside another one. The budget bounds each of them. -/
structure Recursions : Prop where
  expressions : Unrolls Stream.budget assignmentOver expression
  operands : Unrolls Stream.budget (unaryRound expression) unary
  statements : Unrolls Stream.budget statementOver statement

theorem recursions : Recursions where
  expressions := unrolls_of_alike (fun _ _ _ => assignmentOver_alike) fun _ => rfl
  operands := unrolls_of_alike (fun _ _ _ => unaryRound_alike expression_alike) fun _ => rfl
  statements := unrolls_of_alike (fun _ _ _ => statementOver_alike) fun _ => rfl

/-- A loop that goes on as long as `more` holds, as in `manyWhile`. -/
def WhileLoop {α : Type} (more : Stream → Bool) (item : Parser α) : Prop :=
  Loop (fun s => if more s then some () else none) fun _ => item

/-- The loop of a level of binary operators, as in `chain`. -/
def OperatorLoop (op? : TokenKind → Option BinaryOp) (operand : Parser Expr) : Prop :=
  Loop (fun s => s.peek?.bind op?) fun op => do
    spend operatorCost
    advance
    let right ← operand
    return (op, right)

/-- The loops: in `program`, `block`, `callOver`, `params`, on the levels of `chain` and in
`pointers`. The number of tokens bounds each of them. -/
structure Loops : Prop where
  functions : WhileLoop (fun s => !s.isAt .endOfFile) function
  statements : WhileLoop (fun s => !s.isAt (.symbol .rightBrace) && !s.isAt .endOfFile) statement
  arguments : CommaLoop expression
  parameters : CommaLoop param
  equalities : OperatorLoop equalityOp? relational
  comparisons : OperatorLoop relationalOp? additive
  sums : OperatorLoop additiveOp? multiplicative
  products : OperatorLoop multiplicativeOp? unary
  stars : WhileLoop (·.isAt (.symbol .star)) advance

theorem operatorLoop (op? : TokenKind → Option BinaryOp) (entry : Entry) :
    OperatorLoop op? entry.parser :=
  (consumes_operands (entry.parser_keeps shorter_paidPassage)).loop

theorem loops : Loops where
  functions := (Consumes.ofMore not_inFile_of_nil fun s f t _ => function_progresses s f t).loop
  statements :=
    (Consumes.ofMore not_inBlock_of_nil fun s x t _ => Fork.statement_progresses s x t).loop
  arguments := commaLoop (progresses_of_reads expression_reads)
  parameters := commaLoop (progresses_of_reads param_reads)
  equalities := operatorLoop equalityOp? .relational
  comparisons := operatorLoop relationalOp? .additive
  sums := operatorLoop additiveOp? .multiplicative
  products := operatorLoop multiplicativeOp? .unary
  stars := (consumes_behind (by simp) (keeps_pure shorter_paidPassage.toPassage ())).loop

/-- **Every call ends.** From any stream, whatever a call does, it reads some of the next tokens,
none of which says where the file ends; any call but that for a program reads at least one if it
succeeds; and what goes round in it goes round a bounded number of times: the recursions are
bounded by the budget and the loops by the tokens, of which each iteration reads some. -/
theorem calls_end :
    (∀ (c : Call) (s : Stream), ∃ ts, Passed s ts (c.after s)) ∧
      (∀ c : Call, c = .program ∨ Progresses c.parser) ∧ Recursions ∧ Loops :=
  ⟨fun c s => (c.later s).passed, Call.parser_progresses, recursions, loops⟩

end CToGo.Source.Parser
