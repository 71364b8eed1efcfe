import CToGo.Proofs.Grammar.Programs
import CToGo.Proofs.Locations.Forks

/-!
# Parsing before a parting

No parser looks further ahead than at the token that it does not read, and none looks at a
location. So on two streams that part later on, every parser gives the same tree at moved
places, or the same error at a moved place.

* `expression_follows`, `statement_follows`, `function_follows`: the parsers.
* `block_closes`, `function_closes`: a block and a function end with their brace, whatever
  stands behind it.
-/

namespace CToGo.Source.Parser

/-- An operator and its right operand. -/
theorem consumes_operands {op? : TokenKind → Option BinaryOp} {operand : Parser Expr}
    (hOperand : Keeps Shorter operand) :
    Consumes (fun s => s.peek?.bind op?) fun op => do
      spend operatorCost
      advance
      let right ← operand
      return (op, right) := by
  have hP := shorter_paidPassage.toPassage
  refine ⟨fun s hs => by simp [Stream.peek?, hs], ?_⟩
  intro s op item t hSeen hRun
  have hs : s.tokens ≠ [] := by
    intro hs
    simp [Stream.peek?, hs] at hSeen
  obtain ⟨_, u, hSpend, hRest⟩ := bind_apply_eq_ok_iff.mp hRun
  have hPaid : u.tokens = s.tokens := by
    rw [spend_eq] at hSpend
    split at hSpend <;> cases hSpend
    rfl
  rw [← hPaid] at hs ⊢
  exact length_lt_of_advance (keeps_bind hP hOperand fun _ => keeps_pure hP _) hs hRest

namespace Fork

variable {fork : Fork}

/-- A parser that depends on the budget that is left. -/
theorem follows_budget {α β : Type} {R : α → β → Prop} {f : Nat → Parser α}
    {g : Nat → Parser β} (h : ∀ n, fork.Follows R (f n) (g n)) :
    fork.Follows R (do f (← get).budget) (do g (← get).budget) := by
  refine ⟨fun s => (h s.budget).1 s, fun s t hPaired => ?_⟩
  have hEnd := (h s.budget).2 s t hPaired
  have hRight : (do g (← get).budget) t = g s.budget t := by rw [← hPaired.budget]; rfl
  rw [hRight]
  exact hEnd

/-! ## Expressions -/

section

variable {inner : Parser Expr}

theorem primaryOver_follows (hInner : fork.Follows (Maps (Expr.move fork.move)) inner inner) :
    fork.Follows (Maps (Expr.move fork.move)) (primaryOver inner) (primaryOver inner) := by
  refine follows_bind_maps follows_here fun start => ?_
  refine follows_bind_maps follows_peek? fun kind? => ?_
  dsimp only [id]
  split
  · refine follows_then follows_advance ?_
    exact follows_spanned start fun _ => rfl
  · refine follows_then follows_advance ?_
    exact follows_spanned start fun _ => rfl
  · refine follows_then (follows_spend _) ?_
    refine follows_then follows_advance ?_
    refine follows_bind_maps hInner fun e => ?_
    refine follows_then (follows_expectSymbol _ _) ?_
    exact follows_pure rfl
  · exact follows_unexpected _

theorem callOver_follows (hInner : fork.Follows (Maps (Expr.move fork.move)) inner inner)
    (callee : Expr) :
    fork.Follows (Maps (Expr.move fork.move)) (callOver inner callee)
      (callOver inner (callee.move fork.move)) := by
  unfold callOver
  rw [Expr.name?_move, Expr.description_move, Expr.span_move]
  dsimp only
  split
  · exact follows_throw (.unsuitable .functionName callee.description callee.span.start)
  · next name _ =>
    have hClose : ∀ es : List Expr, fork.Follows (Maps (Expr.move fork.move))
        (do
          expectSymbol .rightParen "function call"
          return Expr.call name es (← spanFrom callee.span.start))
        (do
          expectSymbol .rightParen "function call"
          return Expr.call name (es.map (Expr.move fork.move))
            (← spanFrom (fork.move callee.span.start))) := by
      intro es
      refine follows_then (follows_expectSymbol _ _) ?_
      refine follows_spanned _ fun span => ?_
      rw [Maps, Expr.move, moveEach_eq_map]
    refine follows_then (follows_spend _) ?_
    refine follows_then (follows_expectSymbol _ _) ?_
    refine follows_bind_maps (follows_isAt _) fun closed => ?_
    refine follows_ite (hClose []) ?_
    exact follows_bind_maps (follows_commaSeparated hInner) hClose

theorem stepOver_follows (e : Expr) :
    fork.Follows (Maps (Expr.move fork.move)) (stepOver e) (stepOver (e.move fork.move)) := by
  refine follows_bind_maps follows_peek? fun kind? => ?_
  rw [Expr.name?_move, Expr.description_move, Expr.span_move]
  dsimp only [id]
  split
  · exact follows_pure rfl
  · next op _ =>
    split
    · exact follows_throw (.unsuitable (.operandBefore op) e.description e.span.start)
    · refine follows_then follows_advance ?_
      exact follows_spanned e.span.start fun _ => rfl

theorem suffixedOver_follows (hInner : fork.Follows (Maps (Expr.move fork.move)) inner inner) :
    fork.Follows (Maps (Expr.move fork.move)) (suffixedOver inner) (suffixedOver inner) := by
  rw [suffixedOver_eq]
  refine follows_bind_maps (primaryOver_follows hInner) fun head => ?_
  refine follows_bind_maps (follows_isAt _) fun called => ?_
  refine follows_ite ?_ (stepOver_follows head)
  exact follows_bind_maps (callOver_follows hInner head) stepOver_follows

theorem unaryWithin_follows (hInner : fork.Follows (Maps (Expr.move fork.move)) inner inner)
    (n : Nat) :
    fork.Follows (Maps (Expr.move fork.move)) (unaryWithin inner n) (unaryWithin inner n) := by
  induction n with
  | zero => exact follows_bind_maps follows_here fun start => follows_throw (.tooDeep start)
  | succ n ih =>
    refine follows_bind_maps follows_here fun start => ?_
    refine follows_bind_maps follows_peek? fun kind? => ?_
    dsimp only [id]
    split
    · exact suffixedOver_follows hInner
    · next op _ =>
      refine follows_then (follows_spend _) ?_
      refine follows_then follows_advance ?_
      refine follows_bind_maps ih fun operand => ?_
      rw [Expr.name?_move, Expr.description_move, Expr.span_move]
      exact follows_ite
        (follows_throw (.unsuitable (.operandAfter op) operand.description operand.span.start))
        (follows_pure rfl)

/-- The operator and its right operand at another place. -/
def moveOperand (σ : Location → Location) (item : BinaryOp × Expr) : BinaryOp × Expr :=
  (item.1, item.2.move σ)

theorem move_foldl_binary (σ : Location → Location) (items : List (BinaryOp × Expr))
    (first : Expr) :
    (items.foldl (fun left (op, right) => binary left op right) first).move σ =
      (items.map (moveOperand σ)).foldl (fun left (op, right) => binary left op right)
        (first.move σ) := by
  induction items generalizing first with
  | nil => rfl
  | cons item items ih =>
    rw [List.map_cons, List.foldl_cons, List.foldl_cons, ih]
    congr 1
    simp [binary, moveOperand, Expr.move, Span.move]

theorem chain_follows {op? : TokenKind → Option BinaryOp} {operand : Parser Expr}
    (hOperand : fork.Follows (Maps (Expr.move fork.move)) operand operand) :
    fork.Follows (Maps (Expr.move fork.move)) (chain op? operand) (chain op? operand) := by
  refine follows_bind_maps hOperand fun first => ?_
  have hStep : ∀ op : BinaryOp, fork.Follows (Maps (moveOperand fork.move))
      (do
        spend operatorCost
        advance
        let right ← operand
        return (op, right))
      (do
        spend operatorCost
        advance
        let right ← operand
        return (op, right)) := by
    intro op
    refine follows_then (follows_spend _) ?_
    refine follows_then follows_advance ?_
    exact follows_bind_maps hOperand fun right => follows_pure rfl
  refine follows_bind_maps (follows_many ?_ (consumes_operands hOperand.1) hStep) fun items => ?_
  · intro s t hPaired hs
    rw [hPaired.peek? hs]
  · refine follows_pure ?_
    rw [Maps, move_foldl_binary]

theorem unaryOver_follows (hInner : fork.Follows (Maps (Expr.move fork.move)) inner inner) :
    fork.Follows (Maps (Expr.move fork.move)) (unaryOver inner) (unaryOver inner) :=
  follows_budget fun n => unaryWithin_follows hInner (n + 1)

theorem multiplicativeOver_follows
    (hInner : fork.Follows (Maps (Expr.move fork.move)) inner inner) :
    fork.Follows (Maps (Expr.move fork.move)) (multiplicativeOver inner)
      (multiplicativeOver inner) :=
  chain_follows (unaryOver_follows hInner)

theorem additiveOver_follows (hInner : fork.Follows (Maps (Expr.move fork.move)) inner inner) :
    fork.Follows (Maps (Expr.move fork.move)) (additiveOver inner) (additiveOver inner) :=
  chain_follows (multiplicativeOver_follows hInner)

theorem relationalOver_follows
    (hInner : fork.Follows (Maps (Expr.move fork.move)) inner inner) :
    fork.Follows (Maps (Expr.move fork.move)) (relationalOver inner) (relationalOver inner) :=
  chain_follows (additiveOver_follows hInner)

theorem equalityOver_follows (hInner : fork.Follows (Maps (Expr.move fork.move)) inner inner) :
    fork.Follows (Maps (Expr.move fork.move)) (equalityOver inner) (equalityOver inner) :=
  chain_follows (relationalOver_follows hInner)

theorem assignmentOver_follows (hInner : fork.Follows (Maps (Expr.move fork.move)) inner inner) :
    fork.Follows (Maps (Expr.move fork.move)) (assignmentOver inner) (assignmentOver inner) := by
  refine follows_bind_maps (equalityOver_follows hInner) fun left => ?_
  refine follows_bind_maps follows_peek? fun kind? => ?_
  rw [Expr.name?_move, Expr.description_move, Expr.span_move]
  dsimp only [id]
  split
  · exact follows_pure rfl
  · refine follows_then follows_advance ?_
    refine follows_then (follows_spend _) ?_
    refine follows_bind_maps hInner fun right => ?_
    rw [Expr.span_move]
    split
    · exact follows_throw (.unsuitable .assignmentTarget left.description left.span.start)
    · exact follows_pure rfl

theorem expressionWithin_follows (n : Nat) :
    fork.Follows (Maps (Expr.move fork.move)) (expressionWithin n) (expressionWithin n) := by
  induction n with
  | zero => exact follows_bind_maps follows_here fun start => follows_throw (.tooDeep start)
  | succ n ih => exact assignmentOver_follows ih

theorem expression_follows :
    fork.Follows (Maps (Expr.move fork.move)) expression expression :=
  follows_budget fun n => expressionWithin_follows (n + 1)

end

/-! ## Declarators -/

theorem typeSpecifier_follows : fork.Follows (Maps id) typeSpecifier typeSpecifier := by
  refine follows_bind_maps follows_peek? fun kind? => ?_
  dsimp only [id]
  split
  · exact follows_then follows_advance (follows_pure rfl)
  · exact follows_unexpected _

theorem pointers_follows (base : Ty) :
    fork.Follows (Maps id) (pointers base) (pointers base) := by
  refine follows_bind_maps (follows_manyWhile (fun s t hPaired hs => hPaired.isAt hs _) ?_ ?_
    follows_advance) fun stars => ?_
  · intro s hs
    simp [Stream.isAt, Stream.peek?, hs]
  · intro s _ t hStar hRun
    have hs := Stream.tokens_ne_nil_of_isAt (by simp) hStar
    exact length_lt_of_advance (keeps_pure shorter_paidPassage.toPassage ()) hs hRun
  · rw [List.map_id]
    exact follows_pure rfl

theorem declarator_follows (base : Ty) (context : String) :
    fork.Follows (Maps id) (declarator base context) (declarator base context) := by
  refine follows_bind_maps (pointers_follows base) fun ty => ?_
  refine follows_bind_maps (follows_identifier context) fun name => ?_
  refine follows_bind_maps (follows_accept _) fun bracketed => ?_
  refine follows_ite (follows_then (follows_expectSymbol _ _) ?_) ?_
  · exact follows_pure rfl
  · exact follows_pure rfl

/-! ## Statements -/

/-- Two statements that still lack their spans, and the second is the first at another place. -/
def FormsMoved (σ : Location → Location) (form form' : Span → Stmt) : Prop :=
  ∀ span, form' (span.move σ) = (form span).move σ

section

variable {inner : Parser Stmt}

theorem blockOver_follows (hInner : fork.Follows (Maps (Stmt.move fork.move)) inner inner)
    (hProgress : Progresses inner) :
    fork.Follows (Maps (Block.move fork.move)) (blockOver inner) (blockOver inner) := by
  refine follows_bind_maps follows_here fun start => ?_
  refine follows_bind_maps (m := List.map (Stmt.move fork.move)) (follows_refunding ?_)
    fun stmts => ?_
  · refine follows_then (follows_spend _) ?_
    refine follows_then (follows_expectSymbol _ _) ?_
    refine follows_bind_maps (follows_manyWhile ?_ not_inBlock_of_nil
      (fun s a t _ => hProgress s a t) hInner) fun stmts => ?_
    · intro s t hPaired hs
      rw [hPaired.isAt hs, hPaired.isAt hs]
    · exact follows_then (follows_expectSymbol _ _) (follows_pure rfl)
  · refine follows_spanned start fun span => ?_
    rw [Maps, Block.move, moveAll_eq_map]

theorem bodyOver_follows (hInner : fork.Follows (Maps (Stmt.move fork.move)) inner inner)
    (hProgress : Progresses inner) :
    fork.Follows (Maps (Block.move fork.move)) (bodyOver inner) (bodyOver inner) := by
  refine follows_bind_maps (follows_isAt _) fun braced => ?_
  refine follows_ite (blockOver_follows hInner hProgress) ?_
  refine follows_then (follows_spend _) ?_
  refine follows_bind_maps hInner fun s => ?_
  refine follows_pure ?_
  rw [Maps, Stmt.span_move]
  rfl

theorem condition_follows (construct : String) :
    fork.Follows (Maps (Expr.move fork.move)) (condition construct) (condition construct) := by
  refine follows_then (follows_expectSymbol _ _) ?_
  refine follows_bind_maps (follows_refunding expression_follows) fun e => ?_
  exact follows_then (follows_expectSymbol _ _) (follows_pure rfl)

theorem elseOver_follows (hInner : fork.Follows (Maps (Stmt.move fork.move)) inner inner)
    (hProgress : Progresses inner) :
    fork.Follows (Maps (Else.move fork.move)) (elseOver inner) (elseOver inner) := by
  refine follows_bind_maps (follows_accept _) fun found => ?_
  refine follows_ite ?_ (follows_pure rfl)
  refine follows_bind_maps (follows_isAt _) fun chained => ?_
  refine follows_ite (follows_then (follows_spend _) (follows_bind_maps hInner ?_))
    (follows_bind_maps (bodyOver_follows hInner hProgress) ?_)
  · intro next
    exact follows_pure rfl
  · intro body
    exact follows_pure rfl

theorem branchOver_follows (hInner : fork.Follows (Maps (Stmt.move fork.move)) inner inner)
    (hProgress : Progresses inner) :
    fork.Follows (FormsMoved fork.move) (branchOver inner) (branchOver inner) := by
  refine follows_bind_maps (condition_follows "if") fun e => ?_
  refine follows_bind_maps (bodyOver_follows hInner hProgress) fun thenBlock => ?_
  refine follows_bind_maps (elseOver_follows hInner hProgress) fun elseBranch => ?_
  exact follows_pure fun span => rfl

theorem loopOver_follows (hInner : fork.Follows (Maps (Stmt.move fork.move)) inner inner)
    (hProgress : Progresses inner) :
    fork.Follows (FormsMoved fork.move) (loopOver inner) (loopOver inner) := by
  refine follows_bind_maps (condition_follows "while") fun e => ?_
  refine follows_bind_maps (bodyOver_follows hInner hProgress) fun body => ?_
  exact follows_pure fun span => rfl

theorem some_expression_follows :
    fork.Follows (Maps (Option.map (Expr.move fork.move))) (some <$> expression)
      (some <$> expression) :=
  follows_map expression_follows fun _ => rfl

theorem leave_follows : fork.Follows (FormsMoved fork.move) leave leave := by
  have hClose : ∀ value : Option Expr, fork.Follows (FormsMoved fork.move)
      (do
        expectSymbol .semicolon "return statement"
        return Stmt.leave value)
      (do
        expectSymbol .semicolon "return statement"
        return Stmt.leave (value.map (Expr.move fork.move))) := by
    intro value
    exact follows_then (follows_expectSymbol _ _) (follows_pure fun span => rfl)
  refine follows_bind_maps (follows_isAt _) fun bareReturn => ?_
  refine follows_ite (hClose none) ?_
  exact follows_bind_maps some_expression_follows hClose

theorem declaration_follows : fork.Follows (FormsMoved fork.move) declaration declaration := by
  refine follows_bind_maps typeSpecifier_follows fun base => ?_
  refine follows_bind_maps (declarator_follows base _) fun declared => ?_
  have hClose : ∀ init : Option Expr, fork.Follows (FormsMoved fork.move)
      (do
        expectSymbol .semicolon "variable declaration"
        return Stmt.declare declared.1 declared.2 init)
      (do
        expectSymbol .semicolon "variable declaration"
        return Stmt.declare declared.1 declared.2 (init.map (Expr.move fork.move))) := by
    intro init
    exact follows_then (follows_expectSymbol _ _) (follows_pure fun span => rfl)
  refine follows_bind_maps (follows_accept _) fun initialised => ?_
  exact follows_ite (follows_bind_maps some_expression_follows hClose) (hClose none)

theorem evaluation_follows : fork.Follows (FormsMoved fork.move) evaluation evaluation := by
  refine follows_bind_maps expression_follows fun e => ?_
  exact follows_then (follows_expectSymbol _ _) (follows_pure fun span => rfl)

theorem formOver_follows (hInner : fork.Follows (Maps (Stmt.move fork.move)) inner inner)
    (hProgress : Progresses inner) :
    fork.Follows (FormsMoved fork.move) (formOver inner) (formOver inner) := by
  refine follows_bind_maps follows_peek? fun kind? => ?_
  dsimp only [id]
  split
  · refine follows_bind_maps (blockOver_follows hInner hProgress) fun body => ?_
    exact follows_pure fun span => rfl
  · exact follows_then follows_advance (branchOver_follows hInner hProgress)
  · exact follows_then follows_advance (loopOver_follows hInner hProgress)
  · exact follows_then follows_advance leave_follows
  · exact follows_ite declaration_follows evaluation_follows
  · exact evaluation_follows

theorem statementOver_follows (hInner : fork.Follows (Maps (Stmt.move fork.move)) inner inner)
    (hProgress : Progresses inner) :
    fork.Follows (Maps (Stmt.move fork.move)) (statementOver inner) (statementOver inner) := by
  refine follows_bind_maps follows_here fun start => ?_
  refine follows_bind (follows_refunding (formOver_follows hInner hProgress)) ?_ ?_
  · intro form form' hForm
    exact follows_spanned start hForm
  · intro form
    exact keeps_spanned shorter_paidPassage.toPassage start form

end

/-- A statement is at least one token long. -/
theorem statementWithin_progresses (n : Nat) : Progresses (statementWithin n) := by
  intro s a t hRun
  have hSound := statementWithin_sound n s
  unfold Outcome at hSound
  rw [hRun] at hSound
  have hLess := hSound.opens.length_lt
  rwa [Stream.kinds, Stream.kinds, List.length_map, List.length_map] at hLess

theorem statementWithin_follows (n : Nat) :
    fork.Follows (Maps (Stmt.move fork.move)) (statementWithin n) (statementWithin n) := by
  induction n with
  | zero => exact follows_bind_maps follows_here fun start => follows_throw (.tooDeep start)
  | succ n ih => exact statementOver_follows ih (statementWithin_progresses n)

theorem statement_follows : fork.Follows (Maps (Stmt.move fork.move)) statement statement :=
  follows_budget fun n => statementWithin_follows (n + 1)

theorem statement_progresses : Progresses statement :=
  fun s => statementWithin_progresses (s.budget + 1) s

/-! ## Statements that end with a token of their own -/

theorem condition_closes (construct : String) :
    fork.Closes (Maps (Expr.move fork.move)) (condition construct) (condition construct) := by
  refine closes_then (follows_expectSymbol _ _) ?_
  refine closes_bind (follows_refunding expression_follows) fun e => ?_
  exact (closes_expectSymbol _ _).result rfl

theorem leave_closes : fork.Closes (FormsMoved fork.move) leave leave := by
  have hClose : ∀ value : Option Expr, fork.Closes (FormsMoved fork.move)
      (do
        expectSymbol .semicolon "return statement"
        return Stmt.leave value)
      (do
        expectSymbol .semicolon "return statement"
        return Stmt.leave (value.map (Expr.move fork.move))) := by
    intro value
    exact (closes_expectSymbol _ _).result fun span => rfl
  refine closes_bind (follows_isAt _) fun bareReturn => ?_
  refine closes_ite (hClose none) ?_
  exact closes_bind some_expression_follows hClose

theorem declaration_closes : fork.Closes (FormsMoved fork.move) declaration declaration := by
  refine closes_bind typeSpecifier_follows fun base => ?_
  refine closes_bind (declarator_follows base _) fun declared => ?_
  have hClose : ∀ init : Option Expr, fork.Closes (FormsMoved fork.move)
      (do
        expectSymbol .semicolon "variable declaration"
        return Stmt.declare declared.1 declared.2 init)
      (do
        expectSymbol .semicolon "variable declaration"
        return Stmt.declare declared.1 declared.2 (init.map (Expr.move fork.move))) := by
    intro init
    exact (closes_expectSymbol _ _).result fun span => rfl
  refine closes_bind (follows_accept _) fun initialised => ?_
  exact closes_ite (closes_bind some_expression_follows hClose) (hClose none)

theorem evaluation_closes : fork.Closes (FormsMoved fork.move) evaluation evaluation := by
  refine closes_bind expression_follows fun e => ?_
  exact (closes_expectSymbol _ _).result fun span => rfl

/-! ## Functions -/

theorem param_follows : fork.Follows (Maps (Param.move fork.move)) param param := by
  refine follows_bind_maps follows_here fun start => ?_
  refine follows_bind_maps typeSpecifier_follows fun base => ?_
  refine follows_bind_maps (declarator_follows base _) fun declared => ?_
  exact follows_spanned start fun _ => rfl

/-- The parameters between the parentheses, once it is known whether `void` stands there
alone. -/
def paramsGiven (voidAlone : Bool) : Parser (List Param) := do
  if ← isAt (.symbol .rightParen) then
    return []
  else if voidAlone then
    advance
    return []
  else
    commaSeparated param

theorem params_eq (s : Stream) : params s = paramsGiven (isVoidAlone s) s := by
  simp only [params, paramsGiven, isAt, bind, EStateM.bind, get_eq, pure, EStateM.pure]
  split <;> rfl

theorem paramsGiven_follows (voidAlone : Bool) :
    fork.Follows (Maps (List.map (Param.move fork.move))) (paramsGiven voidAlone)
      (paramsGiven voidAlone) := by
  refine follows_bind_maps (follows_isAt _) fun closed => ?_
  refine follows_ite (follows_pure rfl) ?_
  refine follows_ite (follows_then follows_advance (follows_pure rfl)) ?_
  exact follows_commaSeparated param_follows

theorem typeSpecifier_eq (s : Stream) :
    typeSpecifier s = match s.peek?.bind baseType? with
      | some ty => .ok ty s.tail
      | none => .error (s.unexpected .typeSpecifier) s := by
  simp only [typeSpecifier, peek?, bind, EStateM.bind, get_eq, pure, EStateM.pure]
  cases s.peek?.bind baseType? <;> rfl

/-- Where `void` stands, it is read in any case. -/
theorem shorter_params {s : Stream} (h : s.isAt (.keyword .kwVoid) = true) :
    Shorter s.tail (streamAfter params s) := by
  have hP := shorter_paidPassage.toPassage
  have hPeek : s.peek? = some (.keyword .kwVoid) := by
    rw [s.peek?_eq_head?]
    exact (Stream.isAt_iff (by simp)).mp h
  have hOpen : s.isAt (.symbol .rightParen) = false := by
    rw [Stream.isAt, hPeek]
    rfl
  have hType : typeSpecifier s = .ok .void s.tail := by
    rw [typeSpecifier_eq, hPeek]
    rfl
  have hGiven : ∀ voidAlone, Shorter s.tail (streamAfter (paramsGiven voidAlone) s) := by
    intro voidAlone
    rw [paramsGiven, streamAfter_bind_of_ok (a := false) (t := s) (by rw [← hOpen]; rfl)]
    cases voidAlone with
    | true => exact hP.refl s.tail
    | false =>
      refine shorter_streamAfter_bind ?_ fun first => ?_
      · rw [param, streamAfter_bind_of_ok (p := here) rfl, streamAfter_bind_of_ok hType]
        exact keeps_bind hP (declarator_keeps hP _ _) (fun _ => keeps_spanned hP _ _) s.tail
      · refine keeps_bind hP (keeps_manyWhile hP _ ?_) fun rest => keeps_pure hP _
        exact keeps_then hP (keeps_advance hP) (param_keeps hP)
  rw [streamAfter, params_eq]
  exact hGiven _

/-- Whether `void` stands alone is seen from the token behind it. If that is behind the parting,
the parting is reached when `void` is read. -/
theorem params_follows :
    fork.Follows (Maps (List.map (Param.move fork.move))) params params := by
  refine ⟨params_keeps shorter_paidPassage.toPassage, fun s t hPaired => ?_⟩
  by_cases hPast : fork.Past s
  · exact .inl (hPast.of_shorter (params_keeps shorter_paidPassage.toPassage s))
  have hVoid := hPaired.isAt hPast (.keyword .kwVoid)
  by_cases hReached : s.isAt (.keyword .kwVoid) = true ∧ fork.Past s.tail
  · exact .inl (hReached.2.of_shorter (shorter_params hReached.1))
  · have hSame : isVoidAlone t = isVoidAlone s := by
      rw [isVoidAlone, isVoidAlone, hVoid]
      cases hAt : s.isAt (.keyword .kwVoid) with
      | false => rfl
      | true =>
        have hTail : ¬ fork.Past s.tail := fun hTail => hReached ⟨hAt, hTail⟩
        rw [(hPaired.tail hPast).peek? hTail]
    rw [streamAfter, params_eq, params_eq, hSame]
    exact (paramsGiven_follows _).2 s t hPaired

/-- The statements of a block and its closing brace. -/
theorem block_closes : fork.Closes (Maps (Block.move fork.move)) block block := by
  refine closes_bind follows_here fun start => ?_
  refine Closes.spanned (R := Maps (List.map (Stmt.move fork.move))) start (Closes.refunding ?_) ?_
  · refine closes_then (follows_spend _) ?_
    refine closes_then (follows_expectSymbol _ _) ?_
    refine closes_bind (follows_manyWhile ?_ not_inBlock_of_nil
      (fun s a t _ => statement_progresses s a t) statement_follows) fun stmts => ?_
    · intro s t hPaired hs
      rw [hPaired.isAt hs, hPaired.isAt hs]
    · exact (closes_expectSymbol _ _).result rfl
  · rintro stmts _ span rfl
    rw [Maps, Block.move, moveAll_eq_map]

/-- The head of a function at another place. -/
def moveHead (σ : Location → Location) (head : String × List Param × Ty) :
    String × List Param × Ty :=
  (head.1, head.2.1.map (Param.move σ), head.2.2)

theorem functionHead_follows :
    fork.Follows (Maps (moveHead fork.move)) functionHead functionHead := by
  refine follows_bind_maps typeSpecifier_follows fun base => ?_
  refine follows_bind_maps (pointers_follows base) fun returns => ?_
  refine follows_bind_maps (follows_identifier _) fun name => ?_
  refine follows_then (follows_expectSymbol _ _) ?_
  refine follows_bind_maps params_follows fun params => ?_
  exact follows_then (follows_expectSymbol _ _) (follows_pure rfl)

theorem functionHead_closes :
    fork.Closes (Maps (moveHead fork.move)) functionHead functionHead := by
  refine closes_bind typeSpecifier_follows fun base => ?_
  refine closes_bind (pointers_follows base) fun returns => ?_
  refine closes_bind (follows_identifier _) fun name => ?_
  refine closes_then (follows_expectSymbol _ _) ?_
  refine closes_bind params_follows fun params => ?_
  exact (closes_expectSymbol _ _).result rfl

theorem function_closes : fork.Closes (Maps (Function.move fork.move)) function function := by
  rw [function_eq]
  refine closes_bind follows_here fun start => ?_
  refine closes_bind functionHead_follows fun head => ?_
  refine Closes.spanned start block_closes ?_
  rintro body _ span rfl
  rfl

theorem function_follows :
    fork.Follows (Maps (Function.move fork.move)) function function := by
  rw [function_eq]
  refine follows_bind_maps follows_here fun start => ?_
  refine follows_bind_maps functionHead_follows fun head => ?_
  refine follows_bind_maps (blockOver_follows statement_follows statement_progresses)
    fun body => ?_
  exact follows_spanned start fun _ => rfl

end Fork

/-- A function is at least one token long. -/
theorem function_progresses : Progresses function := by
  have hCloses : Fork.Closes ⟨id, [], []⟩ (Fork.Maps (Function.move id)) function function :=
    Fork.function_closes
  exact hCloses.1

end CToGo.Source.Parser
