import CToGo.Proofs.Grammar.Programs
import CToGo.Proofs.Locations.Streams

/-!
# Parsing does not depend on locations

Every parser is `Steady`: on streams that are alike it gives trees that differ in their spans
only, or errors that differ in their location only. No decision of the grammar and no payment
from the nesting budget looks at a location.

* `expression_steady`, `statement_steady`, `program_steady`: the parsers.
* `parseTokens_alike`: lists of tokens of the same kinds have the same parse.
-/

namespace CToGo.Source

namespace Parser

/-- Two runs of the parser agree, where `g` is what counts of a result. -/
def Steady {α β : Type} (g : α → β) (p : Parser α) : Prop :=
  Agree (fun a b => g a = g b) p p

theorem map_eq_of_forall₂ {α β : Type} {g : α → β} {as bs : List α}
    (h : List.Forall₂ (fun a b => g a = g b) as bs) : as.map g = bs.map g := by
  induction h with
  | nil => rfl
  | cons hHead _ ih => rw [List.map_cons, List.map_cons, hHead, ih]

/-- A node takes its span last, and the span does not count. -/
theorem agree_spanned {α : Type} {R : α → α → Prop} {f g : Span → α} (l m : Location)
    (h : ∀ span span', R (f span) (g span')) :
    Agree R (do return f (← spanFrom l)) (do return g (← spanFrom m)) :=
  agree_bind (agree_spanFrom l m) fun span span' _ => agree_pure (h span span')

/-! ## Expressions -/

theorem name?_of_bare {e e' : Expr} (h : e.bare = e'.bare) : e.name? = e'.name? := by
  rw [← Expr.name?_bare e, h, Expr.name?_bare]

theorem description_of_bare {e e' : Expr} (h : e.bare = e'.bare) :
    e.description = e'.description := by
  rw [← Expr.description_bare e, h, Expr.description_bare]

section

variable {inner : Parser Expr}

theorem primaryOver_steady (hInner : Steady Expr.bare inner) :
    Steady Expr.bare (primaryOver inner) := by
  refine agree_bind agree_here ?_
  intro start start' _
  refine agree_bind agree_peek? ?_
  rintro kind? _ rfl
  split
  · refine agree_then agree_advance ?_
    exact agree_spanned start start' fun _ _ => rfl
  · refine agree_then agree_advance ?_
    exact agree_spanned start start' fun _ _ => rfl
  · refine agree_then (agree_spend _) ?_
    refine agree_then agree_advance ?_
    refine agree_bind hInner ?_
    intro e e' he
    refine agree_then (agree_expectSymbol _ _) ?_
    exact agree_pure he
  · exact agree_unexpected _

theorem callOver_agree (hInner : Steady Expr.bare inner) {callee callee' : Expr}
    (h : callee.bare = callee'.bare) :
    Agree (fun a b => a.bare = b.bare) (callOver inner callee) (callOver inner callee') := by
  unfold callOver
  dsimp only
  rw [name?_of_bare h, description_of_bare h]
  split
  · exact agree_throw (.unsuitable _ _ _ _)
  · next name _ =>
    -- With and without arguments the call ends in the same way.
    have hClose : ∀ es es' : List Expr, es.map Expr.bare = es'.map Expr.bare →
        Agree (fun a b => a.bare = b.bare)
          (do
            expectSymbol .rightParen "function call"
            return Expr.call name es (← spanFrom callee.span.start))
          (do
            expectSymbol .rightParen "function call"
            return Expr.call name es' (← spanFrom callee'.span.start)) := by
      intro es es' hes
      refine agree_then (agree_expectSymbol _ _) ?_
      refine agree_spanned _ _ fun _ _ => ?_
      rw [Expr.bare, Expr.bare, bareEach_eq_map, bareEach_eq_map, hes]
    refine agree_then (agree_spend _) ?_
    refine agree_then (agree_expectSymbol _ _) ?_
    refine agree_bind (agree_isAt _) ?_
    rintro closed _ rfl
    refine agree_ite (hClose [] [] rfl) ?_
    refine agree_bind (agree_commaSeparated hInner) ?_
    intro es es' hes
    exact hClose es es' (map_eq_of_forall₂ hes)

theorem stepOver_agree {e e' : Expr} (h : e.bare = e'.bare) :
    Agree (fun a b => a.bare = b.bare) (stepOver e) (stepOver e') := by
  refine agree_bind agree_peek? ?_
  rintro kind? _ rfl
  rw [name?_of_bare h, description_of_bare h]
  split
  · exact agree_pure h
  · split
    · exact agree_throw (.unsuitable _ _ _ _)
    · refine agree_then agree_advance ?_
      refine agree_spanned _ _ fun _ _ => ?_
      rw [Expr.bare, Expr.bare, h]

theorem suffixedOver_steady (hInner : Steady Expr.bare inner) :
    Steady Expr.bare (suffixedOver inner) := by
  rw [suffixedOver_eq]
  refine agree_bind (primaryOver_steady hInner) ?_
  intro head head' hHead
  refine agree_bind (agree_isAt _) ?_
  rintro called _ rfl
  refine agree_ite ?_ (stepOver_agree hHead)
  exact agree_bind (callOver_agree hInner hHead) fun _ _ => stepOver_agree

theorem unaryWithin_steady (hInner : Steady Expr.bare inner) (n : Nat) :
    Steady Expr.bare (unaryWithin inner n) := by
  induction n with
  | zero => exact agree_bind agree_here fun _ _ _ => agree_throw (.tooDeep _ _)
  | succ n ih =>
    refine agree_bind agree_here ?_
    intro start start' _
    refine agree_bind agree_peek? ?_
    rintro kind? _ rfl
    split
    · exact suffixedOver_steady hInner
    · refine agree_then (agree_spend _) ?_
      refine agree_then agree_advance ?_
      refine agree_bind ih ?_
      intro operand operand' hOperand
      rw [name?_of_bare hOperand, description_of_bare hOperand]
      refine agree_ite (agree_throw (.unsuitable _ _ _ _)) (agree_pure ?_)
      rw [Expr.bare, Expr.bare, hOperand]

theorem unaryOver_steady (hInner : Steady Expr.bare inner) :
    Steady Expr.bare (unaryOver inner) := by
  refine agree_bind agree_get ?_
  intro s t hAlike
  -- What bounds the recursion is the budget, which both runs share.
  rw [hAlike.budget]
  exact unaryWithin_steady hInner _

theorem chain_steady {op? : TokenKind → Option BinaryOp} {operand : Parser Expr}
    (hOperand : Steady Expr.bare operand) : Steady Expr.bare (chain op? operand) := by
  refine agree_bind hOperand ?_
  intro first first' hFirst
  have hStep : ∀ op : BinaryOp, Steady bareOperand (do
      spend operatorCost
      advance
      let right ← operand
      return (op, right)) := by
    intro op
    refine agree_then (agree_spend _) ?_
    refine agree_then agree_advance ?_
    refine agree_bind hOperand ?_
    intro right right' hRight
    refine agree_pure ?_
    rw [bareOperand, bareOperand, hRight]
  refine agree_bind (agree_many (fun s t hAlike => by rw [hAlike.peek?]) hStep) ?_
  intro ops ops' hOps
  refine agree_pure ?_
  rw [bare_foldl_binary, bare_foldl_binary, hFirst, map_eq_of_forall₂ hOps]

theorem equalityOver_steady (hInner : Steady Expr.bare inner) :
    Steady Expr.bare (equalityOver inner) := by
  have hProducts : Steady Expr.bare (multiplicativeOver inner) :=
    chain_steady (unaryOver_steady hInner)
  have hSums : Steady Expr.bare (additiveOver inner) := chain_steady hProducts
  have hCompared : Steady Expr.bare (relationalOver inner) := chain_steady hSums
  exact chain_steady hCompared

theorem assignmentOver_steady (hInner : Steady Expr.bare inner) :
    Steady Expr.bare (assignmentOver inner) := by
  refine agree_bind (equalityOver_steady hInner) ?_
  intro left left' hLeft
  refine agree_bind agree_peek? ?_
  rintro kind? _ rfl
  rw [name?_of_bare hLeft, description_of_bare hLeft]
  split
  · exact agree_pure hLeft
  · refine agree_then agree_advance ?_
    refine agree_then (agree_spend _) ?_
    refine agree_bind hInner ?_
    intro right right' hRight
    split
    · exact agree_throw (.unsuitable _ _ _ _)
    · refine agree_pure ?_
      rw [Expr.bare, Expr.bare, hRight]

theorem expressionWithin_steady (n : Nat) : Steady Expr.bare (expressionWithin n) := by
  induction n with
  | zero => exact agree_bind agree_here fun _ _ _ => agree_throw (.tooDeep _ _)
  | succ n ih => exact assignmentOver_steady ih

theorem expression_steady : Steady Expr.bare expression := by
  refine agree_bind agree_get ?_
  intro s t hAlike
  rw [hAlike.budget]
  exact expressionWithin_steady _

end

/-! ## Declarators -/

theorem typeSpecifier_agree : Agree Eq typeSpecifier typeSpecifier := by
  refine agree_bind agree_peek? ?_
  rintro kind? _ rfl
  split
  · exact agree_then agree_advance (agree_pure rfl)
  · exact agree_unexpected _

theorem pointers_agree (base : Ty) : Agree Eq (pointers base) (pointers base) := by
  refine agree_bind (agree_manyWhile (fun s t hAlike => hAlike.isAt _) agree_advance) ?_
  intro stars stars' hStars
  rw [List.forall₂_eq_eq_eq] at hStars
  rw [hStars]
  exact agree_pure rfl

theorem declarator_agree (base : Ty) (context : String) :
    Agree Eq (declarator base context) (declarator base context) := by
  refine agree_bind (pointers_agree base) ?_
  rintro ty _ rfl
  refine agree_bind (agree_identifier context) ?_
  rintro name _ rfl
  refine agree_bind (agree_accept _) ?_
  rintro bracketed _ rfl
  exact agree_ite (agree_then (agree_expectSymbol _ _) (agree_pure rfl)) (agree_pure rfl)

/-! ## Statements -/

/-- Two statements that still lack their spans and are the same otherwise. -/
def FormsAlike (form form' : Span → Stmt) : Prop :=
  ∀ span span', (form span).bare = (form' span').bare

section

variable {inner : Parser Stmt}

theorem blockOver_steady (hInner : Steady Stmt.bare inner) :
    Steady Block.bare (blockOver inner) := by
  refine agree_bind agree_here ?_
  intro start start' _
  have hBraces : ∀ s t : Stream, s.Alike t →
      (!s.isAt (.symbol .rightBrace) && !s.isAt .endOfFile) =
        (!t.isAt (.symbol .rightBrace) && !t.isAt .endOfFile) := by
    intro s t hAlike
    rw [hAlike.isAt, hAlike.isAt]
  refine agree_bind (R := fun ss ss' => bareAll ss = bareAll ss') (agree_refunding ?_) ?_
  · refine agree_then (agree_spend _) ?_
    refine agree_then (agree_expectSymbol _ _) ?_
    refine agree_bind (agree_manyWhile hBraces hInner) ?_
    intro stmts stmts' hStmts
    refine agree_then (agree_expectSymbol _ _) (agree_pure ?_)
    rw [bareAll_eq_map, bareAll_eq_map, map_eq_of_forall₂ hStmts]
  · intro stmts stmts' hStmts
    refine agree_spanned start start' fun _ _ => ?_
    rw [Block.bare, Block.bare, hStmts]

theorem bodyOver_steady (hInner : Steady Stmt.bare inner) :
    Steady Block.bare (bodyOver inner) := by
  refine agree_bind (agree_isAt _) ?_
  rintro braced _ rfl
  refine agree_ite (blockOver_steady hInner) ?_
  refine agree_then (agree_spend _) ?_
  refine agree_bind hInner ?_
  intro s s' hs
  refine agree_pure ?_
  simp only [Block.bare, bareAll, hs]

theorem condition_steady (construct : String) : Steady Expr.bare (condition construct) := by
  refine agree_then (agree_expectSymbol _ _) ?_
  refine agree_bind (agree_refunding expression_steady) ?_
  intro e e' he
  exact agree_then (agree_expectSymbol _ _) (agree_pure he)

theorem elseOver_steady (hInner : Steady Stmt.bare inner) :
    Steady Else.bare (elseOver inner) := by
  refine agree_bind (agree_accept _) ?_
  rintro found _ rfl
  refine agree_ite ?_ (agree_pure rfl)
  refine agree_bind (agree_isAt _) ?_
  rintro chained _ rfl
  refine agree_ite (agree_then (agree_spend _) (agree_bind hInner ?_))
    (agree_bind (bodyOver_steady hInner) ?_)
  · intro next next' hNext
    exact agree_pure (congrArg Else.chain hNext)
  · intro body body' hBody
    exact agree_pure (congrArg Else.block hBody)

theorem branchOver_agree (hInner : Steady Stmt.bare inner) :
    Agree FormsAlike (branchOver inner) (branchOver inner) := by
  refine agree_bind (condition_steady "if") ?_
  intro e e' he
  refine agree_bind (bodyOver_steady hInner) ?_
  intro thenBlock thenBlock' hThen
  refine agree_bind (elseOver_steady hInner) ?_
  intro elseBranch elseBranch' hElse
  refine agree_pure fun _ _ => ?_
  rw [Stmt.bare, Stmt.bare, he, hThen, hElse]

theorem loopOver_agree (hInner : Steady Stmt.bare inner) :
    Agree FormsAlike (loopOver inner) (loopOver inner) := by
  refine agree_bind (condition_steady "while") ?_
  intro e e' he
  refine agree_bind (bodyOver_steady hInner) ?_
  intro body body' hBody
  refine agree_pure fun _ _ => ?_
  rw [Stmt.bare, Stmt.bare, he, hBody]

theorem some_expression_steady : Steady (Option.map Expr.bare) (some <$> expression) :=
  agree_map expression_steady fun _ _ he => congrArg some he

theorem leave_agree : Agree FormsAlike leave leave := by
  have hClose : ∀ value value' : Option Expr, value.map Expr.bare = value'.map Expr.bare →
      Agree FormsAlike
        (do
          expectSymbol .semicolon "return statement"
          return Stmt.leave value)
        (do
          expectSymbol .semicolon "return statement"
          return Stmt.leave value') := by
    intro value value' hValue
    refine agree_then (agree_expectSymbol _ _) (agree_pure fun _ _ => ?_)
    rw [Stmt.bare, Stmt.bare, hValue]
  refine agree_bind (agree_isAt _) ?_
  rintro bareReturn _ rfl
  refine agree_ite (hClose none none rfl) ?_
  exact agree_bind some_expression_steady hClose

theorem declaration_agree : Agree FormsAlike declaration declaration := by
  refine agree_bind typeSpecifier_agree ?_
  rintro base _ rfl
  refine agree_bind (declarator_agree base _) ?_
  rintro ⟨name, ty⟩ _ rfl
  have hClose : ∀ init init' : Option Expr, init.map Expr.bare = init'.map Expr.bare →
      Agree FormsAlike
        (do
          expectSymbol .semicolon "variable declaration"
          return Stmt.declare name ty init)
        (do
          expectSymbol .semicolon "variable declaration"
          return Stmt.declare name ty init') := by
    intro init init' hInit
    refine agree_then (agree_expectSymbol _ _) (agree_pure fun _ _ => ?_)
    rw [Stmt.bare, Stmt.bare, hInit]
  refine agree_bind (agree_accept _) ?_
  rintro initialised _ rfl
  exact agree_ite (agree_bind some_expression_steady hClose) (hClose none none rfl)

theorem evaluation_agree : Agree FormsAlike evaluation evaluation := by
  refine agree_bind expression_steady ?_
  intro e e' he
  refine agree_then (agree_expectSymbol _ _) (agree_pure fun _ _ => ?_)
  rw [Stmt.bare, Stmt.bare, he]

theorem formOver_agree (hInner : Steady Stmt.bare inner) :
    Agree FormsAlike (formOver inner) (formOver inner) := by
  refine agree_bind agree_peek? ?_
  rintro kind? _ rfl
  split
  · refine agree_bind (blockOver_steady hInner) ?_
    intro body body' hBody
    refine agree_pure fun _ _ => ?_
    rw [Stmt.bare, Stmt.bare, hBody]
  · exact agree_then agree_advance (branchOver_agree hInner)
  · exact agree_then agree_advance (loopOver_agree hInner)
  · exact agree_then agree_advance leave_agree
  · exact agree_ite declaration_agree evaluation_agree
  · exact evaluation_agree

theorem statementOver_steady (hInner : Steady Stmt.bare inner) :
    Steady Stmt.bare (statementOver inner) := by
  refine agree_bind agree_here ?_
  intro start start' _
  refine agree_bind (agree_refunding (formOver_agree hInner)) ?_
  intro form form' hForm
  exact agree_spanned start start' hForm

end

theorem statementWithin_steady (n : Nat) : Steady Stmt.bare (statementWithin n) := by
  induction n with
  | zero => exact agree_bind agree_here fun _ _ _ => agree_throw (.tooDeep _ _)
  | succ n ih => exact statementOver_steady ih

theorem statement_steady : Steady Stmt.bare statement := by
  refine agree_bind agree_get ?_
  intro s t hAlike
  rw [hAlike.budget]
  exact statementWithin_steady _

/-! ## Programs -/

theorem param_steady : Steady Param.bare param := by
  refine agree_bind agree_here ?_
  intro start start' _
  refine agree_bind typeSpecifier_agree ?_
  rintro base _ rfl
  refine agree_bind (declarator_agree base _) ?_
  rintro ⟨name, type⟩ _ rfl
  exact agree_spanned start start' fun _ _ => rfl

theorem isVoidAlone_alike {s t : Stream} (h : s.Alike t) : isVoidAlone s = isVoidAlone t := by
  rw [isVoidAlone, isVoidAlone, h.isAt, h.tail.peek?]

theorem params_steady : Steady (List.map Param.bare) params := by
  refine agree_bind (agree_isAt _) ?_
  rintro closed _ rfl
  refine agree_ite (agree_pure rfl) ?_
  refine agree_bind agree_get ?_
  intro s t hAlike
  rw [isVoidAlone_alike hAlike]
  refine agree_ite (agree_then agree_advance (agree_pure rfl)) ?_
  exact (agree_commaSeparated param_steady).mono fun _ _ => map_eq_of_forall₂

theorem functionHead_steady : Steady bareHead functionHead := by
  refine agree_bind typeSpecifier_agree ?_
  rintro base _ rfl
  refine agree_bind (pointers_agree base) ?_
  rintro returns _ rfl
  refine agree_bind (agree_identifier _) ?_
  rintro name _ rfl
  refine agree_then (agree_expectSymbol _ _) ?_
  refine agree_bind params_steady ?_
  intro params params' hParams
  refine agree_then (agree_expectSymbol _ _) (agree_pure ?_)
  rw [bareHead, bareHead, hParams]

theorem bare_function_of_head {head head' : String × List Param × Ty} {b b' : Block}
    (hHead : bareHead head = bareHead head') (hBody : b.bare = b'.bare) (span span' : Span) :
    (Function.mk head.1 head.2.1 head.2.2 b span).bare =
      (Function.mk head'.1 head'.2.1 head'.2.2 b' span').bare := by
  simp only [bareHead, Prod.mk.injEq] at hHead
  simp only [Function.bare, hHead, hBody]

theorem function_steady : Steady Function.bare function := by
  rw [function_eq]
  refine agree_bind agree_here ?_
  intro start start' _
  refine agree_bind functionHead_steady ?_
  intro head head' hHead
  refine agree_bind (blockOver_steady statement_steady) ?_
  intro body body' hBody
  exact agree_spanned start start' (bare_function_of_head hHead hBody)

theorem program_steady : Steady Program.bare program := by
  have hMore : ∀ s t : Stream, s.Alike t → (!s.isAt .endOfFile) = !t.isAt .endOfFile := by
    intro s t hAlike
    rw [hAlike.isAt]
  refine agree_bind agree_here ?_
  intro start start' _
  refine agree_bind (agree_manyWhile hMore function_steady) ?_
  intro functions functions' hFunctions
  refine agree_bind agree_here ?_
  intro stop stop' _
  refine agree_pure ?_
  simp only [Program.bare, map_eq_of_forall₂ hFunctions]

end Parser

/-- Lists of tokens of the same kinds have the same parse, up to locations. -/
theorem parseTokens_alike {tokens tokens' : List Token}
    (h : tokens.map (·.kind) = tokens'.map (·.kind)) :
    (∃ p p', parseTokens tokens = .ok p ∧ parseTokens tokens' = .ok p' ∧ p.bare = p'.bare) ∨
    ∃ e e', parseTokens tokens = .error e ∧ parseTokens tokens' = .error e' ∧ e.Alike e' := by
  have hAlike : (Parser.Stream.ofTokens tokens).Alike (.ofTokens tokens') := ⟨h, rfl⟩
  have hEnd := Parser.program_steady _ _ hAlike
  unfold parseTokens
  generalize Parser.program (.ofTokens tokens) = x at hEnd
  generalize Parser.program (.ofTokens tokens') = y at hEnd
  cases hEnd with
  | ok hBare _ => exact .inl ⟨_, _, rfl, rfl, hBare⟩
  | error _ _ hError => exact .inr ⟨_, _, rfl, rfl, hError⟩

end CToGo.Source
