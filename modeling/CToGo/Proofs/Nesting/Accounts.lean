import CToGo.Proofs.Grammar.Programs
import CToGo.Proofs.Nesting.Budgets
import CToGo.Proofs.Nesting.Charges

/-!
# Accounts of the nesting budget

What has been spent of the nesting budget of a stream, whatever calls have led to it, and
whether they succeeded or failed.

* `Reachable.budget_le`: no call ever adds to the budget.
* `statement_restores`, `program_restores`, ...: a statement, a block, a function or a program
  that has been read leaves the budget as it was.
* `accounted_of_reachable`: the accounts of every stream that calls lead to.
-/

namespace CToGo.Source.Parser

/-- What has been spent of the nesting budget. -/
def Stream.spent (s : Stream) : Nat := maxNesting - s.budget

/-! ## No call adds to the budget -/

/-- Payments lower the budget, and a refund gives no more than what was spent. -/
theorem budget_le_paidPassage : PaidPassage fun s t => t.budget ≤ s.budget where
  refl s := Nat.le_refl s.budget
  trans h h' := Nat.le_trans h' h
  tail s := Nat.le_of_eq s.budget_tail
  spend s cost := Nat.sub_le s.budget cost
  refund _ := Nat.le_refl _

/-- A token read leaves the budget alone. -/
theorem budget_eq_passage : Passage fun s t => t.budget = s.budget where
  refl _ := rfl
  trans h h' := h'.trans h
  tail s := s.budget_tail

theorem Reachable.budget_le {tokens : List Token} {s : Stream} (h : Reachable tokens s) :
    s.budget ≤ maxNesting := h.keeps budget_le_paidPassage

/-! ## What is given back -/

/-- If the parser succeeds, it leaves the budget as it was. -/
def Restores {α : Type} (p : Parser α) : Prop :=
  ∀ s, Outcome p s (fun _ t => t.budget = s.budget) fun _ => True

section

variable {α β : Type} {p : Parser α}

theorem restores_of_keeps (h : Keeps (fun s t => t.budget = s.budget) p) : Restores p := by
  intro s
  have hBudget := h s
  unfold streamAfter at hBudget
  unfold Outcome
  split
  · next hRun => rwa [hRun] at hBudget
  · exact trivial

theorem restores_bind {f : α → Parser β} (hp : Restores p) (hf : ∀ a, Restores (f a)) :
    Restores (p >>= f) := by
  intro s
  rw [outcome_bind]
  refine (hp s).mono fun a t hFirst => ?_
  exact (hf a t).mono fun b u hRest => hRest.trans hFirst

theorem restores_refunding (p : Parser α) : Restores (refunding p) := by
  intro s
  unfold refunding
  rw [outcome_bind, outcome_get, outcome_bind]
  unfold Outcome
  cases p s with
  | ok a t => rfl
  | error e t => exact trivial

end

theorem restores_here : Restores here := restores_of_keeps (keeps_here budget_eq_passage)

theorem restores_spanned {α : Type} (start : Location) (f : Span → α) :
    Restores (do return f (← spanFrom start)) :=
  restores_of_keeps (keeps_spanned budget_eq_passage start f)

theorem restores_expectSymbol (mark : Symbol) (context : String) :
    Restores (expectSymbol mark context) :=
  restores_of_keeps (keeps_expectSymbol budget_eq_passage mark context)

theorem statementWithin_restores (n : Nat) : Restores (statementWithin n) := by
  cases n with
  | zero =>
    intro s
    exact trivial
  | succ n =>
    refine restores_bind restores_here fun start => ?_
    exact restores_bind (restores_refunding _) fun form => restores_spanned start form

theorem statement_restores : Restores statement :=
  fun s => statementWithin_restores (s.budget + 1) s

theorem block_restores : Restores block := by
  refine restores_bind restores_here fun start => ?_
  exact restores_bind (restores_refunding _) fun stmts => restores_spanned start _

theorem function_restores : Restores function := by
  rw [function_eq]
  refine restores_bind restores_here fun start => ?_
  refine restores_bind (restores_of_keeps (functionHead_keeps budget_eq_passage)) fun head => ?_
  exact restores_bind block_restores fun body => restores_spanned start _

theorem program_restores : Restores program := by
  have hFunctions : Restores (manyWhile (fun s => !s.isAt .endOfFile) function) := fun s =>
    outcome_manyWhile_of_trans (T := fun s t => t.budget = s.budget) (fun _ => rfl)
      (fun _ _ _ h h' => h'.trans h) fun t _ => function_restores t
  refine restores_bind restores_here fun start => ?_
  refine restores_bind hFunctions fun functions => ?_
  exact restores_bind restores_here fun stop => restores_of_keeps (keeps_pure budget_eq_passage _)

/-! ## What expressions cost -/

theorem Entry.parser_charges (entry : Entry) : Charges entry.parser := by
  cases entry with
  | expression => exact expression_charges
  | assignment => exact assignmentOver_charges expression_charges
  | equality => exact equalityOver_charges expression_charges
  | relational => exact relationalOver_charges expression_charges
  | additive => exact additiveOver_charges expression_charges
  | multiplicative => exact multiplicativeOver_charges expression_charges
  | unary => exact unaryOver_charges expression_charges
  | suffixed => exact suffixedOver_charges expression_charges
  | primary =>
    intro s
    exact (primaryOver_charges expression_charges s).mono fun _ _ h => h.1

/-- With a budget that does not run out, the parser would return `a` and leave `t` behind, at
the total cost `c`. -/
def SucceedsAt {α : Type} (p : Parser α) (s : Stream) (a : α) (c : Nat) (t : Stream) : Prop :=
  ∃ b, p (s.withBudget (b + c)) = .ok a (t.withBudget b)

/-! ## Accounts -/

/-- The accounts of a stream. -/
structure Accounted (s : Stream) : Prop where
  /-- No more than the whole budget is spent, and the rest is left. -/
  bounded : s.spent ≤ 256 ∧ s.spent + s.budget = 256
  /-- What a statement spends is given back once it has been read. -/
  statement : ∀ a t, Parser.statement s = .ok a t → t.spent = s.spent
  block : ∀ a t, Parser.block s = .ok a t → t.spent = s.spent
  function : ∀ a t, Parser.function s = .ok a t → t.spent = s.spent
  program : ∀ a t, Parser.program s = .ok a t → t.spent = s.spent
  /-- What an expression spends is the price of the tokens that it consists of. -/
  expression : ∀ (entry : Entry) (e : Expr) (t : Stream), entry.parser s = .ok e t →
    ∃ read, s.kinds = read ++ t.kinds ∧ t.spent = s.spent + nestingCost none read
  /-- An expression that is within the budget is read as if there were no budget. -/
  within : ∀ (entry : Entry) (e : Expr) (c : Nat) (t : Stream),
    SucceedsAt entry.parser s e c t → s.spent + c ≤ 256 →
      entry.parser s = .ok e (t.withBudget (s.budget - c))
  /-- An expression that is not within the budget is refused for its nesting. -/
  beyond : ∀ (entry : Entry) (e : Expr) (c : Nat) (t : Stream),
    SucceedsAt entry.parser s e c t → 256 < s.spent + c →
      ∃ error left location, entry.parser s = .error error left ∧
        error.toDiagnostic = .grammar "less deeply nested code" "nesting too deep" location

theorem spent_eq_of_restores {α : Type} {p : Parser α} (h : Restores p) {s t : Stream} {a : α}
    (hRun : p s = .ok a t) : t.spent = s.spent := by
  have hBudget := h s
  unfold Outcome at hBudget
  rw [hRun] at hBudget
  rw [Stream.spent, Stream.spent, hBudget]

/-- **The nesting budget is accounted for**, whatever calls have been made before and however
they have ended. At most the whole budget is spent. Statements, blocks, functions and programs
that have been read leave it as it was, expressions cost what their tokens cost, and whether
an expression is read depends on nothing but whether the budget covers its cost. -/
theorem accounted_of_reachable {tokens : List Token} {s : Stream} (h : Reachable tokens s) :
    Accounted s := by
  have hBudget : s.budget ≤ 256 := h.budget_le
  have hSpent : s.spent = 256 - s.budget := rfl
  refine ⟨by omega, fun _ _ => spent_eq_of_restores statement_restores,
    fun _ _ => spent_eq_of_restores block_restores,
    fun _ _ => spent_eq_of_restores function_restores,
    fun _ _ => spent_eq_of_restores program_restores, ?_, ?_, ?_⟩
  · intro entry e t hRun
    have hCharged := entry.parser_charges s
    unfold Outcome at hCharged
    rw [hRun] at hCharged
    obtain ⟨read, hKinds, hCost⟩ := hCharged
    have hPaid := hCost none rfl
    have hSpent' : t.spent = 256 - t.budget := rfl
    exact ⟨read, hKinds, by omega⟩
  · rintro entry e c t ⟨b, hRun⟩ hEnough
    obtain ⟨c', hc, hReplay⟩ := entry.parser_replays s.budget _ _ _ hRun
    simp only [Stream.budget_withBudget] at hc
    obtain rfl : c = c' := by omega
    exact (hReplay s.budget (Nat.lt_succ_self _)).1 (by omega)
  · rintro entry e c t ⟨b, hRun⟩ hShort
    obtain ⟨c', hc, hReplay⟩ := entry.parser_replays s.budget _ _ _ hRun
    simp only [Stream.budget_withBudget] at hc
    obtain rfl : c = c' := by omega
    obtain ⟨location, left, hDeep⟩ := (hReplay s.budget (Nat.lt_succ_self _)).2 (by omega)
    exact ⟨_, left, location, hDeep, rfl⟩

/-- The tokens of `(`, which is never closed, and then of a type and an expression. -/
def brokenGroup : List Token :=
  unlocatedTokens [.symbol .leftParen, .keyword .kwInt, .symbol .minus, .identifier "f",
    .symbol .leftParen, .identifier "a", .symbol .plusPlus, .symbol .rightParen, .symbol .star,
    .symbol .minusMinus, .identifier "b", .endOfFile]

/-- Behind the type, after an expression that was not read. -/
def afterBrokenGroup : Stream :=
  Call.typeSpecifier.after ((Call.expression .expression).after (.ofTokens brokenGroup))

theorem accounted_of_reachable_afterBrokenGroup :
    Reachable brokenGroup afterBrokenGroup ∧ Accounted afterBrokenGroup ∧
      afterBrokenGroup.spent = 4 ∧
      ∃ e t, expression afterBrokenGroup = .ok e t ∧ t.kinds = [.endOfFile] ∧ t.spent = 11 := by
  have hReachable : Reachable brokenGroup afterBrokenGroup := .call _ (.call _ .fresh)
  exact ⟨hReachable, accounted_of_reachable hReachable, rfl, _, _, rfl, rfl, rfl⟩

end CToGo.Source.Parser
