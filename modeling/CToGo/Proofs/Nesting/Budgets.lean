import CToGo.Proofs.Nesting.Passage
import CToGo.Proofs.Success

/-!
# Runs with other budgets

No decision of the grammar looks at the budget, and a payment that the budget does not allow
ends the run. So a run that succeeds goes in the same way with every other budget: it ends
with the same tree if the budget covers its cost, and else because the nesting is too deep.

The bounds on the depth of the recursion are taken from the budget, so a run with another
budget is one of another parser. Two parsers are therefore compared, up to a bound.

* `Replays n p q`: what `p` does, `q` does with every budget below `n`, as far as it reaches.
* `replays_bind`, `replays_spend_then`, ...: the steps.
* `expression_replays`: expressions with other budgets.
-/

namespace CToGo.Source.Parser

/-! ## Streams with another budget -/

namespace Stream

/-- The stream with another budget. -/
def withBudget (s : Stream) (budget : Nat) : Stream := { s with budget }

variable (s : Stream) (b : Nat)

@[simp] theorem tokens_withBudget : (s.withBudget b).tokens = s.tokens := rfl

@[simp] theorem budget_withBudget : (s.withBudget b).budget = b := rfl

@[simp] theorem peek?_withBudget : (s.withBudget b).peek? = s.peek? := rfl

@[simp] theorem isAt_withBudget (kind : TokenKind) : (s.withBudget b).isAt kind = s.isAt kind :=
  rfl

@[simp] theorem tail_withBudget : (s.withBudget b).tail = s.tail.withBudget b := by
  unfold tail
  cases hTokens : s.tokens <;> simp [withBudget, hTokens]

@[simp] theorem withBudget_self : s.withBudget s.budget = s := rfl

end Stream

/-! ## Replays -/

/-- Whenever `p` succeeds, at some cost, `q` succeeds in the same way with every budget below
`n` that covers the cost, and with any other it finds the nesting too deep. -/
def Replays {α : Type} (n : Nat) (p q : Parser α) : Prop :=
  ∀ s a t, p s = .ok a t → ∃ c, s.budget = t.budget + c ∧ ∀ b < n,
    (c ≤ b → q (s.withBudget b) = .ok a (t.withBudget (b - c))) ∧
    (b < c → ∃ location u, q (s.withBudget b) = .error (.tooDeep location) u)

section

variable {α β : Type} {n : Nat} {p q : Parser α}

theorem bind_of_ok {f : α → Parser β} {s t : Stream} {a : α} (h : p s = .ok a t) :
    (p >>= f) s = f a t := by
  simp only [bind, EStateM.bind, h]

theorem bind_of_error {f : α → Parser β} {s t : Stream} {e : GrammarError}
    (h : p s = .error e t) : (p >>= f) s = .error e t := by
  simp only [bind, EStateM.bind, h]

theorem Replays.mono {m : Nat} (h : Replays n p q) (hmn : m ≤ n) : Replays m p q := by
  intro s a t hRun
  obtain ⟨c, hc, hReplay⟩ := h s a t hRun
  exact ⟨c, hc, fun b hb => hReplay b (Nat.lt_of_lt_of_le hb hmn)⟩

/-- Below the bound zero there is no budget to compare with. -/
theorem Replays.other {q' : Parser α} (h : Replays n p q) : Replays 0 p q' := by
  intro s a t hRun
  obtain ⟨c, hc, _⟩ := h s a t hRun
  exact ⟨c, hc, fun b hb => absurd hb (Nat.not_lt_zero b)⟩

/-- A parser that never succeeds. -/
theorem replays_of_fails (hp : ∀ s a t, p s ≠ .ok a t) : Replays n p q :=
  fun s a t hRun => absurd hRun (hp s a t)

/-- A parser that has no use for the budget. -/
theorem replays_of_blind (hp : ∀ s a t, p s = .ok a t →
      t.budget = s.budget ∧ ∀ b, p (s.withBudget b) = .ok a (t.withBudget b)) :
    Replays n p p := by
  intro s a t hRun
  obtain ⟨hBudget, hSame⟩ := hp s a t hRun
  refine ⟨0, hBudget.symm, fun b _ => ⟨fun _ => hSame b, ?_⟩⟩
  intro hShort
  exact absurd hShort (Nat.not_lt_zero b)

theorem replays_bind {f g : α → Parser β} (hp : Replays n p q)
    (hf : ∀ a, Replays n (f a) (g a)) : Replays n (p >>= f) (q >>= g) := by
  intro s r u hRun
  obtain ⟨a, t, hFirst, hRest⟩ := bind_apply_eq_ok_iff.mp hRun
  obtain ⟨c, hc, hReplay⟩ := hp s a t hFirst
  obtain ⟨c', hc', hReplay'⟩ := hf a t r u hRest
  refine ⟨c + c', by omega, fun b hb => ⟨?_, ?_⟩⟩
  · intro hTotal
    have hEnough := (hReplay b hb).1 (by omega)
    have hEnough' := (hReplay' (b - c) (by omega)).1 (by omega)
    rw [bind_of_ok hEnough, hEnough', Nat.sub_sub]
  · intro hTotal
    by_cases hShort : b < c
    · obtain ⟨location, v, hDeep⟩ := (hReplay b hb).2 hShort
      exact ⟨location, v, bind_of_error hDeep⟩
    · -- The first part is paid for, and the second part is not.
      have hEnough := (hReplay b hb).1 (Nat.le_of_not_lt hShort)
      obtain ⟨location, v, hDeep⟩ := (hReplay' (b - c) (by omega)).2 (by omega)
      exact ⟨location, v, by rw [bind_of_ok hEnough, hDeep]⟩

theorem replays_then {step step' : Parser Unit} (hStep : Replays n step step')
    (hRest : Replays n p q) : Replays n (do step; p) (do step'; q) :=
  replays_bind hStep fun _ => hRest

theorem replays_ite {c : Prop} [Decidable c] {p' q' : Parser α} (hThen : Replays n p q)
    (hElse : Replays n p' q') : Replays n (if c then p else p') (if c then q else q') := by
  split
  · exact hThen
  · exact hElse

theorem replays_pure (a : α) : Replays n (pure a) (pure a) := by
  refine replays_of_blind ?_
  intro s r t hRun
  cases hRun
  exact ⟨rfl, fun _ => rfl⟩

theorem replays_throw (e e' : GrammarError) : Replays n (throw e : Parser α) (throw e') :=
  replays_of_fails nofun

theorem replays_unexpected (expected : Expectation) :
    Replays n (unexpected expected : Parser α) (unexpected expected) :=
  replays_of_fails nofun

/-! ## Steps -/

theorem replays_peek? : Replays n peek? peek? := by
  refine replays_of_blind ?_
  intro s r t hRun
  cases hRun
  exact ⟨rfl, fun _ => rfl⟩

theorem replays_isAt (kind : TokenKind) : Replays n (isAt kind) (isAt kind) := by
  refine replays_of_blind ?_
  intro s r t hRun
  cases hRun
  exact ⟨rfl, fun _ => rfl⟩

theorem replays_here : Replays n here here := by
  refine replays_of_blind ?_
  intro s r t hRun
  cases hRun
  exact ⟨rfl, fun _ => rfl⟩

theorem replays_spanFrom (start : Location) :
    Replays n (spanFrom start) (spanFrom start) := by
  refine replays_of_blind ?_
  intro s r t hRun
  cases hRun
  exact ⟨rfl, fun _ => rfl⟩

theorem replays_spanned (start : Location) (f : Span → α) :
    Replays n (do return f (← spanFrom start)) (do return f (← spanFrom start)) :=
  replays_bind (replays_spanFrom start) fun _ => replays_pure _

theorem replays_advance : Replays n advance advance := by
  refine replays_of_blind ?_
  intro s r t hRun
  cases hRun
  refine ⟨s.budget_tail, fun b => ?_⟩
  rw [← s.tail_withBudget b]
  rfl

theorem replays_expectSymbol (mark : Symbol) (context : String) :
    Replays n (expectSymbol mark context) (expectSymbol mark context) := by
  refine replays_bind (replays_isAt _) fun _ => ?_
  exact replays_ite replays_advance (replays_unexpected _)

theorem spend_of_enough {cost : Nat} {s : Stream} (h : cost ≤ s.budget) :
    spend cost s = .ok () (s.withBudget (s.budget - cost)) := by
  rw [spend_eq, if_neg (Nat.not_lt.mpr h)]
  rfl

theorem spend_of_short {cost : Nat} {s : Stream} (h : s.budget < cost) :
    spend cost s = .error (.tooDeep s.location) s := by
  rw [spend_eq, if_pos h]

/-- What has to be paid for need only be compared up to a smaller bound. -/
theorem replays_spend_then {cost : Nat} (hCost : 0 < cost) (h : Replays n p q) :
    Replays (n + 1) (do spend cost; p) (do spend cost; q) := by
  intro s a u hRun
  obtain ⟨_, t, hSpend, hRest⟩ := bind_apply_eq_ok_iff.mp hRun
  have hPaid : cost ≤ s.budget := by
    by_cases hShort : s.budget < cost
    · rw [spend_of_short hShort] at hSpend
      cases hSpend
    · exact Nat.le_of_not_lt hShort
  rw [spend_of_enough hPaid] at hSpend
  cases hSpend
  obtain ⟨c, hc, hReplay⟩ := h _ a u hRest
  rw [Stream.budget_withBudget] at hc
  refine ⟨cost + c, by omega, fun b hb => ?_⟩
  by_cases hShort : b < cost
  · have hDeep : spend cost (s.withBudget b) = .error _ _ := spend_of_short hShort
    exact ⟨fun hTotal => by omega, fun _ => ⟨_, _, bind_of_error hDeep⟩⟩
  · have hEnough : spend cost (s.withBudget b) = .ok () (s.withBudget (b - cost)) :=
      spend_of_enough (Nat.le_of_not_lt hShort)
    have hRest := hReplay (b - cost) (by omega)
    rw [bind_of_ok hEnough, ← Nat.sub_sub]
    exact ⟨fun hTotal => hRest.1 (by omega), fun hTotal => hRest.2 (by omega)⟩

/-- A parser that takes a bound from the budget. -/
theorem replays_bounded {f g : Nat → Parser α} (h : ∀ k m, m ≤ n → Replays m (f k) (g m)) :
    Replays n (do f ((← get).budget + 1)) (do g ((← get).budget + 1)) := by
  intro s a t hRun
  obtain ⟨c, hc, _⟩ := h (s.budget + 1) 0 (Nat.zero_le n) s a t hRun
  refine ⟨c, hc, fun b hb => ?_⟩
  obtain ⟨c', hc', hReplay⟩ := h (s.budget + 1) (b + 1) hb s a t hRun
  have hSame : c' = c := by omega
  subst hSame
  exact hReplay b (Nat.lt_succ_self b)

/-! ## Repetition -/

/-- What `next?` sees in the stream. -/
def seen (next? : Stream → Option β) : Parser (Option β) := return next? (← get)

theorem manyWithin_cons (next? : Stream → Option β) (item : β → Parser α) (token : Token)
    (bound : List Token) :
    manyWithin next? item (token :: bound) = (do
      match ← seen next? with
      | none => return []
      | some b =>
        let a ← item b
        let rest ← manyWithin next? item bound
        return a :: rest) := rfl

theorem replays_seen {next? : Stream → Option β}
    (hNext : ∀ s b, next? (s.withBudget b) = next? s) : Replays n (seen next?) (seen next?) := by
  refine replays_of_blind ?_
  intro s r t hRun
  cases hRun
  refine ⟨rfl, fun b => ?_⟩
  rw [← hNext s b]
  rfl

theorem replays_many {next? : Stream → Option β} {item item' : β → Parser α}
    (hNext : ∀ s b, next? (s.withBudget b) = next? s)
    (hItem : ∀ x, Replays n (item x) (item' x)) :
    Replays n (many next? item) (many next? item') := by
  have hWithin (bound : List Token) :
      Replays n (manyWithin next? item bound) (manyWithin next? item' bound) := by
    induction bound with
    | nil => exact replays_pure []
    | cons token bound ih =>
      rw [manyWithin_cons, manyWithin_cons]
      refine replays_bind (replays_seen hNext) fun x => ?_
      split
      · exact replays_pure []
      · refine replays_bind (hItem _) fun a => ?_
        exact replays_bind ih fun as => replays_pure (a :: as)
  intro s as u hRun
  exact hWithin s.tokens s as u hRun

theorem replays_commaSeparated (h : Replays n p q) :
    Replays n (commaSeparated p) (commaSeparated q) := by
  refine replays_bind h fun first => ?_
  have hRest : Replays n (do advance; p) (do advance; q) := replays_then replays_advance h
  refine replays_bind (replays_many (fun _ _ => rfl) fun _ => hRest) fun rest => ?_
  exact replays_pure (first :: rest)

end

/-! ## Expressions -/

section

variable {n : Nat} {inner inner' : Parser Expr}

theorem primaryOver_replays (hInner : Replays n inner inner') :
    Replays (n + 1) (primaryOver inner) (primaryOver inner') := by
  refine replays_bind replays_here fun start => ?_
  refine replays_bind replays_peek? fun _ => ?_
  split
  · exact replays_then replays_advance (replays_spanned start _)
  · exact replays_then replays_advance (replays_spanned start _)
  · refine replays_spend_then (by decide) ?_
    refine replays_then replays_advance ?_
    refine replays_bind hInner fun e => ?_
    exact replays_then (replays_expectSymbol _ _) (replays_pure e)
  · exact replays_unexpected _

theorem callOver_replays (hInner : Replays n inner inner') (callee : Expr) :
    Replays (n + 1) (callOver inner callee) (callOver inner' callee) := by
  unfold callOver
  dsimp only
  split
  · exact replays_throw _ _
  · next name _ =>
    have hClose (es : List Expr) : Replays n
        (do
          expectSymbol .rightParen "function call"
          return Expr.call name es (← spanFrom callee.span.start))
        (do
          expectSymbol .rightParen "function call"
          return Expr.call name es (← spanFrom callee.span.start)) :=
      replays_then (replays_expectSymbol _ _) (replays_spanned _ _)
    refine replays_spend_then (by decide) ?_
    refine replays_then (replays_expectSymbol _ _) ?_
    refine replays_bind (replays_isAt _) fun _ => ?_
    refine replays_ite (hClose []) ?_
    exact replays_bind (replays_commaSeparated hInner) hClose

theorem stepOver_replays (e : Expr) : Replays n (stepOver e) (stepOver e) := by
  refine replays_bind replays_peek? fun _ => ?_
  split
  · exact replays_pure e
  · split
    · exact replays_throw _ _
    · exact replays_then replays_advance (replays_spanned _ _)

theorem suffixedOver_replays (hInner : Replays n inner inner') :
    Replays (n + 1) (suffixedOver inner) (suffixedOver inner') := by
  rw [suffixedOver_eq, suffixedOver_eq]
  refine replays_bind (primaryOver_replays hInner) fun head => ?_
  refine replays_bind (replays_isAt _) fun _ => ?_
  refine replays_ite ?_ (stepOver_replays head)
  exact replays_bind (callOver_replays hInner head) stepOver_replays

/-- Each operator in front of an operand is paid for, so both bounds on their number fall
together with the bound on the budget. -/
theorem unaryWithin_replays (hInner : Replays n inner inner') (k : Nat) {m : Nat}
    (hm : m ≤ n + 1) : Replays m (unaryWithin inner k) (unaryWithin inner' m) := by
  induction k generalizing m with
  | zero => exact replays_of_fails nofun
  | succ k ih =>
    have hStep {m : Nat} (hm : m ≤ n) :
        Replays (m + 1) (unaryWithin inner (k + 1)) (unaryWithin inner' (m + 1)) := by
      refine replays_bind replays_here fun start => ?_
      refine replays_bind replays_peek? fun _ => ?_
      split
      · exact (suffixedOver_replays hInner).mono (Nat.succ_le_succ hm)
      · refine replays_spend_then (by decide) ?_
        refine replays_then replays_advance ?_
        refine replays_bind (ih (Nat.le_succ_of_le hm)) fun operand => ?_
        exact replays_ite (replays_throw _ _) (replays_pure _)
    cases m with
    | zero => exact (hStep (Nat.zero_le n)).other
    | succ m => exact hStep (Nat.le_of_succ_le_succ hm)

theorem unaryOver_replays (hInner : Replays n inner inner') :
    Replays (n + 1) (unaryOver inner) (unaryOver inner') :=
  replays_bounded fun k _ hm => unaryWithin_replays hInner k hm

theorem chain_replays (op? : TokenKind → Option BinaryOp) {operand operand' : Parser Expr}
    (hOperand : Replays n operand operand') :
    Replays n (chain op? operand) (chain op? operand') := by
  refine replays_bind hOperand fun first => ?_
  refine replays_bind (replays_many (fun _ _ => rfl) fun op => ?_) fun rest => replays_pure _
  refine (replays_spend_then (by decide) ?_).mono (Nat.le_succ n)
  refine replays_then replays_advance ?_
  exact replays_bind hOperand fun right => replays_pure (op, right)

theorem multiplicativeOver_replays (hInner : Replays n inner inner') :
    Replays (n + 1) (multiplicativeOver inner) (multiplicativeOver inner') :=
  chain_replays _ (unaryOver_replays hInner)

theorem additiveOver_replays (hInner : Replays n inner inner') :
    Replays (n + 1) (additiveOver inner) (additiveOver inner') :=
  chain_replays _ (multiplicativeOver_replays hInner)

theorem relationalOver_replays (hInner : Replays n inner inner') :
    Replays (n + 1) (relationalOver inner) (relationalOver inner') :=
  chain_replays _ (additiveOver_replays hInner)

theorem equalityOver_replays (hInner : Replays n inner inner') :
    Replays (n + 1) (equalityOver inner) (equalityOver inner') :=
  chain_replays _ (relationalOver_replays hInner)

theorem assignmentOver_replays (hInner : Replays n inner inner') :
    Replays (n + 1) (assignmentOver inner) (assignmentOver inner') := by
  refine replays_bind (equalityOver_replays hInner) fun left => ?_
  refine replays_bind replays_peek? fun _ => ?_
  split
  · exact replays_pure left
  · refine replays_then replays_advance ?_
    refine replays_spend_then (by decide) ?_
    refine replays_bind hInner fun right => ?_
    split
    · exact replays_throw _ _
    · exact replays_pure _

theorem expressionWithin_replays (k m : Nat) :
    Replays m (expressionWithin k) (expressionWithin m) := by
  induction k generalizing m with
  | zero => exact replays_of_fails nofun
  | succ k ih =>
    cases m with
    | zero => exact (assignmentOver_replays (ih 0)).other
    | succ m => exact assignmentOver_replays (ih m)

end

/-- An expression goes in the same way with every other budget. -/
theorem expression_replays (n : Nat) : Replays n expression expression :=
  replays_bounded fun k m _ => expressionWithin_replays k m

theorem Entry.parser_replays (entry : Entry) (n : Nat) :
    Replays (n + 1) entry.parser entry.parser := by
  have hInner := expression_replays n
  cases entry with
  | expression => exact expression_replays (n + 1)
  | assignment => exact assignmentOver_replays hInner
  | equality => exact equalityOver_replays hInner
  | relational => exact relationalOver_replays hInner
  | additive => exact additiveOver_replays hInner
  | multiplicative => exact multiplicativeOver_replays hInner
  | unary => exact unaryOver_replays hInner
  | suffixed => exact suffixedOver_replays hInner
  | primary => exact primaryOver_replays hInner

end CToGo.Source.Parser
