import CToGo.Proofs.Grammar.Expressions

/-!
# What expressions cost

What a successful parser of expressions takes from the nesting budget can be read off the
tokens it has read: four for each opening parenthesis, and one for each operator that does not
step the operand in front of it. Whether `++` or `--` does so is decided by the token before
it.

* `nestingPrice`, `nestingCost`: the price of a token, and of the tokens of an expression.
* `Charged P s t`: from `s` to `t` just the price of the tokens in between was taken, whatever
  token with `P` stands in front of them.
* `expression_charges`: an expression costs the price of its tokens.
-/

namespace CToGo.Source.Parser

/-! ## Prices -/

/-- Whether an operand that can be stepped may end with the token. -/
def endsOperand : Option TokenKind → Bool
  | some (.identifier _) | some (.symbol .rightParen) => true
  | _ => false

/-- What a token of an expression costs, given the token in front of it. -/
def nestingPrice (before : Option TokenKind) : TokenKind → Nat
  | .symbol .leftParen => 4
  | .symbol .plusPlus | .symbol .minusMinus => if endsOperand before then 0 else 1
  | .symbol .plus | .symbol .minus | .symbol .star | .symbol .slash | .symbol .percent => 1
  | .symbol .less | .symbol .greater | .symbol .lessEqual | .symbol .greaterEqual => 1
  | .symbol .equalEqual | .symbol .bangEqual => 1
  | .symbol .equal | .symbol .plusEqual | .symbol .minusEqual | .symbol .starEqual
  | .symbol .slashEqual | .symbol .percentEqual => 1
  | _ => 0

/-- What the tokens of an expression cost, given the token in front of them. -/
def nestingCost (before : Option TokenKind) : List TokenKind → Nat
  | [] => 0
  | kind :: rest => nestingPrice before kind + nestingCost (some kind) rest

theorem nestingCost_append (before : Option TokenKind) (read more : List TokenKind) :
    nestingCost before (read ++ more) =
      nestingCost before read + nestingCost (read.getLast?.or before) more := by
  induction read generalizing before with
  | nil => simp [nestingCost]
  | cons kind read ih =>
    have hLast : read.getLast?.or (some kind) = ((kind :: read).getLast?).or before := by
      cases read <;> simp [List.getLast?_cons]
    rw [List.cons_append, nestingCost, nestingCost, ih, hLast, Nat.add_assoc]

theorem nestingPrice_binaryMark (op : BinaryOp) (before : Option TokenKind) :
    nestingPrice before (.symbol (binaryMark op)) = operatorCost := by
  cases op <;> rfl

theorem nestingPrice_assignMark (op : AssignOp) (before : Option TokenKind) :
    nestingPrice before (.symbol (assignMark op)) = operatorCost := by
  cases op <;> rfl

theorem nestingPrice_unaryMark (op : UnaryOp) {before : Option TokenKind}
    (h : endsOperand before = false) :
    nestingPrice before (.symbol (unaryMark op)) = operatorCost := by
  cases op <;> simp [nestingPrice, unaryMark, operatorCost, h]

theorem nestingPrice_step {op : UnaryOp} (hop : op ≠ .negate) {before : Option TokenKind}
    (h : endsOperand before = true) : nestingPrice before (.symbol (unaryMark op)) = 0 := by
  cases op <;> simp_all [nestingPrice, unaryMark]

theorem endsOperand_binaryMark (op : BinaryOp) :
    endsOperand (some (.symbol (binaryMark op))) = false := by
  cases op <;> rfl

theorem endsOperand_assignMark (op : AssignOp) :
    endsOperand (some (.symbol (assignMark op))) = false := by
  cases op <;> rfl

theorem endsOperand_unaryMark (op : UnaryOp) :
    endsOperand (some (.symbol (unaryMark op))) = false := by
  cases op <;> rfl

/-! ## Charges -/

/-- Between the two streams some tokens were read, and just their price was paid. `P` says
which tokens may stand in front of them. -/
def Charged (P : Option TokenKind → Prop) (s t : Stream) : Prop :=
  ∃ read, s.kinds = read ++ t.kinds ∧
    ∀ before, P before → s.budget = t.budget + nestingCost before read

/-- The token in front ends no operand, so that `++` and `--` belong to what follows. -/
def Opening (before : Option TokenKind) : Prop := endsOperand before = false

/-- Any token. -/
def Anything (_ : Option TokenKind) : Prop := True

namespace Charged

variable {P : Option TokenKind → Prop} {s t u : Stream}

theorem refl (P : Option TokenKind → Prop) (s : Stream) : Charged P s s :=
  ⟨[], rfl, fun _ _ => rfl⟩

theorem trans (h : Charged P s t) (h' : Charged Anything t u) : Charged P s u := by
  obtain ⟨read, hKinds, hCost⟩ := h
  obtain ⟨more, hKinds', hCost'⟩ := h'
  refine ⟨read ++ more, by rw [hKinds, hKinds', List.append_assoc], ?_⟩
  intro before hBefore
  have hRead := hCost before hBefore
  have hMore := hCost' (read.getLast?.or before) trivial
  rw [nestingCost_append]
  omega

/-- A token that is read and paid for. -/
theorem token {k : TokenKind} (hs : s.kinds.head? = some k) (ht : t.kinds = s.tail.kinds)
    (hPaid : ∀ before, P before → s.budget = t.budget + nestingPrice before k) :
    Charged P s t := by
  refine ⟨[k], by rw [Stream.kinds_of_head? hs, ht]; rfl, ?_⟩
  intro before hBefore
  rw [nestingCost, nestingCost, Nat.add_zero]
  exact hPaid before hBefore

/-- A token that ends no operand, and then something that begins a new one. -/
theorem token_then {k : TokenKind} (hs : s.kinds.head? = some k) (ht : t.kinds = s.tail.kinds)
    (hPaid : ∀ before, P before → s.budget = t.budget + nestingPrice before k)
    (hk : Opening (some k)) (h : Charged Opening t u) : Charged P s u := by
  obtain ⟨read, hKinds, hCost⟩ := h
  refine ⟨k :: read, by rw [Stream.kinds_of_head? hs, ← ht, hKinds]; rfl, ?_⟩
  intro before hBefore
  have hToken := hPaid before hBefore
  have hRead := hCost (some k) hk
  rw [nestingCost]
  omega

/-- An operator behind what can be stepped is free. -/
theorem step {op : UnaryOp} (hop : op ≠ .negate) (h : Charged P s t)
    (hLast : ∃ read k, s.kinds = read ++ k :: t.kinds ∧ endsOperand (some k) = true)
    (ht : t.kinds.head? = some (.symbol (unaryMark op))) : Charged P s t.tail := by
  obtain ⟨read, hKinds, hCost⟩ := h
  obtain ⟨init, k, hInit, hk⟩ := hLast
  have hRead : read = init ++ [k] := by
    have hSame : read ++ t.kinds = (init ++ [k]) ++ t.kinds := by
      rw [← hKinds, hInit, List.append_assoc, List.singleton_append]
    exact List.append_cancel_right hSame
  refine ⟨read ++ [TokenKind.symbol (unaryMark op)], ?_, ?_⟩
  · rw [hKinds, Stream.kinds_of_head? ht, List.append_assoc, List.singleton_append]
  · intro before hBefore
    have hFree : nestingPrice (read.getLast?.or before) (.symbol (unaryMark op)) = 0 := by
      refine nestingPrice_step hop ?_
      rw [hRead, List.getLast?_concat, Option.some_or, hk]
    rw [nestingCost_append, nestingCost, nestingCost, hFree, Stream.budget_tail]
    exact hCost before hBefore

end Charged

/-! ## Steps of parsers -/

section

variable {α β : Type} {s : Stream} {Q : Unit → Stream → Prop}

theorem outcome_spend_paid {cost : Nat}
    (hQ : cost ≤ s.budget → Q () { s with budget := s.budget - cost }) :
    Outcome (spend cost) s Q fun _ => True := by
  unfold spend
  rw [outcome_bind, outcome_get]
  split
  · exact trivial
  · next h => exact hQ (Nat.le_of_not_lt h)

theorem outcome_advance_tail {E : GrammarError → Prop} (hQ : Q () s.tail) :
    Outcome advance s Q E := hQ

theorem outcome_expectSymbol_tail {m : Symbol} {context : String}
    (hQ : s.kinds.head? = some (.symbol m) → Q () s.tail) :
    Outcome (expectSymbol m context) s Q fun _ => True := by
  unfold expectSymbol expect
  rw [outcome_bind, outcome_isAt]
  split
  · next h => exact hQ ((Stream.isAt_iff (by simp)).mp h)
  · exact trivial

/-- What every item respects, a repetition respects as well. -/
theorem outcome_many_of_trans {next? : Stream → Option β} {item : β → Parser α}
    {T : Stream → Stream → Prop} {E : GrammarError → Prop} (hRefl : ∀ s, T s s)
    (hTrans : ∀ s t u, T s t → T t u → T s u)
    (hItem : ∀ s b, next? s = some b → Outcome (item b) s (fun _ t => T s t) E) :
    Outcome (many next? item) s (fun _ t => T s t) E := by
  unfold many
  rw [outcome_bind, outcome_get]
  generalize s.tokens = bound
  induction bound generalizing s with
  | nil => exact hRefl s
  | cons _ bound ih =>
    rw [manyWithin, outcome_bind, outcome_get]
    split
    · exact hRefl s
    · next b hb =>
      rw [outcome_bind]
      refine (hItem s b hb).mono fun a t hFirst => ?_
      rw [outcome_bind]
      exact ih.mono fun as u hRest => hTrans s t u hFirst hRest

theorem outcome_manyWhile_of_trans {more : Stream → Bool} {item : Parser α}
    {T : Stream → Stream → Prop} {E : GrammarError → Prop} (hRefl : ∀ s, T s s)
    (hTrans : ∀ s t u, T s t → T t u → T s u)
    (hItem : ∀ s, more s → Outcome item s (fun _ t => T s t) E) :
    Outcome (manyWhile more item) s (fun _ t => T s t) E := by
  refine outcome_many_of_trans hRefl hTrans fun s _ hMore => hItem s ?_
  simpa using hMore

end

/-! ## Expressions -/

/-- If the parser succeeds, the price of the tokens that it has read was paid. -/
def Charges (p : Parser Expr) : Prop :=
  ∀ s, Outcome p s (fun _ t => Charged Opening s t) fun _ => True

section

variable {inner : Parser Expr}

/-- Payment and then the token that is paid for. -/
theorem charged_of_paid {P : Option TokenKind → Prop} {s t : Stream} {k : TokenKind} {cost : Nat}
    (hs : s.kinds.head? = some k) (hCost : cost ≤ s.budget)
    (hPrice : ∀ before, P before → nestingPrice before k = cost) (hk : Opening (some k))
    (h : Charged Opening { s with budget := s.budget - cost }.tail t) : Charged P s t := by
  refine Charged.token_then hs ?_ ?_ hk h
  · rw [Stream.kinds_tail, Stream.kinds_tail]
    rfl
  · intro before hBefore
    rw [hPrice before hBefore, Stream.budget_tail]
    exact (Nat.sub_add_cancel hCost).symm

/-- A token that costs nothing, whatever stands in front of it. -/
theorem charged_of_free {s : Stream} {k : TokenKind} (hs : s.kinds.head? = some k)
    (hFree : ∀ before, nestingPrice before k = 0) (P : Option TokenKind → Prop) :
    Charged P s s.tail := by
  refine Charged.token hs rfl fun before _ => ?_
  rw [hFree, s.budget_tail, Nat.add_zero]

/-- A primary expression that is an identifier ends with a token behind which an operator
steps it. -/
theorem primaryOver_charges (hInner : Charges inner) (s : Stream) :
    Outcome (primaryOver inner) s
      (fun e t => Charged Opening s t ∧ (e.name? ≠ none →
        ∃ read k, s.kinds = read ++ k :: t.kinds ∧ endsOperand (some k) = true))
      fun _ => True := by
  unfold primaryOver
  rw [outcome_bind, outcome_here, outcome_bind, outcome_peek?]
  split
  · next value hs =>
    rw [outcome_bind]
    refine outcome_advance_tail ⟨charged_of_free hs (fun _ => rfl) _, ?_⟩
    intro hName
    exact absurd rfl hName
  · next name hs =>
    rw [outcome_bind]
    refine outcome_advance_tail ⟨charged_of_free hs (fun _ => rfl) _, ?_⟩
    intro _
    exact ⟨[], _, Stream.kinds_of_head? hs, rfl⟩
  · next hs =>
    rw [outcome_bind]
    refine outcome_spend_paid fun hCost => ?_
    rw [outcome_bind]
    refine outcome_advance_tail ?_
    rw [outcome_bind]
    refine (hInner _).mono fun e t hExpr => ?_
    rw [outcome_bind]
    refine outcome_expectSymbol_tail fun ht => ?_
    have hGroup : Charged Opening s t := charged_of_paid hs hCost (fun _ _ => rfl) rfl hExpr
    refine ⟨hGroup.trans (charged_of_free ht (fun _ => rfl) _), fun _ => ?_⟩
    obtain ⟨read, hKinds, _⟩ := hGroup
    exact ⟨read, _, by rw [hKinds, Stream.kinds_of_head? ht], rfl⟩
  · exact trivial

theorem commaSeparated_charges (hInner : Charges inner) (s : Stream) :
    Outcome (commaSeparated inner) s (fun _ t => Charged Opening s t) fun _ => True := by
  unfold commaSeparated
  rw [outcome_bind]
  refine (hInner s).mono fun first t hFirst => ?_
  rw [outcome_bind]
  refine (outcome_manyWhile_of_trans (T := Charged Anything) (Charged.refl _)
    (fun _ _ _ => Charged.trans) ?_).mono fun rest u hRest => hFirst.trans hRest
  intro u hComma
  have hu : u.kinds.head? = some (.symbol .comma) := (Stream.isAt_iff (by simp)).mp hComma
  rw [outcome_bind]
  refine outcome_advance_tail ((hInner _).mono fun e v hExpr => ?_)
  refine Charged.token_then hu rfl (fun before _ => ?_) rfl hExpr
  exact u.budget_tail.symm

theorem callOver_charges (hInner : Charges inner) {callee : Expr} {s : Stream} :
    Outcome (callOver inner callee) s
      (fun e t => e.name? = none ∧ Charged Anything s t) fun _ => True := by
  unfold callOver
  dsimp only
  split
  · exact trivial
  · next f _ =>
    rw [outcome_bind]
    refine outcome_spend_paid fun hCost => ?_
    rw [outcome_bind]
    refine outcome_expectSymbol_tail fun hs => ?_
    have hClose (es : List Expr) (t : Stream)
        (hArgs : Charged Opening { s with budget := s.budget - groupCost }.tail t) :
        Outcome (do
            expectSymbol .rightParen "function call"
            return Expr.call f es (← spanFrom callee.span.start)) t
          (fun e u => e.name? = none ∧ Charged Anything s u) fun _ => True := by
      rw [outcome_bind]
      refine outcome_expectSymbol_tail fun ht => ⟨rfl, ?_⟩
      have hGroup : Charged Anything s t := charged_of_paid hs hCost (fun _ _ => rfl) rfl hArgs
      exact hGroup.trans (charged_of_free ht (fun _ => rfl) _)
    rw [outcome_bind, outcome_isAt]
    split
    · exact hClose [] _ (Charged.refl _ _)
    · rw [outcome_bind]
      exact (commaSeparated_charges hInner _).mono hClose

theorem stepOver_charges {e : Expr} {s t : Stream} (h : Charged Opening s t)
    (hLast : e.name? ≠ none →
      ∃ read k, s.kinds = read ++ k :: t.kinds ∧ endsOperand (some k) = true) :
    Outcome (stepOver e) t (fun _ u => Charged Opening s u) fun _ => True := by
  unfold stepOver
  rw [outcome_bind, outcome_peek?]
  split
  · exact h
  · next op hop =>
    obtain ⟨k, hk, hop⟩ := Option.bind_eq_some_iff.mp hop
    obtain ⟨hNe, rfl⟩ := trailingOp?_eq_some.mp hop
    split
    · exact trivial
    · next name hName =>
      rw [outcome_bind]
      exact outcome_advance_tail (h.step hNe (hLast (by simp [hName])) hk)

theorem suffixedOver_charges (hInner : Charges inner) : Charges (suffixedOver inner) := by
  intro s
  rw [suffixedOver_eq, outcome_bind]
  refine (primaryOver_charges hInner s).mono fun head t hHead => ?_
  rw [outcome_bind, outcome_isAt]
  split
  · rw [outcome_bind]
    refine (callOver_charges hInner).mono fun e u hCall => ?_
    exact stepOver_charges (hHead.1.trans hCall.2) fun hName => absurd hCall.1 hName
  · exact stepOver_charges hHead.1 hHead.2

theorem unaryWithin_charges (hInner : Charges inner) (n : Nat) :
    Charges (unaryWithin inner n) := by
  induction n with
  | zero =>
    intro s
    exact trivial
  | succ n ih =>
    intro s
    rw [unaryWithin, outcome_bind, outcome_here, outcome_bind, outcome_peek?]
    split
    · exact suffixedOver_charges hInner s
    · next op hop =>
      obtain ⟨k, hk, hop⟩ := Option.bind_eq_some_iff.mp hop
      obtain rfl := leadingOp?_eq_some.mp hop
      rw [outcome_bind]
      refine outcome_spend_paid fun hCost => ?_
      rw [outcome_bind]
      refine outcome_advance_tail ?_
      rw [outcome_bind]
      refine (ih _).mono fun operand t hOperand => ?_
      split
      · exact trivial
      · exact charged_of_paid hk hCost (fun _ => nestingPrice_unaryMark op)
          (endsOperand_unaryMark op) hOperand

/-- Operands joined by the operators of one level. -/
theorem chain_charges {op? : TokenKind → Option BinaryOp} {operand : Parser Expr}
    (hop : ∀ k op, op? k = some op → k = .symbol (binaryMark op)) (hOperand : Charges operand) :
    Charges (chain op? operand) := by
  intro s
  unfold chain
  rw [outcome_bind]
  refine (hOperand s).mono fun first t hFirst => ?_
  rw [outcome_bind]
  refine (outcome_many_of_trans (T := Charged Anything) (Charged.refl _)
    (fun _ _ _ => Charged.trans) ?_).mono fun rest u hRest => hFirst.trans hRest
  intro u op hNext
  rw [u.peek?_eq_head?] at hNext
  obtain ⟨k, hk, hNext⟩ := Option.bind_eq_some_iff.mp hNext
  obtain rfl := hop k op hNext
  rw [outcome_bind]
  refine outcome_spend_paid fun hCost => ?_
  rw [outcome_bind]
  refine outcome_advance_tail ?_
  rw [outcome_bind]
  refine (hOperand _).mono fun right v hRight => ?_
  exact charged_of_paid hk hCost (fun before _ => nestingPrice_binaryMark op before)
    (endsOperand_binaryMark op) hRight

theorem unaryOver_charges (hInner : Charges inner) : Charges (unaryOver inner) :=
  fun s => unaryWithin_charges hInner (s.budget + 1) s

theorem multiplicativeOver_charges (hInner : Charges inner) :
    Charges (multiplicativeOver inner) :=
  chain_charges (fun _ _ h => (multiplicativeOp?_eq_some.mp h).2) (unaryOver_charges hInner)

theorem additiveOver_charges (hInner : Charges inner) : Charges (additiveOver inner) :=
  chain_charges (fun _ _ h => (additiveOp?_eq_some.mp h).2) (multiplicativeOver_charges hInner)

theorem relationalOver_charges (hInner : Charges inner) : Charges (relationalOver inner) :=
  chain_charges (fun _ _ h => (relationalOp?_eq_some.mp h).2) (additiveOver_charges hInner)

theorem equalityOver_charges (hInner : Charges inner) : Charges (equalityOver inner) :=
  chain_charges (fun _ _ h => (equalityOp?_eq_some.mp h).2) (relationalOver_charges hInner)

theorem assignmentOver_charges (hInner : Charges inner) : Charges (assignmentOver inner) := by
  intro s
  unfold assignmentOver
  rw [outcome_bind]
  refine (equalityOver_charges hInner s).mono fun left t hLeft => ?_
  rw [outcome_bind, outcome_peek?]
  split
  · exact hLeft
  · next op hop =>
    obtain ⟨k, hk, hop⟩ := Option.bind_eq_some_iff.mp hop
    obtain rfl := assignOp?_eq_some.mp hop
    rw [outcome_bind]
    refine outcome_advance_tail ?_
    rw [outcome_bind]
    refine outcome_spend_paid fun hCost => ?_
    rw [outcome_bind]
    refine (hInner _).mono fun right u hRight => ?_
    split
    · exact trivial
    · -- Here the token is read before it is paid for.
      refine hLeft.trans (Charged.token_then hk (t := { t.tail with
        budget := t.tail.budget - operatorCost }) rfl ?_ (endsOperand_assignMark op) hRight)
      intro before _
      rw [nestingPrice_assignMark, ← t.budget_tail]
      exact (Nat.sub_add_cancel hCost).symm

theorem expressionWithin_charges (n : Nat) : Charges (expressionWithin n) := by
  induction n with
  | zero =>
    intro s
    exact trivial
  | succ n ih => exact assignmentOver_charges ih

end

/-- An expression costs the price of its tokens. -/
theorem expression_charges : Charges expression :=
  fun s => expressionWithin_charges (s.budget + 1) s

end CToGo.Source.Parser
