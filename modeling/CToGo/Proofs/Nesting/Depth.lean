import CToGo.Proofs.Nesting.Accounts
import CToGo.Proofs.Nesting.Heights

/-!
# The depth of parsed trees

Not every node of a tree is paid for: leaves, operators behind their operand, statements and
the bodies of functions are free. But a path can hold few of them in a row, so that the
nesting budget bounds the paths of what is parsed, and of what it is lowered to.

* `Affords s n t`: what was paid from `s` to `t` covers a tree of height `n`, up to two nodes.
* `expression_affords`: an expression is covered by what was paid for it.
* `statement_height_le`, `block_height_le`: statements and blocks are covered by the budget
  that they begin with.
* `shallowBody_of_reachable`: no path of a function that was read, or of its image, has more
  nodes than the whole budget.
-/

namespace CToGo.Source.Parser

/-! ## Repetition -/

section

variable {α β : Type} {s : Stream}

/-- What holds of a single item and is passed on from the items behind it holds of all items
that a repetition reads. -/
theorem outcome_many_of_cons {next? : Stream → Option β} {item : β → Parser α}
    {R : Stream → α → Stream → Prop} {T : Stream → List α → Stream → Prop}
    {E : GrammarError → Prop} (hNil : ∀ s, T s [] s)
    (hCons : ∀ s a t as u, R s a t → T t as u → T s (a :: as) u)
    (hItem : ∀ s b, next? s = some b → Outcome (item b) s (R s) E) :
    Outcome (many next? item) s (T s) E := by
  unfold many
  rw [outcome_bind, outcome_get]
  generalize s.tokens = bound
  induction bound generalizing s with
  | nil => exact hNil s
  | cons _ bound ih =>
    rw [manyWithin, outcome_bind, outcome_get]
    split
    · exact hNil s
    · next b hb =>
      rw [outcome_bind]
      refine (hItem s b hb).mono fun a t hFirst => ?_
      rw [outcome_bind]
      exact ih.mono fun as u hRest => hCons s a t as u hFirst hRest

theorem outcome_manyWhile_of_cons {more : Stream → Bool} {item : Parser α}
    {R : Stream → α → Stream → Prop} {T : Stream → List α → Stream → Prop}
    {E : GrammarError → Prop} (hNil : ∀ s, T s [] s)
    (hCons : ∀ s a t as u, R s a t → T t as u → T s (a :: as) u)
    (hItem : ∀ s, more s → Outcome item s (R s) E) :
    Outcome (manyWhile more item) s (T s) E := by
  refine outcome_many_of_cons hNil hCons fun s _ hMore => hItem s ?_
  simpa using hMore

end

/-! ## Expressions -/

/-- What was paid from `s` to `t` covers a tree of height `n`, up to two nodes: a leaf and an
operator behind it. -/
def Affords (s : Stream) (n : Nat) (t : Stream) : Prop :=
  t.budget ≤ s.budget ∧ n + t.budget ≤ s.budget + 2

/-- If the parser succeeds, the expression is covered by what was paid. -/
def AffordsTrees (p : Parser Expr) : Prop :=
  ∀ s, Outcome p s (fun e t => Affords s e.height t) fun _ => True

section

variable {inner : Parser Expr}

theorem primaryOver_affords (hInner : AffordsTrees inner) : AffordsTrees (primaryOver inner) := by
  intro s
  unfold primaryOver
  rw [outcome_bind, outcome_here, outcome_bind, outcome_peek?]
  have hLeaf : Affords s 1 s.tail := by
    rw [Affords, s.budget_tail]
    omega
  split
  · rw [outcome_bind]
    exact outcome_advance_tail hLeaf
  · rw [outcome_bind]
    exact outcome_advance_tail hLeaf
  · rw [outcome_bind]
    refine outcome_spend_paid fun hCost => ?_
    rw [outcome_bind]
    refine outcome_advance_tail ?_
    rw [outcome_bind]
    refine (hInner _).mono fun e t hExpr => ?_
    rw [outcome_bind]
    refine outcome_expectSymbol_tail fun _ => ?_
    simp only [Affords, Stream.budget_tail] at hExpr
    rw [outcome_pure, Affords, t.budget_tail]
    omega
  · exact trivial

/-- Arguments are paid for one after the other, so each of them is covered by what is paid for
all of them. -/
theorem commaSeparated_affords (hInner : AffordsTrees inner) (s : Stream) :
    Outcome (commaSeparated inner) s (fun es t => Affords s (heightOfEach es) t)
      fun _ => True := by
  unfold commaSeparated
  rw [outcome_bind]
  refine (hInner s).mono fun first t hFirst => ?_
  rw [outcome_bind]
  refine (outcome_manyWhile_of_cons (R := fun s e t => Affords s e.height t)
    (T := fun s es t => Affords s (heightOfEach es) t) ?_ ?_ ?_).mono fun rest u hRest => ?_
  · intro u
    simp only [Affords, heightOfEach]
    omega
  · intro u e v es w he hes
    simp only [Affords, heightOfEach] at he hes ⊢
    omega
  · intro u _
    rw [outcome_bind]
    refine outcome_advance_tail ((hInner _).mono fun e v hExpr => ?_)
    rwa [Affords, u.budget_tail] at hExpr
  · simp only [outcome_pure, Affords, heightOfEach] at hFirst hRest ⊢
    omega

theorem callOver_affords (hInner : AffordsTrees inner) (callee : Expr) :
    AffordsTrees (callOver inner callee) := by
  intro s
  unfold callOver
  dsimp only
  split
  · exact trivial
  · next f _ =>
    rw [outcome_bind]
    refine outcome_spend_paid fun hCost => ?_
    have hEnough : 4 ≤ s.budget := hCost
    rw [outcome_bind]
    refine outcome_expectSymbol_tail fun _ => ?_
    have hClose (es : List Expr) (t : Stream)
        (hArgs : Affords { s with budget := s.budget - groupCost }.tail (heightOfEach es) t) :
        Outcome (do
            expectSymbol .rightParen "function call"
            return Expr.call f es (← spanFrom callee.span.start)) t
          (fun e u => Affords s e.height u) fun _ => True := by
      rw [outcome_bind]
      refine outcome_expectSymbol_tail fun _ => ?_
      simp only [Affords, Stream.budget_tail, groupCost] at hArgs
      rw [outcome_bind, outcome_spanFrom, outcome_pure, Affords, t.budget_tail, Expr.height]
      omega
    rw [outcome_bind, outcome_isAt]
    split
    · refine hClose [] _ ?_
      rw [Affords, heightOfEach]
      omega
    · rw [outcome_bind]
      exact (commaSeparated_affords hInner _).mono hClose

/-- An operator behind its operand is free, but the operand is a leaf. -/
theorem stepOver_affords {e : Expr} {s t : Stream} (h : Affords s e.height t) :
    Outcome (stepOver e) t (fun e' u => Affords s e'.height u) fun _ => True := by
  unfold stepOver
  rw [outcome_bind, outcome_peek?]
  split
  · exact h
  · split
    · exact trivial
    · next hName =>
      cases e with
      | ident x span =>
        rw [outcome_bind]
        refine outcome_advance_tail ?_
        rw [outcome_bind, outcome_spanFrom, outcome_pure, Affords, t.budget_tail]
        simp only [Affords, Expr.height] at h ⊢
        omega
      | _ => cases hName

theorem suffixedOver_affords (hInner : AffordsTrees inner) :
    AffordsTrees (suffixedOver inner) := by
  intro s
  rw [suffixedOver_eq, outcome_bind]
  refine (primaryOver_affords hInner s).mono fun head t hHead => ?_
  rw [outcome_bind, outcome_isAt]
  split
  · rw [outcome_bind]
    refine (callOver_affords hInner head t).mono fun e u hCall => ?_
    refine stepOver_affords ?_
    simp only [Affords] at hHead hCall ⊢
    omega
  · exact stepOver_affords hHead

theorem unaryWithin_affords (hInner : AffordsTrees inner) (n : Nat) :
    AffordsTrees (unaryWithin inner n) := by
  induction n with
  | zero =>
    intro s
    exact trivial
  | succ n ih =>
    intro s
    rw [unaryWithin, outcome_bind, outcome_here, outcome_bind, outcome_peek?]
    split
    · exact suffixedOver_affords hInner s
    · rw [outcome_bind]
      refine outcome_spend_paid fun hCost => ?_
      have hEnough : 1 ≤ s.budget := hCost
      rw [outcome_bind]
      refine outcome_advance_tail ?_
      rw [outcome_bind]
      refine (ih _).mono fun operand t hOperand => ?_
      split
      · exact trivial
      · simp only [Affords, Stream.budget_tail, operatorCost] at hOperand
        rw [outcome_pure, Affords, Expr.height]
        omega

/-- What a further operand adds to the tree, it has paid for. -/
theorem chain_affords {operand : Parser Expr} (op? : TokenKind → Option BinaryOp)
    (hOperand : AffordsTrees operand) : AffordsTrees (chain op? operand) := by
  intro s
  unfold chain
  rw [outcome_bind]
  refine (hOperand s).mono fun first t hFirst => ?_
  rw [outcome_bind]
  -- The invariant of the loop: whatever tree on the left is covered remains so.
  refine (outcome_many_of_cons
    (R := fun u item v => v.budget < u.budget ∧ Affords u (item.2.height + 1) v)
    (T := fun u items v => ∀ left : Expr, Affords s left.height u →
      Affords s (items.foldl (fun left item => binary left item.1 item.2) left).height v)
    ?_ ?_ ?_).mono fun items u hItems => ?_
  · intro u left hLeft
    exact hLeft
  · rintro u ⟨op, right⟩ v items w ⟨hLess, hRight⟩ hItems left hLeft
    refine hItems (binary left op right) ?_
    simp only [Affords, binary, Expr.height] at hLeft hRight ⊢
    omega
  · intro u op _
    rw [outcome_bind]
    refine outcome_spend_paid fun hCost => ?_
    have hEnough : 1 ≤ u.budget := hCost
    rw [outcome_bind]
    refine outcome_advance_tail ?_
    rw [outcome_bind]
    refine (hOperand _).mono fun right v hRight => ?_
    simp only [Affords, Stream.budget_tail, operatorCost] at hRight
    simp only [outcome_pure, Affords]
    omega
  · exact outcome_pure.mpr (hItems first hFirst)

theorem equalityOver_affords (hInner : AffordsTrees inner) :
    AffordsTrees (equalityOver inner) := by
  have hUnary : AffordsTrees (unaryOver inner) := fun s =>
    unaryWithin_affords hInner (s.budget + 1) s
  exact chain_affords _ (chain_affords _ (chain_affords _ (chain_affords _ hUnary)))

theorem assignmentOver_affords (hInner : AffordsTrees inner) :
    AffordsTrees (assignmentOver inner) := by
  intro s
  unfold assignmentOver
  rw [outcome_bind]
  refine (equalityOver_affords hInner s).mono fun left t hLeft => ?_
  rw [outcome_bind, outcome_peek?]
  split
  · exact hLeft
  · rw [outcome_bind]
    refine outcome_advance_tail ?_
    rw [outcome_bind]
    refine outcome_spend_paid fun hCost => ?_
    rw [outcome_bind]
    refine (hInner _).mono fun right u hRight => ?_
    split
    · exact trivial
    · rw [t.budget_tail, operatorCost] at hCost
      simp only [Affords, Stream.budget_tail, operatorCost] at hLeft hRight
      rw [outcome_pure, Affords, Expr.height]
      omega

theorem expressionWithin_affords (n : Nat) : AffordsTrees (expressionWithin n) := by
  induction n with
  | zero =>
    intro s
    exact trivial
  | succ n ih => exact assignmentOver_affords ih

end

/-- An expression is covered by what was paid for it. -/
theorem expression_affords : AffordsTrees expression :=
  fun s => expressionWithin_affords (s.budget + 1) s

theorem expression_height_le (s : Stream) :
    Outcome expression s (fun e _ => e.height ≤ s.budget + 2) fun _ => True :=
  (expression_affords s).mono fun _ _ h => Nat.le_trans (Nat.le_add_right _ _) h.2

/-! ## Statements -/

/-- If the parser succeeds, the statement is at most three nodes higher than the budget that
the parser begins with. -/
def Covers (p : Parser Stmt) : Prop :=
  ∀ s, Outcome p s (fun a _ => a.height ≤ s.budget + 3) fun _ => True

/-- The same of a form that waits for its span. -/
def CoversForms (p : Parser (Span → Stmt)) : Prop :=
  ∀ s, Outcome p s (fun form _ => ∀ span, (form span).height ≤ s.budget + 3) fun _ => True

section

variable {inner : Parser Stmt}

theorem outcome_refunding_of {α : Type} {p : Parser α} {s : Stream} {Q : α → Prop}
    (h : Outcome p s (fun a _ => Q a) fun _ => True) :
    Outcome (refunding p) s (fun a t => Q a ∧ t.budget = s.budget) fun _ => True := by
  unfold refunding
  rw [outcome_bind, outcome_get, outcome_bind]
  exact h.mono fun a _ hQ => ⟨hQ, rfl⟩

/-- The braces are paid for, and the statements between them side by side are not nested. -/
theorem blockOver_height_le (hInner : Covers inner) (hRestores : Restores inner) (s : Stream) :
    Outcome (blockOver inner) s (fun b t => b.height ≤ s.budget ∧ t.budget = s.budget)
      fun _ => True := by
  unfold blockOver
  rw [outcome_bind, outcome_here, outcome_bind]
  refine (outcome_refunding_of (Q := fun ss => heightOfAll ss + 1 ≤ s.budget) ?_).mono
    fun ss t h => h
  rw [outcome_bind]
  refine outcome_spend_paid fun hCost => ?_
  have hEnough : 4 ≤ s.budget := hCost
  rw [outcome_bind]
  refine outcome_expectSymbol_tail fun _ => ?_
  rw [outcome_bind]
  refine (outcome_manyWhile_of_cons
    (R := fun s a t => a.height ≤ s.budget + 3 ∧ t.budget = s.budget)
    (T := fun s as _ => heightOfAll as ≤ s.budget + 3) ?_ ?_ ?_).mono fun ss u hss => ?_
  · intro u
    exact Nat.zero_le _
  · rintro u a v as w ⟨ha, hSame⟩ has
    rw [heightOfAll]
    omega
  · intro u _
    exact (hInner u).and (hRestores u)
  · rw [outcome_bind]
    refine outcome_expectSymbol_tail fun _ => ?_
    simp only [Stream.budget_tail, groupCost] at hss
    rw [outcome_pure]
    omega

/-- A body without braces is a block as well, at the same price. -/
theorem bodyOver_height_le (hInner : Covers inner) (hRestores : Restores inner) (s : Stream) :
    Outcome (bodyOver inner) s (fun b t => b.height ≤ s.budget ∧ t.budget ≤ s.budget)
      fun _ => True := by
  unfold bodyOver
  rw [outcome_bind, outcome_isAt]
  split
  · refine (blockOver_height_le hInner hRestores s).mono fun b t h => ?_
    exact ⟨h.1, Nat.le_of_eq h.2⟩
  · rw [outcome_bind]
    refine outcome_spend_paid fun hCost => ?_
    have hEnough : 4 ≤ s.budget := hCost
    rw [outcome_bind]
    refine ((hInner _).and (hRestores _)).mono fun a t h => ?_
    simp only [groupCost] at h
    rw [outcome_pure, Block.height, heightOfAll, heightOfAll]
    omega

theorem condition_height_le (construct : String) (s : Stream) :
    Outcome (condition construct) s
      (fun e t => e.height ≤ s.budget + 2 ∧ t.budget = s.budget) fun _ => True := by
  unfold condition
  rw [outcome_bind]
  refine outcome_expectSymbol_tail fun _ => ?_
  rw [outcome_bind]
  refine (outcome_refunding_of (expression_height_le s.tail)).mono fun e t h => ?_
  rw [outcome_bind]
  refine outcome_expectSymbol_tail fun _ => ?_
  rwa [s.budget_tail, ← t.budget_tail] at h

theorem elseOver_height_le (hInner : Covers inner) (hRestores : Restores inner) (s : Stream) :
    Outcome (elseOver inner) s (fun alt _ => alt.height ≤ s.budget + 2) fun _ => True := by
  have hElse : Outcome (do
      if ← isAt (.keyword .kwIf) then
        spend operatorCost
        return Else.chain (← inner)
      else
        return .block (← bodyOver inner)) s.tail
      (fun alt _ => alt.height ≤ s.budget + 2) fun _ => True := by
    rw [outcome_bind, outcome_isAt]
    split
    · rw [outcome_bind]
      refine outcome_spend_paid fun hCost => ?_
      rw [s.budget_tail] at hCost
      have hEnough : 1 ≤ s.budget := hCost
      rw [outcome_bind]
      refine (hInner _).mono fun a t ha => ?_
      simp only [Stream.budget_tail, operatorCost] at ha
      rw [outcome_pure, Else.height]
      omega
    · rw [outcome_bind]
      refine (bodyOver_height_le hInner hRestores s.tail).mono fun b t hb => ?_
      rw [s.budget_tail] at hb
      rw [outcome_pure, Else.height]
      omega
  unfold elseOver accept
  rw [outcome_bind, outcome_bind, outcome_isAt]
  split
  · exact hElse
  · exact Nat.zero_le _

theorem branchOver_covers (hInner : Covers inner) (hRestores : Restores inner) :
    CoversForms (branchOver inner) := by
  intro s
  unfold branchOver
  rw [outcome_bind]
  refine (condition_height_le "if" s).mono fun e t he => ?_
  rw [outcome_bind]
  refine (bodyOver_height_le hInner hRestores t).mono fun b u hb => ?_
  rw [outcome_bind]
  refine (elseOver_height_le hInner hRestores u).mono fun alt v hAlt span => ?_
  rw [Stmt.height]
  omega

theorem loopOver_covers (hInner : Covers inner) (hRestores : Restores inner) :
    CoversForms (loopOver inner) := by
  intro s
  unfold loopOver
  rw [outcome_bind]
  refine (condition_height_le "while" s).mono fun e t he => ?_
  rw [outcome_bind]
  refine (bodyOver_height_le hInner hRestores t).mono fun b u hb span => ?_
  rw [Stmt.height]
  omega

theorem leave_covers : CoversForms leave := by
  intro s
  have hClose (value : Option Expr) (t : Stream) (h : heightOfOption value ≤ s.budget + 2) :
      Outcome (do
          expectSymbol .semicolon "return statement"
          return Stmt.leave value) t
        (fun form _ => ∀ span, (form span).height ≤ s.budget + 3) fun _ => True := by
    rw [outcome_bind]
    exact outcome_expectSymbol_tail fun _ span => Nat.succ_le_succ h
  unfold leave
  rw [outcome_bind, outcome_isAt]
  split
  · exact hClose none s (Nat.zero_le _)
  · rw [outcome_bind, outcome_map]
    exact (expression_height_le s).mono fun e t he => hClose (some e) t he

theorem declaration_covers : CoversForms declaration := by
  intro s
  unfold declaration
  rw [outcome_bind]
  refine (restores_of_keeps (typeSpecifier_keeps budget_eq_passage) s).mono fun base t ht => ?_
  rw [outcome_bind]
  refine (restores_of_keeps (declarator_keeps budget_eq_passage base _) t).mono
    fun declared u hu => ?_
  have hClose (init : Option Expr) (v : Stream) (h : heightOfOption init ≤ s.budget + 2) :
      Outcome (do
          expectSymbol .semicolon "variable declaration"
          return Stmt.declare declared.1 declared.2 init) v
        (fun form _ => ∀ span, (form span).height ≤ s.budget + 3) fun _ => True := by
    rw [outcome_bind]
    exact outcome_expectSymbol_tail fun _ span => Nat.succ_le_succ h
  rw [outcome_bind]
  unfold accept
  rw [outcome_bind, outcome_isAt]
  split
  · rw [outcome_bind]
    refine outcome_advance_tail ?_
    rw [outcome_pure, if_pos rfl, outcome_bind, outcome_map]
    refine (expression_height_le u.tail).mono fun e v he => hClose (some e) v ?_
    rwa [u.budget_tail, hu, ht] at he
  · exact hClose none u (Nat.zero_le _)

theorem evaluation_covers : CoversForms evaluation := by
  intro s
  unfold evaluation
  rw [outcome_bind]
  refine (expression_height_le s).mono fun e t he => ?_
  rw [outcome_bind]
  exact outcome_expectSymbol_tail fun _ span => Nat.succ_le_succ he

theorem formOver_covers (hInner : Covers inner) (hRestores : Restores inner) :
    CoversForms (formOver inner) := by
  -- A word that is read on the way leaves the budget alone.
  have hBehind {p : Parser (Span → Stmt)} (hp : CoversForms p) (s : Stream) :
      Outcome p s.tail (fun form _ => ∀ span, (form span).height ≤ s.budget + 3)
        fun _ => True := by
    have h := hp s.tail
    rwa [s.budget_tail] at h
  intro s
  unfold formOver
  rw [outcome_bind, outcome_peek?]
  split
  · rw [outcome_bind]
    refine (blockOver_height_le hInner hRestores s).mono fun b t hb span => ?_
    rw [Stmt.height]
    omega
  · exact outcome_bind.mpr (hBehind (branchOver_covers hInner hRestores) s)
  · exact outcome_bind.mpr (hBehind (loopOver_covers hInner hRestores) s)
  · exact outcome_bind.mpr (hBehind leave_covers s)
  · split
    · exact declaration_covers s
    · exact evaluation_covers s
  · exact evaluation_covers s

theorem statementWithin_covers (n : Nat) : Covers (statementWithin n) := by
  induction n with
  | zero =>
    intro s
    exact trivial
  | succ n ih =>
    intro s
    rw [statementWithin, statementOver, outcome_bind, outcome_here, outcome_bind]
    refine (outcome_refunding_of (formOver_covers ih (statementWithin_restores n) s)).mono
      fun form t h => ?_
    exact h.1 _

end

/-- A statement is at most three nodes higher than the budget that it begins with. -/
theorem statement_height_le : Covers statement :=
  fun s => statementWithin_covers (s.budget + 1) s

/-- A block is no higher than the budget that it begins with. -/
theorem block_height_le (s : Stream) :
    Outcome block s (fun b _ => b.height ≤ s.budget) fun _ => True :=
  (blockOver_height_le statement_height_le statement_restores s).mono fun _ _ h => h.1

/-! ## Functions and programs -/

theorem function_height_le (s : Stream) :
    Outcome function s (fun f _ => f.body.height ≤ s.budget) fun _ => True := by
  rw [function_eq, outcome_bind, outcome_here, outcome_bind]
  refine (restores_of_keeps (functionHead_keeps budget_eq_passage) s).mono fun head t h => ?_
  rw [outcome_bind]
  refine (block_height_le t).mono fun body u hBody => ?_
  rw [h] at hBody
  exact hBody

theorem program_height_le (s : Stream) :
    Outcome program s (fun p _ => ∀ f ∈ p.functions, f.body.height ≤ s.budget)
      fun _ => True := by
  unfold program
  rw [outcome_bind, outcome_here, outcome_bind]
  refine (outcome_manyWhile_of_cons
    (R := fun s f t => f.body.height ≤ s.budget ∧ t.budget = s.budget)
    (T := fun s fs _ => ∀ f ∈ fs, f.body.height ≤ s.budget) ?_ ?_ ?_).mono fun fs t hfs => ?_
  · intro t f hf
    cases hf
  · rintro t f u fs v ⟨hf, hSame⟩ hfs
    rw [hSame] at hfs
    exact List.forall_mem_cons.mpr ⟨hf, hfs⟩
  · intro t _
    exact (function_height_le t).and (function_restores t)
  · rw [outcome_bind, outcome_here, outcome_pure]
    exact hfs

end Parser

/-- The paths through the body of a function are within the nesting budget, and so are those
through the statements that it is lowered to, in whatever context. -/
structure Function.ShallowBody (f : Function) : Prop where
  source : Shallow Node.Child Parser.maxNesting (.block f.body)
  target : ∀ (ctx : Context) (f' : Target.Function), f.lower ctx = .ok f' →
    ∀ s ∈ f'.body, Shallow Target.Node.Child Parser.maxNesting (.stmt s)

theorem Function.shallowBody_of_height_le {f : Function}
    (h : f.body.height ≤ Parser.maxNesting) : f.ShallowBody := by
  refine ⟨(Node.block f.body).shallow.mono h, ?_⟩
  intro ctx f' hLower s hs
  have hImage := (Source.Function.image_of_lower hLower).height_le
  have hBody : Target.heightOfAll f'.body ≤ Parser.maxNesting :=
    Nat.le_trans hImage (Nat.max_le.mpr ⟨by decide, h⟩)
  exact (Target.Node.stmt s).shallow.mono
    (Nat.le_trans (Target.height_le_heightOfAll hs) hBody)

namespace Parser

/-- **The nesting budget bounds the depth of what is parsed**, on every stream that calls of
parsers lead to, so that no recursion over the body of a function is deeper: neither over the
tree itself nor over what it is lowered to. -/
theorem shallowBody_of_reachable {tokens : List Token} {s : Stream} (h : Reachable tokens s) :
    (∀ f t, function s = .ok f t → f.ShallowBody) ∧
    (∀ p t, program s = .ok p t → ∀ f ∈ p.functions, f.ShallowBody) := by
  have hBudget := h.budget_le
  constructor
  · intro f t hRun
    have hHeight := function_height_le s
    unfold Outcome at hHeight
    rw [hRun] at hHeight
    exact Function.shallowBody_of_height_le (Nat.le_trans hHeight hBudget)
  · intro p t hRun f hf
    have hHeight := program_height_le s
    unfold Outcome at hHeight
    rw [hRun] at hHeight
    exact Function.shallowBody_of_height_le (Nat.le_trans (hHeight f hf) hBudget)

/-- The tokens of a function that negates a variable that is stepped, 252 times. -/
def deepestFunction : List Token :=
  unlocatedTokens ([.keyword .kwInt, .identifier "f", .symbol .leftParen, .symbol .rightParen,
    .symbol .leftBrace] ++ List.replicate 252 (.symbol .minus) ++
    [.identifier "x", .symbol .plusPlus, .symbol .semicolon, .symbol .rightBrace])

/-- The bound is met: the negations and the braces use up the budget, and the statement, the
step and the variable stand for what the braces have paid too much. -/
theorem shallowBody_of_reachable_deepest :
    ∃ f t, function (.ofTokens deepestFunction) = .ok f t ∧ f.ShallowBody ∧
      ∃ below, List.IsChain Node.Child (.block f.body :: below) ∧
        (Node.block f.body :: below).length = 256 := by
  have hRun : (EStateM.run' function (.ofTokens deepestFunction)).map
      (fun f => ((Node.block f.body).spine 256).length) = some 255 := by decide +kernel
  delta EStateM.run' EStateM.run at hRun
  cases hFunction : function (.ofTokens deepestFunction) with
  | ok f t =>
    rw [hFunction] at hRun
    refine ⟨f, t, rfl, (shallowBody_of_reachable .fresh).1 f t hFunction, _,
      Node.isChain_spine 256 _, ?_⟩
    have hLength : ((Node.block f.body).spine 256).length = 255 := Option.some.inj hRun
    rw [List.length_cons, hLength]
  | error e t =>
    rw [hFunction] at hRun
    cases hRun

end Parser

end CToGo.Source
