import CToGo.Proofs.Grammar.Outcome
import CToGo.Source.Parser.Expr

/-!
# Parsers of expressions and the grammar

A parser of expressions is sound if whatever it returns is spelled by the tokens it has read,
and complete if it returns every expression that the stream begins with, unless the nesting
is too deep. Both are shown level by level for any parser `inner` of nested expressions that
has them, and then by induction on the depth for `expressionWithin`.

* `expression_sound`: soundness of `expression`.
* `expression_complete`: completeness of `expression`. What follows must not continue the
  expression (`Level.Ends`).
-/

namespace CToGo.Source

/-! ## Facts about the grammar -/

/-- A primary expression is one of every level. -/
theorem Expr.Spelled.of_primary {ts rest : List TokenKind} {e : Expr}
    (h : Expr.Spelled .primary ts e rest) (l : Level) : Expr.Spelled l ts e rest := by
  have hCall := Expr.Spelled.tighter (l := .call) rfl h
  have hTrailing := Expr.Spelled.tighter (l := .trailing) rfl hCall
  have hLeading := Expr.Spelled.tighter (l := .leading) rfl hTrailing
  have hMul := Expr.Spelled.tighter (l := .multiplicative) rfl hLeading
  have hAdd := Expr.Spelled.tighter (l := .additive) rfl hMul
  have hRel := Expr.Spelled.tighter (l := .relational) rfl hAdd
  have hEq := Expr.Spelled.tighter (l := .equality) rfl hRel
  cases l with
  | assignment => exact .tighter rfl hEq
  | equality => exact hEq
  | relational => exact hRel
  | additive => exact hAdd
  | multiplicative => exact hMul
  | leading => exact hLeading
  | trailing => exact hTrailing
  | call => exact hCall
  | primary => exact h

/-- An identifier in parentheses is an expression of every level. -/
theorem Names.spelled {ts rest : List TokenKind} {x : String} (h : Names ts x rest) (l : Level) :
    Expr.Spelled l ts (.ident x nowhere) rest := by
  induction h generalizing l with
  | bare x rest => exact (Expr.Spelled.ident x rest).of_primary l
  | parenthesized _ ih => exact (Expr.Spelled.parenthesized (ih .assignment)).of_primary l

/-- Only an identifier, possibly in parentheses, spells an identifier. -/
theorem Expr.Spelled.names {l : Level} {ts rest : List TokenKind} {e : Expr} {x : String}
    (he : e = .ident x nowhere) : Expr.Spelled l ts e rest → Names ts x rest
  | .literal .. => by cases he
  | .ident y rest => by
    cases he
    exact .bare x rest
  | .parenthesized h => .parenthesized (h.names he)
  | .call .. => by cases he
  | .trailing .. => by cases he
  | .negate _ => by cases he
  | .leading .. => by cases he
  | .binary .. => by cases he
  | .assign .. => by cases he
  | .tighter _ h => h.names he

/-- An operator of level `l` and its right operand. -/
inductive RightOperand (l tight : Level) :
    List TokenKind → BinaryOp × Expr → List TokenKind → Prop where
  | mk {us rest : List TokenKind} {op : BinaryOp} {b : Expr} :
    binaryLevel op = l → Expr.Spelled tight us b rest →
    RightOperand l tight (.symbol (binaryMark op) :: us) (op, b) rest

/-- Operands joined to the left. -/
def joinLeft (a : Expr) (ops : List (BinaryOp × Expr)) : Expr :=
  ops.foldl (fun left (op, right) => .binary op left right nowhere) a

theorem spelled_of_repeated {l tight : Level} (hl : l.tighter? = some tight)
    {ts us rest : List TokenKind} {a : Expr} {ops : List (BinaryOp × Expr)}
    (h : Repeated (RightOperand l tight) us ops rest) (ha : Expr.Spelled l ts a us) :
    Expr.Spelled l ts (joinLeft a ops) rest := by
  induction h generalizing a with
  | nil _ => exact ha
  | cons hb _ ih =>
    cases hb with
    | mk hop hb => exact ih (.binary hop hl ha hb)

/-- An expression of a binary level is a first operand and what is joined to it. -/
theorem Expr.Spelled.exists_operands {l tight : Level} {op : BinaryOp}
    (hop : binaryLevel op = l) (hl : l.tighter? = some tight) {ts rest : List TokenKind}
    {e : Expr} : Expr.Spelled l ts e rest → ∃ a us ops, Expr.Spelled tight ts a us ∧
      Repeated (RightOperand l tight) us ops rest ∧ e = joinLeft a ops
  | .binary (b := b) hop' hl' ha hb => by
    obtain ⟨first, us, ops, hFirst, hops, rfl⟩ := ha.exists_operands hop hl
    rw [hl, Option.some.injEq] at hl'
    subst hl'
    exact ⟨first, us, ops ++ [(_, b)], hFirst, hops.snoc (.mk hop' hb), by simp [joinLeft]⟩
  | .tighter hl' h => by
    rw [hl, Option.some.injEq] at hl'
    subst hl'
    exact ⟨e, rest, [], h, .nil _, rfl⟩
  | .literal .. => by cases op <;> cases hop
  | .ident .. => by cases op <;> cases hop
  | .parenthesized _ => by cases op <;> cases hop
  | .call .. => by cases op <;> cases hop
  | .trailing .. => by cases op <;> cases hop
  | .negate _ => by cases op <;> cases hop
  | .leading .. => by cases op <;> cases hop
  | .assign .. => by cases op <;> cases hop

/-- The symbols that would continue an expression of a level. -/
def Level.continuations : Level → List Symbol
  | .primary => []
  | .call => [.leftParen]
  | .trailing | .leading => [.leftParen, .plusPlus, .minusMinus]
  | .multiplicative => [.leftParen, .plusPlus, .minusMinus, .star, .slash, .percent]
  | .additive =>
    [.leftParen, .plusPlus, .minusMinus, .star, .slash, .percent, .plus, .minus]
  | .relational =>
    [.leftParen, .plusPlus, .minusMinus, .star, .slash, .percent, .plus, .minus, .less,
      .greater, .lessEqual, .greaterEqual]
  | .equality =>
    [.leftParen, .plusPlus, .minusMinus, .star, .slash, .percent, .plus, .minus, .less,
      .greater, .lessEqual, .greaterEqual, .equalEqual, .bangEqual]
  | .assignment =>
    [.leftParen, .plusPlus, .minusMinus, .star, .slash, .percent, .plus, .minus, .less,
      .greater, .lessEqual, .greaterEqual, .equalEqual, .bangEqual, .equal, .plusEqual,
      .minusEqual, .starEqual, .slashEqual, .percentEqual]

namespace Level

/-- The tokens `rest` do not continue an expression of level `l`. -/
def Ends (l : Level) (rest : List TokenKind) : Prop :=
  ∀ m ∈ l.continuations, rest.head? ≠ some (.symbol m)

theorem Ends.tighter {l tight : Level} {rest : List TokenKind} (hl : l.tighter? = some tight)
    (h : l.Ends rest) : tight.Ends rest := by
  intro m hm
  refine h m ?_
  cases l <;> cases hl <;> revert m <;> decide

theorem binaryMark_mem_continuations (op : BinaryOp) :
    binaryMark op ∈ (binaryLevel op).continuations := by
  cases op <;> decide

theorem ends_binaryMark {l tight : Level} {op : BinaryOp} (hop : binaryLevel op = l)
    (hl : l.tighter? = some tight) (rest : List TokenKind) :
    tight.Ends (.symbol (binaryMark op) :: rest) := by
  intro m hm h
  rw [List.head?_cons, Option.some.injEq, TokenKind.symbol.injEq] at h
  subst hop h
  cases op <;> cases hl <;> revert hm <;> decide

theorem ends_assignMark (op : AssignOp) (rest : List TokenKind) :
    equality.Ends (.symbol (assignMark op) :: rest) := by
  intro m hm h
  rw [List.head?_cons, Option.some.injEq, TokenKind.symbol.injEq] at h
  subst h
  cases op <;> revert hm <;> decide

/-- An expression ends where a parenthesis closes and before a comma or a semicolon. -/
theorem ends_assignment {m : Symbol} (hm : m ∈ [.rightParen, .comma, .semicolon])
    (rest : List TokenKind) : assignment.Ends (.symbol m :: rest) := by
  intro m' hm' h
  rw [List.head?_cons, Option.some.injEq, TokenKind.symbol.injEq] at h
  subst h
  revert m
  decide

end Level

namespace Parser

/-! ## Tables of operators -/

theorem multiplicativeOp?_eq_some {k : TokenKind} {op : BinaryOp} :
    multiplicativeOp? k = some op ↔
      binaryLevel op = .multiplicative ∧ k = .symbol (binaryMark op) := by
  unfold multiplicativeOp?
  split <;> cases op <;> simp_all [binaryLevel, binaryMark]

theorem additiveOp?_eq_some {k : TokenKind} {op : BinaryOp} :
    additiveOp? k = some op ↔ binaryLevel op = .additive ∧ k = .symbol (binaryMark op) := by
  unfold additiveOp?
  split <;> cases op <;> simp_all [binaryLevel, binaryMark]

theorem relationalOp?_eq_some {k : TokenKind} {op : BinaryOp} :
    relationalOp? k = some op ↔ binaryLevel op = .relational ∧ k = .symbol (binaryMark op) := by
  unfold relationalOp?
  split <;> cases op <;> simp_all [binaryLevel, binaryMark]

theorem equalityOp?_eq_some {k : TokenKind} {op : BinaryOp} :
    equalityOp? k = some op ↔ binaryLevel op = .equality ∧ k = .symbol (binaryMark op) := by
  unfold equalityOp?
  split <;> cases op <;> simp_all [binaryLevel, binaryMark]

theorem assignOp?_eq_some {k : TokenKind} {op : AssignOp} :
    assignOp? k = some op ↔ k = .symbol (assignMark op) := by
  unfold assignOp?
  split <;> cases op <;> simp_all [assignMark]

theorem leadingOp?_eq_some {k : TokenKind} {op : UnaryOp} :
    leadingOp? k = some op ↔ k = .symbol (unaryMark op) := by
  unfold leadingOp?
  split <;> cases op <;> simp_all [unaryMark]

theorem trailingOp?_eq_some {k : TokenKind} {op : UnaryOp} :
    trailingOp? k = some op ↔ op ≠ .negate ∧ k = .symbol (unaryMark op) := by
  unfold trailingOp?
  split <;> cases op <;> simp_all [unaryMark]

/-! ## Soundness -/

/-- Whatever `p` returns is spelled on level `l` by the tokens it has read. -/
def SoundOn (l : Level) (p : Parser Expr) : Prop :=
  ∀ s, Outcome p s (fun e s' => Expr.Spelled l s.kinds e.bare s'.kinds) fun _ => True

theorem primaryOver_sound {inner : Parser Expr} (hInner : SoundOn .assignment inner) :
    SoundOn .primary (primaryOver inner) := by
  intro s
  unfold primaryOver
  rw [outcome_bind, outcome_here, outcome_bind, outcome_peek?]
  split
  · rename_i value hs
    have hs := Stream.kinds_of_head? hs
    rw [outcome_bind]
    refine outcome_advance hs fun s₁ h₁ => ?_
    rw [hs, ← h₁]
    exact .literal value _
  · rename_i x hs
    have hs := Stream.kinds_of_head? hs
    rw [outcome_bind]
    refine outcome_advance hs fun s₁ h₁ => ?_
    rw [hs, ← h₁]
    exact .ident x _
  · rename_i hs
    have hs := Stream.kinds_of_head? hs
    rw [outcome_bind]
    refine outcome_spend trivial fun s₁ h₁ => ?_
    rw [outcome_bind]
    refine outcome_advance (h₁.trans hs) fun s₂ h₂ => ?_
    rw [outcome_bind]
    refine (hInner s₂).mono fun e s₃ he => ?_
    rw [outcome_bind]
    refine outcome_expectSymbol (fun s₄ h₄ => ?_) fun _ => trivial
    rw [h₂, h₄] at he
    rw [hs]
    exact .parenthesized he
  · exact trivial

theorem arguments_of_repeated {e : Expr} {es : List Expr} {ts us rest : List TokenKind}
    (he : Expr.Spelled .assignment ts e us)
    (hes : Repeated (AfterComma (Expr.Spelled .assignment)) us es rest) :
    Arguments ts (e :: es) rest := by
  have hMore : MoreArguments us es rest := by
    clear he
    induction hes with
    | nil rest => exact .done rest
    | cons h _ ih =>
      cases h with
      | mk h => exact .comma h ih
  exact .some he hMore

theorem callOver_sound {inner : Parser Expr} (hInner : SoundOn .assignment inner)
    {callee : Expr} {ts : List TokenKind} {s : Stream}
    (hCallee : Expr.Spelled .primary ts callee.bare s.kinds) :
    Outcome (callOver inner callee) s
      (fun e s' => Expr.Spelled .call ts e.bare s'.kinds) fun _ => True := by
  unfold callOver
  dsimp only
  split
  · exact trivial
  · rename_i f hf
    rw [outcome_bind]
    refine outcome_spend trivial fun s₁ h₁ => ?_
    rw [outcome_bind]
    refine outcome_expectSymbol (fun s₂ h₂ => ?_) fun _ => trivial
    have hNames : Names ts f (.symbol .leftParen :: s₂.kinds) := by
      rw [← h₂, h₁]
      exact hCallee.names (Expr.name?_eq_some.mp hf)
    have hClose (es : List Expr) (s₃ : Stream)
        (hes : Arguments s₂.kinds (bareEach es) s₃.kinds) :
        Outcome (do
            expectSymbol .rightParen "function call"
            return Expr.call f es (← spanFrom callee.span.start)) s₃
          (fun e s' => Expr.Spelled .call ts e.bare s'.kinds) fun _ => True := by
      rw [outcome_bind]
      refine outcome_expectSymbol (fun s₄ h₄ => ?_) fun _ => trivial
      rw [h₄] at hes
      exact .call hNames hes
    rw [outcome_bind, outcome_isAt]
    split
    · exact hClose [] s₂ (.none _)
    · rw [outcome_bind]
      refine (outcome_commaSeparated Expr.bare (fun _ _ _ h => h.opens.passes) hInner).mono
        fun es s₃ hes => hClose es s₃ ?_
      obtain ⟨e, es', us, hEq, he, hes'⟩ := hes
      rw [bareEach_eq_map, hEq]
      exact arguments_of_repeated he hes'

/-- The last part of `suffixedOver`: an operator that steps `e`, if one follows. -/
def stepOver (e : Expr) : Parser Expr := do
  match (← peek?).bind trailingOp? with
  | none => return e
  | some op =>
    match e.name? with
    | none => throw (.unsuitable (.operandBefore op) e.description e.span.start)
    | some _ =>
      advance
      return .unary op e .trailing (← spanFrom e.span.start)

theorem suffixedOver_eq (inner : Parser Expr) :
    suffixedOver inner = (do
      let head ← primaryOver inner
      let e ← if ← isAt (.symbol .leftParen) then callOver inner head else pure head
      stepOver e) := rfl

theorem stepOver_sound {ts : List TokenKind} {e : Expr} {s : Stream}
    (he : Expr.Spelled .call ts e.bare s.kinds) :
    Outcome (stepOver e) s (fun e' s' => Expr.Spelled .trailing ts e'.bare s'.kinds)
      fun _ => True := by
  unfold stepOver
  rw [outcome_bind, outcome_peek?]
  split
  · exact .tighter rfl he
  · rename_i op hop
    obtain ⟨k, hk, hop⟩ := Option.bind_eq_some_iff.mp hop
    obtain ⟨hNe, rfl⟩ := trailingOp?_eq_some.mp hop
    split
    · exact trivial
    · rename_i x hx
      have hx := Expr.name?_eq_some.mp hx
      have hk := Stream.kinds_of_head? hk
      rw [outcome_bind]
      refine outcome_advance hk fun s₁ h₁ => ?_
      have hNames := he.names hx
      rw [hk, ← h₁] at hNames
      simp only [outcome_bind, outcome_spanFrom, outcome_pure, Expr.bare, hx]
      exact .trailing hNe hNames

theorem suffixedOver_sound {inner : Parser Expr} (hInner : SoundOn .assignment inner) :
    SoundOn .trailing (suffixedOver inner) := by
  intro s
  rw [suffixedOver_eq, outcome_bind]
  refine (primaryOver_sound hInner s).mono fun head s₁ hHead => ?_
  rw [outcome_bind, outcome_isAt]
  split
  · rw [outcome_bind]
    exact (callOver_sound hInner hHead).mono fun e s₂ => stepOver_sound
  · exact stepOver_sound (.tighter rfl hHead)

theorem unaryWithin_sound {inner : Parser Expr} (hInner : SoundOn .assignment inner) (n : Nat) :
    SoundOn .leading (unaryWithin inner n) := by
  induction n with
  | zero =>
    intro s
    exact trivial
  | succ n ih =>
    intro s
    rw [unaryWithin, outcome_bind, outcome_here, outcome_bind, outcome_peek?]
    split
    · exact (suffixedOver_sound hInner s).mono fun e s' he => .tighter rfl he
    · rename_i op hop
      obtain ⟨k, hk, hop⟩ := Option.bind_eq_some_iff.mp hop
      obtain rfl := leadingOp?_eq_some.mp hop
      have hk := Stream.kinds_of_head? hk
      rw [outcome_bind]
      refine outcome_spend trivial fun s₁ h₁ => ?_
      rw [outcome_bind]
      refine outcome_advance (h₁.trans hk) fun s₂ h₂ => ?_
      rw [outcome_bind]
      refine (ih s₂).mono fun e s₃ he => ?_
      rw [h₂] at he
      split
      · exact trivial
      · rename_i hStep
        simp only [outcome_pure, Expr.bare, hk]
        by_cases hNeg : op = .negate
        · subst hNeg
          exact .negate he
        · obtain ⟨x, hx⟩ := Option.ne_none_iff_exists'.mp fun hNone => hStep ⟨hNeg, hNone⟩
          rw [Expr.name?_eq_some] at hx
          rw [hx] at he ⊢
          exact .leading hNeg (he.names rfl)

/-- An operator and its right operand, without its spans. -/
def bareOperand (p : BinaryOp × Expr) : BinaryOp × Expr := (p.1, p.2.bare)

theorem bare_foldl_binary (first : Expr) (ops : List (BinaryOp × Expr)) :
    (ops.foldl (fun left (op, right) => binary left op right) first).bare =
      joinLeft first.bare (ops.map bareOperand) := by
  induction ops generalizing first with
  | nil => rfl
  | cons p rest ih => exact ih _

/-- Operands joined by the operators of one level. -/
theorem chain_sound {l tight : Level} {op? : TokenKind → Option BinaryOp} {operand : Parser Expr}
    (hl : l.tighter? = some tight)
    (hop : ∀ k op, op? k = some op ↔ binaryLevel op = l ∧ k = .symbol (binaryMark op))
    (hOperand : SoundOn tight operand) : SoundOn l (chain op? operand) := by
  intro s
  unfold chain
  rw [outcome_bind]
  refine (hOperand s).mono fun first s₁ hFirst => ?_
  rw [outcome_bind]
  refine (outcome_many (fun ts => ts.head?.bind op?) bareOperand
    (fun s => by rw [s.peek?_eq_head?]) rfl (R := RightOperand l tight) ?_ ?_).mono
      fun ops s₂ hops => ?_
  · intro ts a us h
    cases h with
    | mk _ h => exact Nat.lt_succ_of_lt h.opens.length_lt
  · intro s₂ op h
    obtain ⟨k, hk, hk'⟩ := Option.bind_eq_some_iff.mp h
    obtain ⟨hLevel, rfl⟩ := (hop k op).mp hk'
    have hk := Stream.kinds_of_head? hk
    rw [outcome_bind]
    refine outcome_spend trivial fun s₃ h₃ => ?_
    rw [outcome_bind]
    refine outcome_advance (h₃.trans hk) fun s₄ h₄ => ?_
    rw [outcome_bind]
    refine (hOperand s₄).mono fun b s₅ hb => ?_
    rw [h₄] at hb
    rw [hk]
    exact .mk hLevel hb
  · rw [outcome_pure, bare_foldl_binary]
    exact spelled_of_repeated hl hops.1 (.tighter hl hFirst)

theorem equalityOver_sound {inner : Parser Expr} (hInner : SoundOn .assignment inner) :
    SoundOn .equality (equalityOver inner) := by
  have hUnary : SoundOn .leading (unaryOver inner) := fun s => unaryWithin_sound hInner _ s
  have hMul := chain_sound rfl (fun _ _ => multiplicativeOp?_eq_some) hUnary
  have hAdd := chain_sound rfl (fun _ _ => additiveOp?_eq_some) hMul
  have hRel := chain_sound rfl (fun _ _ => relationalOp?_eq_some) hAdd
  exact chain_sound rfl (fun _ _ => equalityOp?_eq_some) hRel

theorem assignmentOver_sound {inner : Parser Expr} (hInner : SoundOn .assignment inner) :
    SoundOn .assignment (assignmentOver inner) := by
  intro s
  unfold assignmentOver
  rw [outcome_bind]
  refine (equalityOver_sound hInner s).mono fun left s₁ hLeft => ?_
  rw [outcome_bind, outcome_peek?]
  split
  · exact .tighter rfl hLeft
  · rename_i op hop
    obtain ⟨k, hk, hop⟩ := Option.bind_eq_some_iff.mp hop
    obtain rfl := assignOp?_eq_some.mp hop
    have hk := Stream.kinds_of_head? hk
    rw [outcome_bind]
    refine outcome_advance hk fun s₂ h₂ => ?_
    rw [outcome_bind]
    refine outcome_spend trivial fun s₃ h₃ => ?_
    rw [outcome_bind]
    refine (hInner s₃).mono fun right s₄ hRight => ?_
    rw [h₃, h₂] at hRight
    split
    · exact trivial
    · rename_i x hx
      have hNames := hLeft.names (Expr.name?_eq_some.mp hx)
      rw [hk] at hNames
      exact .assign hNames hRight

theorem expressionWithin_sound (n : Nat) : SoundOn .assignment (expressionWithin n) := by
  induction n with
  | zero =>
    intro s
    exact trivial
  | succ n ih => exact assignmentOver_sound ih

/-- Whatever `expression` returns is spelled by the tokens it has read. -/
theorem expression_sound : SoundOn .assignment expression :=
  fun s => expressionWithin_sound (s.budget + 1) s

/-! ## Completeness -/

/-- The nesting is too deep. -/
def IsTooDeep (e : GrammarError) : Prop := ∃ location, e = .tooDeep location

/-- If the stream begins with an expression of level `l` that what follows does not continue,
then `p` returns it, unless the nesting is too deep. -/
def CompleteOn (l : Level) (p : Parser Expr) : Prop :=
  ∀ s e rest, Expr.Spelled l s.kinds e rest → l.Ends rest →
    Outcome p s (fun e' s' => e'.bare = e ∧ s'.kinds = rest) IsTooDeep

theorem primaryOver_complete {inner : Parser Expr} (hInner : CompleteOn .assignment inner)
    {s : Stream} {e : Expr} {rest : List TokenKind} (h : Expr.Spelled .primary s.kinds e rest) :
    Outcome (primaryOver inner) s (fun e' s' => e'.bare = e ∧ s'.kinds = rest) IsTooDeep := by
  unfold primaryOver
  rw [outcome_bind, outcome_here, outcome_bind, outcome_peek?]
  generalize hts : s.kinds = ts at h
  cases h with
  | literal value =>
    simp only [List.head?_cons, outcome_bind]
    exact outcome_advance hts fun s₁ h₁ => ⟨rfl, h₁⟩
  | ident x =>
    simp only [List.head?_cons, outcome_bind]
    exact outcome_advance hts fun s₁ h₁ => ⟨rfl, h₁⟩
  | parenthesized h =>
    simp only [List.head?_cons, outcome_bind]
    refine outcome_spend ⟨_, rfl⟩ fun s₁ h₁ => ?_
    refine outcome_advance (h₁.trans hts) fun s₂ h₂ => ?_
    refine (hInner s₂ e _ (h₂ ▸ h) (Level.ends_assignment (by simp) _)).mono fun e' s₃ he => ?_
    exact outcome_expectSymbol_of_kinds he.2 fun s₄ h₄ => ⟨he.1, h₄⟩
  | @binary _ _ _ _ _ op _ _ hop => cases op <;> cases hop
  | tighter hl => cases hl

theorem repeated_of_moreArguments {es : List Expr} {us rest : List TokenKind}
    (h : MoreArguments us es rest) :
    Repeated (AfterComma (Expr.Spelled .assignment)) us es rest := by
  induction es generalizing us with
  | nil =>
    cases h with
    | done => exact .nil _
  | cons e es ih =>
    cases h with
    | comma he hes => exact .cons (.mk he) (ih hes)

theorem ends_of_atComma (ts : List TokenKind) (h : atComma ts) : Level.assignment.Ends ts := by
  cases ts with
  | nil => cases h
  | cons k ts =>
    have hk : k = .symbol .comma := by simpa [atComma] using h
    subst hk
    exact Level.ends_assignment (by simp) ts

theorem callOver_complete {inner : Parser Expr} (hInner : CompleteOn .assignment inner)
    {callee : Expr} {f : String} {args : List Expr} {s : Stream} {us rest : List TokenKind}
    (hCallee : callee.bare = .ident f nowhere) (hs : s.kinds = .symbol .leftParen :: us)
    (hArgs : Arguments us args (.symbol .rightParen :: rest)) :
    Outcome (callOver inner callee) s
      (fun e s' => e.bare = .call f args nowhere ∧ s'.kinds = rest) IsTooDeep := by
  unfold callOver
  simp only [Expr.name?_eq_some.mpr hCallee, outcome_bind]
  refine outcome_spend ⟨_, rfl⟩ fun s₁ h₁ => ?_
  refine outcome_expectSymbol_of_kinds (h₁.trans hs) fun s₂ h₂ => ?_
  rw [outcome_isAt]
  cases hArgs with
  | none =>
    rw [if_pos ((Stream.isAt_iff (by simp)).mpr (by rw [h₂]; rfl)), outcome_bind, outcome_pure,
      outcome_bind]
    exact outcome_expectSymbol_of_kinds h₂ fun s₃ h₃ => ⟨rfl, h₃⟩
  | some he hes =>
    have hNot : ¬ s₂.isAt (.symbol .rightParen) := by
      rw [Stream.isAt_iff (by simp), h₂]
      obtain ⟨k, hk, hStart⟩ := he.opens.head
      rw [hk, Option.some.injEq]
      rintro rfl
      cases hStart
    rw [if_neg hNot, outcome_bind]
    refine (outcome_commaSeparated_of_repeated Level.assignment.Ends Expr.bare
      (fun _ _ _ h => h.opens.passes) ends_of_atComma hInner (h₂ ▸ he)
      (repeated_of_moreArguments hes) (Level.ends_assignment (by simp) rest) rfl).mono
        fun es s₃ hes => ?_
    rw [outcome_bind]
    refine outcome_expectSymbol_of_kinds hes.2 fun s₄ h₄ => ⟨?_, h₄⟩
    rw [Expr.bare, bareEach_eq_map, hes.1]

theorem suffixedOver_complete {inner : Parser Expr} (hInner : CompleteOn .assignment inner) :
    CompleteOn .trailing (suffixedOver inner) := by
  intro s e rest h hEnds
  have hParen : rest.head? ≠ some (.symbol .leftParen) := hEnds _ (by decide)
  have hNoOp : rest.head?.bind trailingOp? = none := by
    rw [Option.eq_none_iff_forall_ne_some]
    intro op hop
    obtain ⟨k, hk, hop⟩ := Option.bind_eq_some_iff.mp hop
    obtain ⟨hNe, rfl⟩ := trailingOp?_eq_some.mp hop
    refine hEnds (unaryMark op) ?_ hk
    cases op <;> first | decide | exact absurd rfl hNe
  unfold suffixedOver
  rw [outcome_bind]
  cases h with
  | @trailing _ _ op x hNe hNames =>
    refine (primaryOver_complete hInner (hNames.spelled .primary)).mono fun head s₁ hHead => ?_
    obtain ⟨hHead, h₁⟩ := hHead
    have hNot : ¬ s₁.isAt (.symbol .leftParen) := by
      rw [Stream.isAt_iff (by simp), h₁]
      cases op <;> simp [unaryMark]
    rw [outcome_bind, outcome_isAt, if_neg hNot, outcome_bind, outcome_pure, outcome_bind,
      outcome_peek?, h₁, List.head?_cons, Option.bind_some,
      trailingOp?_eq_some.mpr ⟨hNe, rfl⟩]
    simp only [Expr.name?_eq_some.mpr hHead, outcome_bind]
    refine outcome_advance h₁ fun s₂ h₂ => ⟨?_, h₂⟩
    rw [Expr.bare, hHead]
  | @binary _ _ _ _ _ op _ _ hop => cases op <;> cases hop
  | tighter hl h =>
    cases hl
    cases h with
    | call hNames hArgs =>
      refine (primaryOver_complete hInner (hNames.spelled .primary)).mono fun head s₁ hHead => ?_
      obtain ⟨hHead, h₁⟩ := hHead
      have hAt : s₁.isAt (.symbol .leftParen) := by
        rw [Stream.isAt_iff (by simp), h₁]
        rfl
      rw [outcome_bind, outcome_isAt, if_pos hAt, outcome_bind]
      refine (callOver_complete hInner hHead h₁ hArgs).mono fun e' s₂ he => ?_
      rw [outcome_bind, outcome_peek?, he.2, hNoOp]
      exact he
    | @binary _ _ _ _ _ op _ _ hop => cases op <;> cases hop
    | tighter hl h =>
      cases hl
      refine (primaryOver_complete hInner h).mono fun e' s₁ he => ?_
      have hNot : ¬ s₁.isAt (.symbol .leftParen) := by
        rw [Stream.isAt_iff (by simp), he.2]
        exact hParen
      rw [outcome_bind, outcome_isAt, if_neg hNot, outcome_bind, outcome_pure, outcome_bind,
        outcome_peek?, he.2, hNoOp]
      exact he

theorem unaryWithin_complete {inner : Parser Expr} (hInner : CompleteOn .assignment inner)
    (n : Nat) : CompleteOn .leading (unaryWithin inner n) := by
  induction n with
  | zero =>
    intro s e rest _ _
    exact ⟨_, rfl⟩
  | succ n ih =>
    intro s e rest h hEnds
    -- Every operator in front leaves an operand on the same level.
    have hOperand {op : UnaryOp} {ts : List TokenKind} {operand : Expr}
        (hs : s.kinds = .symbol (unaryMark op) :: ts)
        (h : Expr.Spelled .leading ts operand rest)
        (hop : op = .negate ∨ operand.name? ≠ none) :
        Outcome (unaryWithin inner (n + 1)) s
          (fun e' s' => e'.bare = .unary op operand .leading nowhere ∧ s'.kinds = rest)
          IsTooDeep := by
      rw [unaryWithin, outcome_bind, outcome_here, outcome_bind, outcome_peek?, hs,
        List.head?_cons, Option.bind_some, leadingOp?_eq_some.mpr rfl]
      dsimp only
      rw [outcome_bind]
      refine outcome_spend ⟨_, rfl⟩ fun s₁ h₁ => ?_
      rw [outcome_bind]
      refine outcome_advance (h₁.trans hs) fun s₂ h₂ => ?_
      rw [outcome_bind]
      refine (ih s₂ operand rest (h₂ ▸ h) hEnds).mono fun operand' s₃ hOperand => ?_
      obtain ⟨hBare, h₃⟩ := hOperand
      have hName : operand'.name? = operand.name? := by rw [← hBare, Expr.name?_bare]
      rw [if_neg fun hBad => hop.elim hBad.1 fun hSome => hSome (hName ▸ hBad.2)]
      exact ⟨by rw [Expr.bare, hBare], h₃⟩
    generalize hts : s.kinds = ts at h
    cases h with
    | negate h => exact hOperand hts h (.inl rfl)
    | leading hNe hNames =>
      exact hOperand hts (hNames.spelled .leading) (.inr (by simp [Expr.name?]))
    | @binary _ _ _ _ _ op _ _ hop => cases op <;> cases hop
    | tighter hl h =>
      cases hl
      obtain ⟨k, hk, hStart⟩ := h.opens.head
      have hNoOp : s.kinds.head?.bind leadingOp? = none := by
        rw [hts, hk, Option.bind_some, Option.eq_none_iff_forall_ne_some]
        intro op hop
        obtain rfl := leadingOp?_eq_some.mp hop
        cases op <;> cases hStart
      rw [unaryWithin, outcome_bind, outcome_here, outcome_bind, outcome_peek?, hNoOp]
      exact suffixedOver_complete hInner s e rest (hts ▸ h) (hEnds.tighter rfl)

/-- Operands joined by the operators of one level. -/
theorem chain_complete {l tight : Level} {op? : TokenKind → Option BinaryOp}
    {operand : Parser Expr} (hl : l.tighter? = some tight) (hBinary : ∃ op, binaryLevel op = l)
    (hop : ∀ k op, op? k = some op ↔ binaryLevel op = l ∧ k = .symbol (binaryMark op))
    (hOperand : CompleteOn tight operand) : CompleteOn l (chain op? operand) := by
  intro s e rest h hEnds
  obtain ⟨op₀, hop₀⟩ := hBinary
  obtain ⟨first, us, ops, hFirst, hops, rfl⟩ := h.exists_operands hop₀ hl
  have hFollow (ts : List TokenKind) (op : BinaryOp) (hts : ts.head?.bind op? = some op) :
      tight.Ends ts := by
    cases ts with
    | nil => cases hts
    | cons k ts =>
      obtain ⟨hLevel, rfl⟩ := (hop k op).mp hts
      exact Level.ends_binaryMark hLevel hl ts
  have hus : tight.Ends us := by
    cases hops with
    | nil => exact hEnds.tighter hl
    | cons hb _ =>
      cases hb with
      | mk hLevel _ => exact Level.ends_binaryMark hLevel hl _
  have hStop : rest.head?.bind op? = none := by
    rw [Option.eq_none_iff_forall_ne_some]
    intro op hSome
    obtain ⟨k, hk, hk'⟩ := Option.bind_eq_some_iff.mp hSome
    obtain ⟨hLevel, rfl⟩ := (hop k op).mp hk'
    exact hEnds _ (hLevel ▸ Level.binaryMark_mem_continuations op) hk
  unfold chain
  rw [outcome_bind]
  refine (hOperand s first us hFirst hus).mono fun first' s₁ hFirst' => ?_
  obtain ⟨hFirst', h₁⟩ := hFirst'
  rw [outcome_bind]
  refine (outcome_many_of_repeated (fun ts => ts.head?.bind op?) tight.Ends bareOperand
    (fun s => by rw [s.peek?_eq_head?]) ?_ ?_ hFollow ?_ (h₁ ▸ hops) (hEnds.tighter hl)
    hStop).mono fun ops' s₂ hops' => ?_
  · intro ts a us h
    cases h with
    | mk _ h => exact Nat.lt_succ_of_lt h.opens.length_lt
  · intro ts a us h
    cases h with
    | @mk _ _ op _ hLevel _ => exact ⟨op, (hop _ op).mpr ⟨hLevel, rfl⟩⟩
  · intro s₂ op a us hLook ha hus
    generalize hts : s₂.kinds = ts at ha hLook
    cases ha with
    | @mk _ _ op' b hLevel hb =>
      have hSame : op' = op := by
        have h' := (hop _ op').mpr ⟨hLevel, rfl⟩
        rw [List.head?_cons, Option.bind_some, h', Option.some.injEq] at hLook
        exact hLook
      subst hSame
      rw [outcome_bind]
      refine outcome_spend ⟨_, rfl⟩ fun s₃ h₃ => ?_
      rw [outcome_bind]
      refine outcome_advance (h₃.trans hts) fun s₄ h₄ => ?_
      rw [outcome_bind]
      refine (hOperand s₄ b us (h₄ ▸ hb) hus).mono fun b' s₅ hb' => ⟨?_, hb'.2⟩
      rw [bareOperand, hb'.1]
  · exact ⟨by rw [bare_foldl_binary, hFirst', hops'.1], hops'.2⟩

theorem equalityOver_complete {inner : Parser Expr} (hInner : CompleteOn .assignment inner) :
    CompleteOn .equality (equalityOver inner) := by
  have hUnary : CompleteOn .leading (unaryOver inner) := fun s =>
    unaryWithin_complete hInner _ s
  have hMul := chain_complete rfl ⟨.mul, rfl⟩ (fun _ _ => multiplicativeOp?_eq_some) hUnary
  have hAdd := chain_complete rfl ⟨.add, rfl⟩ (fun _ _ => additiveOp?_eq_some) hMul
  have hRel := chain_complete rfl ⟨.less, rfl⟩ (fun _ _ => relationalOp?_eq_some) hAdd
  exact chain_complete rfl ⟨.equal, rfl⟩ (fun _ _ => equalityOp?_eq_some) hRel

theorem assignmentOver_complete {inner : Parser Expr} (hInner : CompleteOn .assignment inner) :
    CompleteOn .assignment (assignmentOver inner) := by
  intro s e rest h hEnds
  unfold assignmentOver
  rw [outcome_bind]
  cases h with
  | @assign _ us _ op x value hNames hValue =>
    refine (equalityOver_complete hInner s _ _ (hNames.spelled .equality)
      (Level.ends_assignMark op us)).mono fun left s₁ hLeft => ?_
    obtain ⟨hLeft, h₁⟩ := hLeft
    rw [outcome_bind, outcome_peek?, h₁, List.head?_cons, Option.bind_some,
      assignOp?_eq_some.mpr rfl]
    dsimp only
    rw [outcome_bind]
    refine outcome_advance h₁ fun s₂ h₂ => ?_
    rw [outcome_bind]
    refine outcome_spend ⟨_, rfl⟩ fun s₃ h₃ => ?_
    rw [outcome_bind]
    refine (hInner s₃ value rest ((h₃.trans h₂) ▸ hValue) hEnds).mono fun right s₄ hRight => ?_
    rw [Expr.name?_eq_some.mpr hLeft]
    exact ⟨by rw [Expr.bare, hRight.1], hRight.2⟩
  | @binary _ _ _ _ _ op _ _ hop => cases op <;> cases hop
  | tighter hl h =>
    cases hl
    refine (equalityOver_complete hInner s e rest h (hEnds.tighter rfl)).mono fun e' s₁ he => ?_
    have hNoOp : rest.head?.bind assignOp? = none := by
      rw [Option.eq_none_iff_forall_ne_some]
      intro op hop
      obtain ⟨k, hk, hop⟩ := Option.bind_eq_some_iff.mp hop
      obtain rfl := assignOp?_eq_some.mp hop
      exact hEnds (assignMark op) (by cases op <;> decide) hk
    rw [outcome_bind, outcome_peek?, he.2, hNoOp]
    exact he

theorem expressionWithin_complete (n : Nat) : CompleteOn .assignment (expressionWithin n) := by
  induction n with
  | zero =>
    intro s e rest _ _
    exact ⟨_, rfl⟩
  | succ n ih => exact assignmentOver_complete ih

/-- If the stream begins with an expression that what follows does not continue, then
`expression` returns it, unless the nesting is too deep. -/
theorem expression_complete : CompleteOn .assignment expression :=
  fun s => expressionWithin_complete (s.budget + 1) s

end Parser

end CToGo.Source
