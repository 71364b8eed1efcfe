import CToGo.Proofs.Locations.Endings

/-!
# One token ahead

A call is decided by the tokens that it reads and by the one behind them. What follows has no
influence, and neither has where the token before the first one ended: a span is only closed
behind a token that the call itself has read.

* `Stream.closingAt`: the stream behind a token that ends somewhere else.
* `Forgets p`: `p` fails before it has read a token, or the end of the token before is forgotten.
* `Overlooks p`: `p` may also succeed without reading a token.
* `Call.decided_by_next`: **a call does the same on every stream that begins with the tokens that
  it reads and the one behind them.**
-/

namespace CToGo.Source.Parser

/-! ## The token before -/

/-- The stream behind a token that ends at `l`. -/
def Stream.closingAt (s : Stream) (l : Location) : Stream := { s with lastEnd := l }

/-- If a token is left, the parser reads one and so forgets where the token before ended, or it
fails and has left the tokens alone. -/
def Forgets {α : Type} (p : Parser α) : Prop :=
  ∀ (s : Stream) (l : Location), s.tokens ≠ [] → p (s.closingAt l) = p s ∨
    ∃ e t, t.tokens = s.tokens ∧ p s = .error e t ∧ p (s.closingAt l) = .error e (t.closingAt l)

/-- If a token is left, the parser forgets where the token before ended, or it has left the tokens
alone and remembers nothing else of it. -/
def Overlooks {α : Type} (p : Parser α) : Prop :=
  ∀ (s : Stream) (l : Location), s.tokens ≠ [] → p (s.closingAt l) = p s ∨
    (∃ a t, t.tokens = s.tokens ∧ p s = .ok a t ∧ p (s.closingAt l) = .ok a (t.closingAt l)) ∨
    ∃ e t, t.tokens = s.tokens ∧ p s = .error e t ∧ p (s.closingAt l) = .error e (t.closingAt l)

section

variable {α β : Type} {p : Parser α}

theorem Forgets.overlooks (h : Forgets p) : Overlooks p := by
  intro s l hs
  rcases h s l hs with hSame | hFails
  · exact .inl hSame
  · exact .inr (.inr hFails)

/-- What follows a token that has been read may look at where it ended. -/
theorem forgets_bind (hp : Forgets p) (f : α → Parser β) : Forgets (p >>= f) := by
  intro s l hs
  rcases hp s l hs with hSame | ⟨e, t, hTokens, hRun, hRun'⟩
  · exact .inl (by simp only [bind, EStateM.bind, hSame])
  · exact .inr ⟨e, t, hTokens, bind_of_error hRun, bind_of_error hRun'⟩

theorem Overlooks.forgets_bind {f : α → Parser β} (hp : Overlooks p)
    (hf : ∀ a, Forgets (f a)) : Forgets (p >>= f) := by
  intro s l hs
  rcases hp s l hs with hSame | ⟨a, t, hTokens, hRun, hRun'⟩ | ⟨e, t, hTokens, hRun, hRun'⟩
  · exact .inl (by simp only [bind, EStateM.bind, hSame])
  · rw [bind_of_ok hRun, bind_of_ok hRun', ← hTokens]
    exact hf a t l (hTokens ▸ hs)
  · exact .inr ⟨e, t, hTokens, bind_of_error hRun, bind_of_error hRun'⟩

theorem overlooks_bind {f : α → Parser β} (hp : Overlooks p) (hf : ∀ a, Overlooks (f a)) :
    Overlooks (p >>= f) := by
  intro s l hs
  rcases hp s l hs with hSame | ⟨a, t, hTokens, hRun, hRun'⟩ | ⟨e, t, hTokens, hRun, hRun'⟩
  · exact .inl (by simp only [bind, EStateM.bind, hSame])
  · rw [bind_of_ok hRun, bind_of_ok hRun', ← hTokens]
    exact hf a t l (hTokens ▸ hs)
  · exact .inr (.inr ⟨e, t, hTokens, bind_of_error hRun, bind_of_error hRun'⟩)

/-! ## Steps -/

theorem overlooks_pure (a : α) : Overlooks (pure a) :=
  fun s _ _ => .inr (.inl ⟨a, s, rfl, rfl, rfl⟩)

theorem overlooks_peek? : Overlooks peek? :=
  fun s _ _ => .inr (.inl ⟨s.peek?, s, rfl, rfl, rfl⟩)

theorem overlooks_isAt (kind : TokenKind) : Overlooks (isAt kind) :=
  fun s _ _ => .inr (.inl ⟨s.isAt kind, s, rfl, rfl, rfl⟩)

theorem overlooks_here : Overlooks here :=
  fun s _ _ => .inr (.inl ⟨s.location, s, rfl, rfl, rfl⟩)

theorem overlooks_spend (cost : Nat) : Overlooks (spend cost) := by
  intro s l _
  have hRun := spend_eq cost s
  have hRun' := spend_eq cost (s.closingAt l)
  by_cases hCost : s.budget < cost
  · exact .inr (.inr ⟨_, s, rfl, hRun.trans (if_pos hCost), hRun'.trans (if_pos hCost)⟩)
  · let t : Stream := { s with budget := s.budget - cost }
    exact .inr (.inl ⟨(), t, rfl, hRun.trans (if_neg hCost), hRun'.trans (if_neg hCost)⟩)

theorem forgets_throw (e : GrammarError) : Forgets (throw e : Parser α) :=
  fun s _ _ => .inr ⟨e, s, rfl, rfl, rfl⟩

theorem forgets_unexpected (expected : Expectation) : Forgets (unexpected expected : Parser α) :=
  fun s _ _ => .inr ⟨s.unexpected expected, s, rfl, rfl, rfl⟩

theorem forgets_advance : Forgets advance := by
  intro s l hs
  obtain ⟨tok, rest, hTokens⟩ := List.exists_cons_of_ne_nil hs
  have hTail : (s.closingAt l).tail = s.tail := by simp [Stream.tail, Stream.closingAt, hTokens]
  have hRun (u : Stream) : advance u = .ok () u.tail := rfl
  exact .inl (by rw [hRun, hRun, hTail])

theorem forgets_ite {c : Prop} [Decidable c] {q : Parser α} (hThen : Forgets p)
    (hElse : Forgets q) : Forgets (if c then p else q) := by
  split
  · exact hThen
  · exact hElse

theorem forgets_refunding (hp : Forgets p) : Forgets (refunding p) := by
  intro s l hs
  rw [refunding_eq, refunding_eq]
  rcases hp s l hs with hSame | ⟨e, t, hTokens, hRun, hRun'⟩
  · exact .inl (by rw [hSame]; rfl)
  · exact .inr ⟨e, t, hTokens, by rw [hRun], by rw [hRun']⟩

/-- A parser that depends on the budget that is left. -/
theorem forgets_budget {f : Nat → Parser α} (hf : ∀ n, Forgets (f n)) :
    Forgets (do f (← get).budget) :=
  fun s l hs => hf s.budget s l hs

theorem forgets_expectSymbol (mark : Symbol) (context : String) :
    Forgets (expectSymbol mark context) :=
  (overlooks_isAt _).forgets_bind fun _ => forgets_ite forgets_advance (forgets_unexpected _)

theorem forgets_identifier (context : String) : Forgets (identifier context) := by
  refine overlooks_peek?.forgets_bind fun kind? => ?_
  split
  · exact forgets_bind forgets_advance _
  · exact forgets_unexpected _

theorem overlooks_manyWithin {next? : Stream → Option β} {item : β → Parser α}
    (hNext : ∀ s l, next? (s.closingAt l) = next? s) (hItem : ∀ b, Forgets (item b))
    (bound : List Token) : Overlooks (manyWithin next? item bound) := by
  intro s l hs
  cases hSeen : next? s with
  | none =>
    rw [manyWithin_of_none hSeen, manyWithin_of_none ((hNext s l).trans hSeen)]
    exact .inr (.inl ⟨[], s, rfl, rfl, rfl⟩)
  | some b =>
    cases bound with
    | nil => exact .inr (.inl ⟨[], s, rfl, rfl, rfl⟩)
    | cons token bound =>
      rw [manyWithin_of_some hSeen, manyWithin_of_some ((hNext s l).trans hSeen)]
      exact (forgets_bind (hItem b) _).overlooks s l hs

theorem overlooks_manyWhile {more : Stream → Bool} {item : Parser α}
    (hMore : ∀ s l, more (s.closingAt l) = more s) (hItem : Forgets item) :
    Overlooks (manyWhile more item) := by
  intro s l hs
  refine overlooks_manyWithin ?_ (fun _ => hItem) s.tokens s l hs
  intro s l
  rw [hMore]

end

/-! ## Expressions -/

section

variable (inner : Parser Expr)

theorem primaryOver_forgets : Forgets (primaryOver inner) := by
  refine overlooks_here.forgets_bind fun start => ?_
  refine overlooks_peek?.forgets_bind fun kind? => ?_
  split
  · exact forgets_bind forgets_advance _
  · exact forgets_bind forgets_advance _
  · exact (overlooks_spend _).forgets_bind fun _ => forgets_bind forgets_advance _
  · exact forgets_unexpected _

theorem suffixedOver_forgets : Forgets (suffixedOver inner) :=
  forgets_bind (primaryOver_forgets inner) _

theorem unaryWithin_forgets (n : Nat) : Forgets (unaryWithin inner n) := by
  cases n with
  | zero => exact overlooks_here.forgets_bind fun start => forgets_throw _
  | succ n =>
    refine overlooks_here.forgets_bind fun start => ?_
    refine overlooks_peek?.forgets_bind fun kind? => ?_
    split
    · exact suffixedOver_forgets inner
    · exact (overlooks_spend _).forgets_bind fun _ => forgets_bind forgets_advance _

theorem unaryOver_forgets : Forgets (unaryOver inner) :=
  forgets_budget fun n => unaryWithin_forgets inner (n + 1)

theorem chain_forgets (op? : TokenKind → Option BinaryOp) {operand : Parser Expr}
    (hOperand : Forgets operand) : Forgets (chain op? operand) :=
  forgets_bind hOperand _

theorem multiplicativeOver_forgets : Forgets (multiplicativeOver inner) :=
  chain_forgets _ (unaryOver_forgets inner)

theorem additiveOver_forgets : Forgets (additiveOver inner) :=
  chain_forgets _ (multiplicativeOver_forgets inner)

theorem relationalOver_forgets : Forgets (relationalOver inner) :=
  chain_forgets _ (additiveOver_forgets inner)

theorem equalityOver_forgets : Forgets (equalityOver inner) :=
  chain_forgets _ (relationalOver_forgets inner)

theorem assignmentOver_forgets : Forgets (assignmentOver inner) :=
  forgets_bind (equalityOver_forgets inner) _

theorem expression_forgets : Forgets expression := by
  refine forgets_budget (f := fun n => expressionWithin (n + 1)) fun n => ?_
  exact assignmentOver_forgets (expressionWithin n)

theorem Entry.parser_forgets (entry : Entry) : Forgets entry.parser := by
  cases entry with
  | expression => exact expression_forgets
  | assignment => exact assignmentOver_forgets _
  | equality => exact equalityOver_forgets _
  | relational => exact relationalOver_forgets _
  | additive => exact additiveOver_forgets _
  | multiplicative => exact multiplicativeOver_forgets _
  | unary => exact unaryOver_forgets _
  | suffixed => exact suffixedOver_forgets _
  | primary => exact primaryOver_forgets _

end

/-! ## Statements and functions -/

theorem typeSpecifier_forgets : Forgets typeSpecifier := by
  refine overlooks_peek?.forgets_bind fun kind? => ?_
  split
  · exact forgets_bind forgets_advance _
  · exact forgets_unexpected _

theorem pointers_overlooks (base : Ty) : Overlooks (pointers base) :=
  overlooks_bind (overlooks_manyWhile (fun _ _ => rfl) forgets_advance) fun _ => overlooks_pure _

theorem declarator_forgets (base : Ty) (context : String) : Forgets (declarator base context) :=
  (pointers_overlooks base).forgets_bind fun _ => forgets_bind (forgets_identifier context) _

theorem blockOver_forgets (inner : Parser Stmt) : Forgets (blockOver inner) := by
  refine overlooks_here.forgets_bind fun start => forgets_bind (forgets_refunding ?_) _
  refine (overlooks_spend _).forgets_bind fun _ => ?_
  exact forgets_bind (forgets_expectSymbol _ _) _

theorem formOver_forgets (inner : Parser Stmt) : Forgets (formOver inner) := by
  have hEvaluation : Forgets evaluation := forgets_bind expression_forgets _
  refine overlooks_peek?.forgets_bind fun kind? => ?_
  split
  · exact forgets_bind (blockOver_forgets inner) _
  · exact forgets_bind forgets_advance _
  · exact forgets_bind forgets_advance _
  · exact forgets_bind forgets_advance _
  · exact forgets_ite (forgets_bind typeSpecifier_forgets _) hEvaluation
  · exact hEvaluation

theorem statement_forgets : Forgets statement := by
  refine forgets_budget (f := fun n => statementWithin (n + 1)) fun n => ?_
  refine overlooks_here.forgets_bind fun start => ?_
  exact forgets_bind (forgets_refunding (formOver_forgets _)) _

theorem function_forgets : Forgets function :=
  overlooks_here.forgets_bind fun _ => forgets_bind typeSpecifier_forgets _

theorem program_overlooks : Overlooks program := by
  refine overlooks_bind overlooks_here fun start => ?_
  refine overlooks_bind (overlooks_manyWhile (fun _ _ => rfl) function_forgets) fun functions => ?_
  exact overlooks_bind overlooks_here fun stop => overlooks_pure _

theorem Call.parser_overlooks (c : Call) : Overlooks c.parser := by
  cases c with
  | program => exact program_overlooks
  | function => exact function_forgets.overlooks
  | block => exact (blockOver_forgets _).overlooks
  | statement => exact statement_forgets.overlooks
  | expression entry => exact entry.parser_forgets.overlooks
  | typeSpecifier => exact typeSpecifier_forgets.overlooks
  | declarator base context => exact (declarator_forgets base context).overlooks

/-- Where the token before ended makes no difference to a call. -/
theorem Call.closingAt (c : Call) {s : Stream} (hs : s.tokens ≠ []) (l : Location) :
    c.answer (s.closingAt l) = c.answer s ∧
      (c.after (s.closingAt l)).tokens = (c.after s).tokens ∧
      (c.after (s.closingAt l)).budget = (c.after s).budget := by
  rw [c.after_eq, c.after_eq, streamAfter, streamAfter, Call.answer, Call.answer]
  rcases c.parser_overlooks s l hs with hSame | ⟨a, t, -, hRun, hRun'⟩ | ⟨e, t, -, hRun, hRun'⟩
  · rw [hSame]
    exact ⟨rfl, rfl, rfl⟩
  · rw [hRun, hRun']
    exact ⟨rfl, rfl, rfl⟩
  · rw [hRun, hRun']
    exact ⟨rfl, rfl, rfl⟩

/-! ## The tokens behind -/

namespace Fork

/-- Two streams that part without being moved. -/
def level (left right : List Token) : Fork := ⟨id, left, right⟩

variable {left right : List Token}

theorem follows_eq {α : Type} {p : Parser α} {m : α → α} (hm : ∀ a, m a = a)
    (h : (level left right).Follows (Maps m) p p) : (level left right).Follows Eq p p :=
  h.mono fun a _ hMaps => (hMaps.trans (hm a)).symm

theorem Entry.parser_follows (fork : Fork) (entry : Entry) :
    fork.Follows (Maps (Expr.move fork.move)) entry.parser entry.parser := by
  have hInner : fork.Follows (Maps (Expr.move fork.move)) expression expression :=
    expression_follows
  cases entry with
  | expression => exact hInner
  | assignment => exact assignmentOver_follows hInner
  | equality => exact equalityOver_follows hInner
  | relational => exact relationalOver_follows hInner
  | additive => exact additiveOver_follows hInner
  | multiplicative => exact multiplicativeOver_follows hInner
  | unary => exact unaryOver_follows hInner
  | suffixed => exact suffixedOver_follows hInner
  | primary => exact primaryOver_follows hInner

theorem program_follows (fork : Fork) :
    fork.Follows (Maps (Program.move fork.move)) program program := by
  refine follows_bind_maps follows_here fun start => ?_
  refine follows_bind_maps (follows_manyWhile ?_ ?_ (fun s a t _ => function_progresses s a t)
    function_follows) fun functions => ?_
  · intro s t hPaired hs
    rw [hPaired.isAt hs]
  · intro s hs
    simp [Stream.isAt, Stream.peek?, hs]
  · exact follows_bind_maps follows_here fun stop => follows_pure rfl

theorem Call.parser_follows (c : Call) : (level left right).Follows Eq c.parser c.parser := by
  cases c with
  | program => exact follows_eq Program.move_id (program_follows _)
  | function => exact follows_eq Function.move_id function_follows
  | block =>
    exact follows_eq Block.move_id (blockOver_follows statement_follows statement_progresses)
  | statement => exact follows_eq Stmt.move_id statement_follows
  | expression entry => exact follows_eq Expr.move_id (Entry.parser_follows _ entry)
  | typeSpecifier => exact follows_eq (fun _ => rfl) typeSpecifier_follows
  | declarator base context => exact follows_eq (fun _ => rfl) (declarator_follows base context)

end Fork

theorem Call.answer_of_parted (c : Call) {s t : Stream} {read left right : List Token}
    {next : Token} (hs : s.tokens = read ++ next :: left) (hAfter : (c.after s).tokens = next :: left)
    (ht : t.tokens = read ++ next :: right) (hLast : t.lastEnd = s.lastEnd)
    (hBudget : t.budget = s.budget) (hOpen : ¬ (left = [] ∧ right = [])) :
    c.answer t = c.answer s ∧ (c.after t).tokens = next :: right ∧
      (c.after t).budget = (c.after s).budget := by
  have hMoved (ts : List Token) : ts.map (Token.move id) = ts := ts.map_id
  have hPaired : (Fork.level left right).Paired s t := by
    refine ⟨⟨read ++ [next], ?_, ?_⟩, hLast, fun hLeft hRight => absurd ⟨hLeft, hRight⟩ hOpen,
      hBudget⟩
    · rw [hs, List.append_assoc]
      rfl
    · rw [ht, Fork.level, hMoved, List.append_assoc]
      rfl
  have hBefore : ¬ (Fork.level left right).Past (streamAfter c.parser s) := by
    rintro ⟨-, hReached⟩
    rw [← c.after_eq, hAfter] at hReached
    exact absurd hReached (Nat.not_succ_le_self left.length)
  have hSame := ((Fork.Call.parser_follows c).2 s t hPaired).resolve_left hBefore
  rw [c.after_eq, streamAfter] at hAfter
  rw [c.after_eq, c.after_eq, streamAfter, streamAfter, Call.answer, Call.answer]
  generalize c.parser s = x at hSame hAfter
  generalize c.parser t = y at hSame
  have hLeft {s' t' : Stream} (hEnd : (Fork.level left right).Paired s' t')
      (hTokens : s'.tokens = next :: left) : t'.tokens = next :: right := by
    obtain ⟨shared, hShared, hShared'⟩ := hEnd.tokens
    have hNext : [next] ++ left = shared ++ left := hTokens.symm.trans hShared
    obtain rfl := List.append_cancel_right hNext
    exact hShared'
  cases hSame with
  | ok hEq hEnd =>
    subst hEq
    exact ⟨rfl, hLeft hEnd hAfter, hEnd.budget⟩
  | error e hEnd =>
    exact ⟨congrArg Except.error e.move_id, hLeft hEnd hAfter, hEnd.budget⟩

/-- **One token ahead.** If a call reads some tokens and leaves another one behind them, it does
the same on every stream that begins with these tokens and has the same budget: it reads as many
tokens, gives the same result or the same error, and leaves as much of the budget. What follows
these tokens has no influence. -/
theorem Call.decided_by_next (c : Call) {s t : Stream} {read left right : List Token} {next : Token}
    (hs : s.tokens = read ++ next :: left) (hAfter : (c.after s).tokens = next :: left)
    (ht : t.tokens = read ++ next :: right) (hBudget : t.budget = s.budget) :
    c.answer t = c.answer s ∧ (c.after t).tokens = next :: right ∧
      (c.after t).budget = (c.after s).budget := by
  -- Where a stream without further tokens ends is only known to be without influence if the other
  -- goes on, so both are compared with a stream that does.
  let u : Stream := { s with tokens := read ++ next :: [next] }
  obtain ⟨hAnswer, hRest, hLeft⟩ :=
    c.answer_of_parted (t := u) hs hAfter rfl rfl rfl (by simp)
  obtain ⟨hAnswer', hRest', hLeft'⟩ :=
    c.answer_of_parted (s := u) (t := t.closingAt s.lastEnd) rfl hRest ht rfl hBudget (by simp)
  have hNonempty : t.tokens ≠ [] := by simp [ht]
  obtain ⟨hSame, hTokens, hSpent⟩ := c.closingAt hNonempty s.lastEnd
  refine ⟨hSame.symm.trans (hAnswer'.trans hAnswer), hTokens.symm.trans hRest', ?_⟩
  exact hSpent.symm.trans (hLeft'.trans hLeft)

/-- A list of parameters that ends with a semicolon: the error is the same whatever stands behind
it. -/
theorem Call.decided_by_next_parameters :
    let read := unlocatedTokens [.keyword .kwInt, .identifier "f", .symbol .leftParen,
      .keyword .kwVoid, .identifier "x"]
    let next : Token := ⟨.symbol .semicolon, nowhere⟩
    let s : Stream := .ofTokens (read ++ [next])
    let t : Stream := { Stream.ofTokens
      (read ++ next :: unlocatedTokens [.keyword .kwElse, .literal 7, .endOfFile]) with
        lastEnd := ⟨"<input>", 3, 1, 20⟩ }
    (Call.function.after s).tokens = [next] ∧
      Call.function.answer s =
        .error (.unexpectedToken (.token (.symbol .rightParen) "parameter list") next) ∧
      Call.function.answer t = Call.function.answer s ∧
      (Call.function.after t).tokens.length = 4 ∧
      (Call.function.after t).budget = (Call.function.after s).budget := by
  intro read next s t
  have hAfter : (Call.function.after s).tokens = [next] := by decide
  obtain ⟨hAnswer, hTokens, hBudget⟩ := Call.decided_by_next .function (s := s) (t := t) rfl hAfter
    rfl rfl
  exact ⟨hAfter, rfl, hAnswer, congrArg List.length hTokens, hBudget⟩

end CToGo.Source.Parser
