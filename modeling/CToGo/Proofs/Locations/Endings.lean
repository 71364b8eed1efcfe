import CToGo.Proofs.Locations.Level

/-!
# Where a file ends

A list of tokens may say where the file ends, once or several times, in its middle or not at all.
No parser ever reads a token that says so. So whatever follows the first such token is never
seen, and where no token is left the parsers behave as in front of one that says so and stands
where the last token ends.

* `upToEnd`: the list with one token that says where the file ends, as its last one.
* `statement_same`, `program_same`, ...: no parser tells streams apart that show the same.
* `answers`: what calls of parsers are answered, one after the other.
* `answers_upToEnd`: **the answers are those that the list gives up to the end.**
-/

namespace CToGo.Source

/-- The tokens up to the first one that says where the file ends. If there is none, one is
added where the last token ends. -/
def upToEnd (tokens : List Token) : List Token :=
  match tokens.dropWhile Token.isShown with
  | mark :: _ => tokens.takeWhile Token.isShown ++ [mark]
  | [] => tokens ++ [⟨.endOfFile, .point ((tokens.getLast?.map (·.span.stop)).getD .unknown)⟩]

namespace Parser

/-! ## Declarators -/

theorem typeSpecifier_same : Same typeSpecifier := by
  refine same_peek? rfl ?_ (same_unexpected _)
  intro kind
  split
  · exact same_then same_advance (same_pure _)
  · exact same_unexpected _

theorem pointers_same (base : Ty) : Same (pointers base) := by
  refine same_bind (same_manyWhile ?_ ?_ ?_ same_advance) fun stars => same_pure _
  · exact fun s t hLevel => hLevel.isAt _
  · exact fun s => Stream.shown_ne_nil_of_isAt (by simp)
  · intro s _ t hStar hRun
    have hs := Stream.tokens_ne_nil_of_isAt (by simp) hStar
    exact length_lt_of_advance (keeps_pure shorter_paidPassage.toPassage ()) hs hRun

theorem declarator_same (base : Ty) (context : String) : Same (declarator base context) := by
  refine same_bind (pointers_same base) fun ty => ?_
  refine same_bind (same_identifier context) fun name => ?_
  refine same_bind (same_accept (by simp)) fun bracketed => ?_
  split
  · exact same_then (same_expectSymbol _ _) (same_pure _)
  · exact same_pure _

/-! ## Expressions -/

section

variable {inner : Parser Expr}

theorem primaryOver_same (hInner : Same inner) : Same (primaryOver inner) := by
  refine same_bind same_here fun start => ?_
  refine same_peek? rfl ?_ (same_unexpected _)
  intro kind
  split
  · exact same_then same_advance (same_spanned start _)
  · exact same_then same_advance (same_spanned start _)
  · refine same_then (same_spend _) ?_
    refine same_then same_advance ?_
    refine same_bind hInner fun e => ?_
    exact same_then (same_expectSymbol _ _) (same_pure e)
  · exact same_unexpected _

theorem callOver_same (hKeeps : Keeps Shorter inner) (hInner : Same inner) (callee : Expr) :
    Same (callOver inner callee) := by
  unfold callOver
  dsimp only
  split
  · exact same_throw _
  · next name _ =>
    have hClose (es : List Expr) : Same (do
        expectSymbol .rightParen "function call"
        return Expr.call name es (← spanFrom callee.span.start)) :=
      same_then (same_expectSymbol _ _) (same_spanned _ _)
    refine same_then (same_spend _) ?_
    refine same_then (same_expectSymbol _ _) ?_
    refine same_isAt (by simp) (hClose []).relax ?_
    exact same_bind (same_commaSeparated hKeeps hInner) hClose

theorem stepOver_same (e : Expr) : Same (stepOver e) := by
  refine same_peek? rfl ?_ (same_pure e)
  intro kind
  split
  · exact (same_pure e).relax
  · split
    · exact same_throw _
    · exact same_then same_advance (same_spanned _ _)

theorem suffixedOver_same (hKeeps : Keeps Shorter inner) (hInner : Same inner) :
    Same (suffixedOver inner) := by
  rw [suffixedOver_eq]
  refine same_bind (primaryOver_same hInner) fun head => ?_
  refine same_isAt (by simp) ?_ (stepOver_same head)
  exact (same_bind (callOver_same hKeeps hInner head) stepOver_same).relax

theorem unaryWithin_same (hKeeps : Keeps Shorter inner) (hInner : Same inner) (n : Nat) :
    Same (unaryWithin inner n) := by
  induction n with
  | zero => exact same_bind same_here fun _ => same_throw _
  | succ n ih =>
    refine same_bind same_here fun start => ?_
    have hSuffixed := suffixedOver_same hKeeps hInner
    refine same_peek? rfl ?_ hSuffixed
    intro kind
    split
    · exact hSuffixed.relax
    · refine same_then (same_spend _) ?_
      refine same_then same_advance ?_
      refine same_bind ih fun operand => ?_
      split
      · exact same_throw _
      · exact same_pure _

theorem chain_same {op? : TokenKind → Option BinaryOp} (hEnd : op? .endOfFile = none)
    {operand : Parser Expr} (hKeeps : Keeps Shorter operand) (hOperand : Same operand) :
    Same (chain op? operand) := by
  refine same_bind hOperand fun first => ?_
  refine same_bind (same_many ?_ ?_ (consumes_operands hKeeps) ?_) fun rest => same_pure _
  · exact fun s t hLevel => hLevel.bind_peek? hEnd
  · intro s op hSeen hs
    rcases Stream.peek?_of_shown_eq_nil hs with hPeek | hPeek
    · simp [hPeek] at hSeen
    · simp [hPeek, hEnd] at hSeen
  · intro op
    refine same_then (same_spend _) ?_
    refine same_then same_advance ?_
    exact same_bind hOperand fun right => same_pure _

theorem unaryOver_same (hKeeps : Keeps Shorter inner) (hInner : Same inner) :
    Same (unaryOver inner) :=
  same_budget fun n => unaryWithin_same hKeeps hInner (n + 1)

theorem multiplicativeOver_same (hKeeps : Keeps Shorter inner) (hInner : Same inner) :
    Same (multiplicativeOver inner) :=
  chain_same rfl (unaryOver_keeps shorter_paidPassage hKeeps) (unaryOver_same hKeeps hInner)

theorem additiveOver_same (hKeeps : Keeps Shorter inner) (hInner : Same inner) :
    Same (additiveOver inner) :=
  chain_same rfl (multiplicativeOver_keeps shorter_paidPassage hKeeps)
    (multiplicativeOver_same hKeeps hInner)

theorem relationalOver_same (hKeeps : Keeps Shorter inner) (hInner : Same inner) :
    Same (relationalOver inner) :=
  chain_same rfl (additiveOver_keeps shorter_paidPassage hKeeps) (additiveOver_same hKeeps hInner)

theorem equalityOver_same (hKeeps : Keeps Shorter inner) (hInner : Same inner) :
    Same (equalityOver inner) :=
  chain_same rfl (relationalOver_keeps shorter_paidPassage hKeeps)
    (relationalOver_same hKeeps hInner)

theorem assignmentOver_same (hKeeps : Keeps Shorter inner) (hInner : Same inner) :
    Same (assignmentOver inner) := by
  refine same_bind (equalityOver_same hKeeps hInner) fun left => ?_
  refine same_peek? rfl ?_ (same_pure left)
  intro kind
  split
  · exact (same_pure left).relax
  · refine same_then same_advance ?_
    refine same_then (same_spend _) ?_
    refine same_bind hInner fun right => ?_
    split
    · exact same_throw _
    · exact same_pure _

theorem expressionWithin_same (n : Nat) :
    Keeps Shorter (expressionWithin n) ∧ Same (expressionWithin n) := by
  have hP := shorter_paidPassage.toPassage
  induction n with
  | zero =>
    exact ⟨keeps_bind hP (keeps_here hP) fun _ => keeps_throw hP _,
      same_bind same_here fun _ => same_throw _⟩
  | succ n ih =>
    exact ⟨assignmentOver_keeps shorter_paidPassage ih.1, assignmentOver_same ih.1 ih.2⟩

theorem expression_same : Same expression :=
  same_budget fun n => (expressionWithin_same (n + 1)).2

theorem Entry.parser_same (entry : Entry) : Same entry.parser := by
  have hKeeps := expression_keeps shorter_paidPassage
  have hInner := expression_same
  cases entry with
  | expression => exact hInner
  | assignment => exact assignmentOver_same hKeeps hInner
  | equality => exact equalityOver_same hKeeps hInner
  | relational => exact relationalOver_same hKeeps hInner
  | additive => exact additiveOver_same hKeeps hInner
  | multiplicative => exact multiplicativeOver_same hKeeps hInner
  | unary => exact unaryOver_same hKeeps hInner
  | suffixed => exact suffixedOver_same hKeeps hInner
  | primary => exact primaryOver_same hInner

end

/-! ## Statements -/

section

variable {inner : Parser Stmt}

theorem blockOver_same (hProgress : Progresses inner) (hInner : Same inner) :
    Same (blockOver inner) := by
  refine same_bind same_here fun start => ?_
  refine same_bind (same_refunding ?_) fun stmts => same_spanned start _
  refine same_then (same_spend _) ?_
  refine same_then (same_expectSymbol _ _) ?_
  refine same_bind (same_manyWhile ?_ ?_ (fun s a t _ => hProgress s a t) hInner.relax)
    fun stmts => ?_
  · intro s t hLevel
    rw [hLevel.isAt, hLevel.isAt]
  · intro s hMore
    exact Stream.shown_ne_nil_of_not_isAt (by simpa using (Bool.and_eq_true_iff.mp hMore).2)
  · exact same_then (same_expectSymbol _ _) (same_pure stmts)

theorem bodyOver_same (hProgress : Progresses inner) (hInner : Same inner) :
    Same (bodyOver inner) := by
  refine same_isAt (by simp) (blockOver_same hProgress hInner).relax ?_
  refine same_then (same_spend _) ?_
  exact same_bind hInner fun _ => same_pure _

theorem condition_same (construct : String) : Same (condition construct) := by
  refine same_then (same_expectSymbol _ _) ?_
  refine same_bind (same_refunding expression_same) fun e => ?_
  exact same_then (same_expectSymbol _ _) (same_pure e)

theorem elseOver_same (hProgress : Progresses inner) (hInner : Same inner) :
    Same (elseOver inner) := by
  refine same_bind (same_accept (by simp)) fun found => ?_
  split
  · refine same_isAt (by simp) ?_ ?_
    · exact Same.relax (same_then (same_spend _) (same_bind hInner fun _ => same_pure _))
    · exact same_bind (bodyOver_same hProgress hInner) fun _ => same_pure _
  · exact same_pure _

theorem branchOver_same (hProgress : Progresses inner) (hInner : Same inner) :
    Same (branchOver inner) := by
  refine same_bind (condition_same "if") fun e => ?_
  refine same_bind (bodyOver_same hProgress hInner) fun thenBlock => ?_
  exact same_bind (elseOver_same hProgress hInner) fun _ => same_pure _

theorem loopOver_same (hProgress : Progresses inner) (hInner : Same inner) :
    Same (loopOver inner) := by
  refine same_bind (condition_same "while") fun e => ?_
  exact same_bind (bodyOver_same hProgress hInner) fun _ => same_pure _

theorem leave_same : Same leave := by
  have hClose (value : Option Expr) : Same (do
      expectSymbol .semicolon "return statement"
      return Stmt.leave value) :=
    same_then (same_expectSymbol _ _) (same_pure _)
  refine same_isAt (by simp) (hClose none).relax ?_
  exact same_bind (same_map expression_same) hClose

theorem declaration_same : Same declaration := by
  refine same_bind typeSpecifier_same fun base => ?_
  refine same_bind (declarator_same base _) fun declared => ?_
  have hClose (init : Option Expr) : Same (do
      expectSymbol .semicolon "variable declaration"
      return Stmt.declare declared.1 declared.2 init) :=
    same_then (same_expectSymbol _ _) (same_pure _)
  refine same_bind (same_accept (by simp)) fun initialised => ?_
  split
  · exact same_bind (same_map expression_same) hClose
  · exact hClose none

theorem evaluation_same : Same evaluation := by
  refine same_bind expression_same fun e => ?_
  exact same_then (same_expectSymbol _ _) (same_pure _)

/-- Neither the end of the file nor no token begins a statement of another form. -/
theorem formOver_same (hProgress : Progresses inner) (hInner : Same inner) :
    Same (formOver inner) := by
  refine same_peek? rfl ?_ evaluation_same
  intro kind
  split
  · exact Same.relax (same_bind (blockOver_same hProgress hInner) fun _ => same_pure _)
  · exact same_then same_advance (branchOver_same hProgress hInner)
  · exact same_then same_advance (loopOver_same hProgress hInner)
  · exact same_then same_advance leave_same
  · split
    · exact declaration_same.relax
    · exact evaluation_same.relax
  · exact evaluation_same.relax

theorem statementOver_same (hProgress : Progresses inner) (hInner : Same inner) :
    Same (statementOver inner) := by
  refine same_bind same_here fun start => ?_
  refine same_bind (same_refunding (formOver_same hProgress hInner)) fun form => ?_
  exact same_spanned start form

end

theorem statementWithin_same (n : Nat) : Same (statementWithin n) := by
  induction n with
  | zero => exact same_bind same_here fun _ => same_throw _
  | succ n ih => exact statementOver_same (Fork.statementWithin_progresses n) ih

theorem statement_same : Same statement :=
  same_budget fun n => statementWithin_same (n + 1)

theorem block_same : Same block :=
  blockOver_same Fork.statement_progresses statement_same

/-! ## Programs -/

theorem param_same : Same param := by
  refine same_bind same_here fun start => ?_
  refine same_bind typeSpecifier_same fun base => ?_
  refine same_bind (declarator_same base _) fun declared => ?_
  exact same_spanned start _

/-- What stands behind `void` is asked for where nothing may be left. -/
theorem isVoidAlone_of_level {s t : Stream} (h : s.Level t) : isVoidAlone s = isVoidAlone t := by
  have hParen (u : Stream) :
      (u.peek? == some (.symbol .rightParen)) = u.isAt (.symbol .rightParen) := by
    rw [Stream.isAt]
    cases u.peek? <;> rfl
  rw [isVoidAlone, isVoidAlone, h.isAt]
  cases hVoid : t.isAt (.keyword .kwVoid) with
  | false => rfl
  | true =>
    rw [← h.isAt] at hVoid
    rw [hParen, hParen, (h.tail (Stream.shown_ne_nil_of_isAt (by simp) hVoid)).isAt]

theorem params_same : Same params := by
  have hKeeps := param_keeps shorter_paidPassage.toPassage
  refine same_isAt (by simp) (same_pure []).relax ?_
  refine same_choice isVoidAlone (fun s t => isVoidAlone_of_level) ?_
    (same_then same_advance (same_pure [])) (same_commaSeparated hKeeps param_same)
  intro s hVoid
  exact Stream.shown_ne_nil_of_isAt (by simp) (Bool.and_eq_true_iff.mp hVoid).1

theorem functionHead_same : Same functionHead := by
  refine same_bind typeSpecifier_same fun base => ?_
  refine same_bind (pointers_same base) fun returns => ?_
  refine same_bind (same_identifier _) fun name => ?_
  refine same_then (same_expectSymbol _ _) ?_
  refine same_bind params_same fun params => ?_
  exact same_then (same_expectSymbol _ _) (same_pure _)

theorem function_same : Same function := by
  rw [function_eq]
  refine same_bind same_here fun start => ?_
  refine same_bind functionHead_same fun head => ?_
  refine same_bind block_same fun body => ?_
  exact same_spanned start _

theorem program_same : Same program := by
  refine same_bind same_here fun start => ?_
  refine same_bind (same_manyWhile ?_ ?_ (fun s a t _ => function_progresses s a t)
    function_same.relax) fun functions => ?_
  · intro s t hLevel
    rw [hLevel.isAt]
  · exact fun s hMore => Stream.shown_ne_nil_of_not_isAt (by simpa using hMore)
  · exact same_bind same_here fun _ => same_pure _

/-! ## Calls -/

/-- What a call gives if it succeeds. -/
def Call.Result : Call → Type
  | program => Program
  | function => Function
  | block => Block
  | statement => Stmt
  | expression _ => Expr
  | typeSpecifier => Ty
  | declarator _ _ => String × Ty

def Call.parser : (c : Call) → Parser c.Result
  | program => Parser.program
  | function => Parser.function
  | block => Parser.block
  | statement => Parser.statement
  | expression entry => entry.parser
  | typeSpecifier => Parser.typeSpecifier
  | declarator base context => Parser.declarator base context

/-- What a call is answered: a result or an error. -/
def Call.answer (c : Call) (s : Stream) : Except GrammarError c.Result :=
  match c.parser s with
  | .ok a _ => .ok a
  | .error e _ => .error e

/-- What some calls are answered, one after the other and whether they succeed or fail. -/
def answers : List Call → Stream → List (Σ c : Call, Except GrammarError c.Result)
  | [], _ => []
  | c :: calls, s => ⟨c, c.answer s⟩ :: answers calls (c.after s)

theorem Call.after_eq (c : Call) (s : Stream) : c.after s = streamAfter c.parser s := by
  cases c <;> rfl

theorem Call.parser_same (c : Call) : Same c.parser := by
  cases c with
  | program => exact program_same
  | function => exact function_same
  | block => exact block_same
  | statement => exact statement_same
  | expression entry => exact entry.parser_same
  | typeSpecifier => exact typeSpecifier_same
  | declarator base context => exact declarator_same base context

/-- Whether it succeeds or fails, a call leaves streams behind that show the same. -/
theorem Call.level (c : Call) {s t : Stream} (h : s.Level t) :
    c.answer s = c.answer t ∧ (c.after s).Level (c.after t) := by
  have hEnd := c.parser_same s t ⟨h, nofun⟩
  rw [c.after_eq, c.after_eq, streamAfter, streamAfter, Call.answer, Call.answer]
  generalize c.parser s = x at hEnd
  generalize c.parser t = y at hEnd
  cases hEnd with
  | ok a hNear => exact ⟨rfl, hNear.toLevel⟩
  | error e hLevel => exact ⟨rfl, hLevel⟩

theorem answers_eq_of_level (calls : List Call) {s t : Stream} (h : s.Level t) :
    answers calls s = answers calls t := by
  induction calls generalizing s t with
  | nil => rfl
  | cons c calls ih =>
    obtain ⟨hAnswer, hAfter⟩ := c.level h
    rw [answers, answers, hAnswer, ih hAfter]

theorem Stream.shown_append {s : Stream} {front rest : List Token} (mark : Token)
    (hTokens : s.tokens = front ++ mark :: rest) (hFront : ∀ t ∈ front, t.isShown)
    (hMark : mark.kind = .endOfFile) : s.shown = front ∧ s.final = mark.span.start := by
  have hHidden : mark.isShown = false := by simp [Token.isShown, hMark]
  rw [Stream.shown, Stream.final, hTokens, List.takeWhile_append_of_pos hFront,
    List.dropWhile_append_of_pos hFront]
  simp [hHidden]

/-- A fresh stream shows the same if the tokens are given up to the end of the file. -/
theorem level_ofTokens (tokens : List Token) :
    (Stream.ofTokens (upToEnd tokens)).Level (Stream.ofTokens tokens) := by
  have hFront : ∀ t ∈ tokens.takeWhile Token.isShown, t.isShown :=
    List.all_eq_true.mp List.all_takeWhile
  have hSplit := (List.takeWhile_append_dropWhile (p := Token.isShown) (l := tokens)).symm
  unfold upToEnd
  cases hRest : tokens.dropWhile Token.isShown with
  | nil =>
    rw [hRest, List.append_nil] at hSplit
    rw [← hSplit] at hFront
    obtain ⟨hShown, hFinal⟩ := Stream.shown_append (s := .ofTokens (tokens ++ _))
      ⟨.endOfFile, _⟩ rfl hFront rfl
    refine ⟨?_, ?_, ?_, rfl⟩
    · rw [hShown]
      exact hSplit
    · rw [hFinal, Stream.final]
      simp only [Stream.ofTokens, hRest, Span.point]
    · cases tokens <;> rfl
  | cons mark rest =>
    rw [hRest] at hSplit
    have hMark : mark.kind = .endOfFile := by
      have hHead := List.head?_dropWhile_not Token.isShown tokens
      simpa [hRest, Token.isShown] using hHead
    obtain ⟨hShown, hFinal⟩ :=
      Stream.shown_append (s := .ofTokens (_ ++ [mark])) mark rfl hFront hMark
    obtain ⟨hShown', hFinal'⟩ :=
      Stream.shown_append (s := .ofTokens tokens) mark hSplit hFront hMark
    refine ⟨hShown.trans hShown'.symm, hFinal.trans hFinal'.symm, ?_, rfl⟩
    rw [Stream.ofTokens, Stream.ofTokens]
    conv_rhs => rw [hSplit]
    cases tokens.takeWhile Token.isShown <;> rfl

/-- Calls are answered as if the tokens went up to the end of the file and no further. -/
theorem answers_upToEnd (tokens : List Token) (calls : List Call) :
    answers calls (.ofTokens (upToEnd tokens)) = answers calls (.ofTokens tokens) :=
  answers_eq_of_level calls (level_ofTokens tokens)

end Parser

end CToGo.Source
