import CToGo.Proofs.Locations.Spans
import CToGo.Proofs.Nesting.Depth

/-!
# The spans of parsed trees

Every parser reads a node from the tokens between the stream that it is given and the stream
that it leaves. A node takes the beginning of its span from its first token or from an operand,
and the end from its last token or from an operand. In either way its span is that of a run of
tokens, and what it holds was read from runs inside.

* `Between s xs t`, `Reads s xs t`: the sites that were read between two streams.
* `Reads.node`, `Reads.join`, ...: nodes around them.
* `expression_reads`, `block_reads`, `function_reads`: the parsers.
* `passed_of_parseTokens`: what a program is read from.
-/

namespace CToGo.Source.Parser

/-! ## What is read between two streams -/

/-- The tokens between two streams, none of which says where the file ends. -/
structure Passed (s : Stream) (ts : List Token) (t : Stream) : Prop where
  tokens : s.tokens = ts ++ t.tokens
  shown : ∀ u ∈ ts, u.kind ≠ .endOfFile
  lastEnd : t.lastEnd = (ts.getLast?.map (·.span.stop)).getD s.lastEnd

/-- The sites were read one behind the other between the streams. -/
def Between (s : Stream) (xs : List Site) (t : Stream) : Prop :=
  ∃ ts, Passed s ts t ∧ Strung ts xs

/-- So they were, and at least one token was read. -/
def Reads (s : Stream) (xs : List Site) (t : Stream) : Prop :=
  ∃ ts, ts ≠ [] ∧ Passed s ts t ∧ Strung ts xs

section

variable {s t u : Stream} {ts us : List Token} {x y z : Site} {xs ys : List Site}

theorem Passed.trans (h : Passed s ts t) (h' : Passed t us u) : Passed s (ts ++ us) u where
  tokens := by rw [h.tokens, h'.tokens, List.append_assoc]
  shown v hv := (List.mem_append.mp hv).elim (h.shown v) (h'.shown v)
  lastEnd := by
    rw [h'.lastEnd, h.lastEnd, List.getLast?_append]
    cases us.getLast? <;> rfl

theorem Passed.delimits (h : Passed s ts t) (hRun : ts ≠ []) :
    Delimits ts ⟨s.location, t.lastEnd⟩ := by
  refine ⟨?_, ?_⟩
  · obtain ⟨first, rest, rfl⟩ := List.exists_cons_of_ne_nil hRun
    rw [Stream.location, h.tokens]
    rfl
  · rw [h.lastEnd, List.getLast?_eq_some_getLast hRun]
    rfl

theorem between_refl (s : Stream) : Between s [] s :=
  ⟨[], ⟨rfl, by simp, rfl⟩, .nil []⟩

theorem Reads.between (h : Reads s xs t) : Between s xs t := by
  obtain ⟨ts, -, hPassed, hStrung⟩ := h
  exact ⟨ts, hPassed, hStrung⟩

theorem Between.trans (h : Between s xs t) (h' : Between t ys u) : Between s (xs ++ ys) u := by
  obtain ⟨ts, hPassed, hStrung⟩ := h
  obtain ⟨us, hPassed', hStrung'⟩ := h'
  exact ⟨ts ++ us, hPassed.trans hPassed', hStrung.append hStrung'⟩

theorem Reads.trans (h : Reads s xs t) (h' : Between t ys u) : Reads s (xs ++ ys) u := by
  obtain ⟨ts, hRun, hPassed, hStrung⟩ := h
  obtain ⟨us, hPassed', hStrung'⟩ := h'
  exact ⟨ts ++ us, List.append_ne_nil_of_left_ne_nil hRun us, hPassed.trans hPassed',
    hStrung.append hStrung'⟩

theorem Between.reads (h : Between s xs t) (h' : Reads t ys u) : Reads s (xs ++ ys) u := by
  obtain ⟨ts, hPassed, hStrung⟩ := h
  obtain ⟨us, hRun, hPassed', hStrung'⟩ := h'
  exact ⟨ts ++ us, List.append_ne_nil_of_right_ne_nil ts hRun, hPassed.trans hPassed',
    hStrung.append hStrung'⟩

/-- A token that does not say where the file ends. -/
theorem reads_tail {k : TokenKind} (hs : s.kinds.head? = some k) (hk : k ≠ .endOfFile) :
    Reads s [] s.tail := by
  rw [← s.peek?_eq_head?, Stream.peek?] at hs
  obtain ⟨u, hu, rfl⟩ := Option.map_eq_some_iff.mp hs
  obtain ⟨rest, hTokens⟩ := List.head?_eq_some_iff.mp hu
  refine ⟨[u], List.cons_ne_nil u [], ⟨?_, ?_, ?_⟩, .nil [u]⟩
  · simp [Stream.tail, hTokens]
  · simp [hk]
  · simp [Stream.tail, hTokens]

/-- A token that is found in a table, where the end of the file is not. -/
theorem reads_of_bind {α : Type} {f : TokenKind → Option α} {a : α} (hEnd : f .endOfFile = none)
    (hs : s.kinds.head?.bind f = some a) : Reads s [] s.tail := by
  obtain ⟨k, hk, hFound⟩ := Option.bind_eq_some_iff.mp hs
  refine reads_tail hk ?_
  rintro rfl
  rw [hEnd] at hFound
  cases hFound

theorem reads_symbol {m : Symbol} (hs : s.kinds.head? = some (.symbol m)) : Reads s [] s.tail :=
  reads_tail hs (by simp)

/-- What is left of the budget makes no difference. -/
theorem Reads.withBudget (h : Reads s xs t) (n : Nat) : Reads s xs { t with budget := n } := by
  obtain ⟨ts, hRun, hPassed, hStrung⟩ := h
  exact ⟨ts, hRun, ⟨hPassed.tokens, hPassed.shown, hPassed.lastEnd⟩, hStrung⟩

theorem between_withBudget (s : Stream) (n : Nat) : Between s [] { s with budget := n } :=
  ⟨[], ⟨rfl, by simp, rfl⟩, .nil []⟩

/-! ## Nodes -/

/-- A node from the first to the last token. -/
theorem Reads.node (h : Reads s y.children t) (hSpan : y.span = ⟨s.location, t.lastEnd⟩) :
    Reads s [y] t := by
  obtain ⟨ts, hRun, hPassed, hStrung⟩ := h
  exact ⟨ts, hRun, hPassed, hStrung.enclose (hSpan ▸ hPassed.delimits hRun)⟩

theorem Reads.wrap (h : Reads s [x] t) (hSpan : y.span = x.span) (hChildren : y.children = [x]) :
    Reads s [y] t := by
  obtain ⟨ts, hRun, hPassed, hStrung⟩ := h
  exact ⟨ts, hRun, hPassed, hStrung.wrap hSpan hChildren⟩

theorem Reads.join (h : Reads s (x :: y :: xs) t) (hSpan : z.span = ⟨x.span.start, y.span.stop⟩)
    (hChildren : z.children.Sublist [x, y]) : Reads s (z :: xs) t := by
  obtain ⟨ts, hRun, hPassed, hStrung⟩ := h
  exact ⟨ts, hRun, hPassed, hStrung.join hSpan hChildren⟩

theorem Reads.lead (h : Reads s [x] t) (hSpan : y.span = ⟨s.location, x.span.stop⟩)
    (hChildren : y.children = [x]) : Reads s [y] t := by
  obtain ⟨ts, hRun, hPassed, hStrung⟩ := h
  exact ⟨ts, hRun, hPassed, hStrung.lead (hPassed.delimits hRun).start hSpan hChildren⟩

theorem Reads.trail (h : Reads s (x :: xs) t) (hSpan : y.span = ⟨x.span.start, t.lastEnd⟩)
    (hChildren : y.children.Sublist (x :: xs)) : Reads s [y] t := by
  obtain ⟨ts, hRun, hPassed, hStrung⟩ := h
  exact ⟨ts, hRun, hPassed, hStrung.trail (hPassed.delimits hRun).stop hSpan hChildren⟩

end

/-! ## Steps -/

section

variable {α β : Type} {s : Stream}

/-- If the parser succeeds, what it gives was read. -/
def ReadsEach (site : α → Site) (p : Parser α) : Prop :=
  ∀ s, Outcome p s (fun a t => Reads s [site a] t) fun _ => True

theorem outcome_spend_between {cost : Nat} {Q : Unit → Stream → Prop}
    (hQ : ∀ t, Between s [] t → t.kinds = s.kinds → Q () t) :
    Outcome (spend cost) s Q fun _ => True :=
  outcome_spend_paid fun _ => hQ _ (between_withBudget s _) rfl

theorem outcome_expectSymbol_reads {m : Symbol} {context : String} {Q : Unit → Stream → Prop}
    (hQ : ∀ t, Reads s [] t → Q () t) : Outcome (expectSymbol m context) s Q fun _ => True :=
  outcome_expectSymbol_tail fun hs => hQ _ (reads_symbol hs)

theorem outcome_accept_reads {k : TokenKind} (hk : k ≠ .endOfFile) {Q : Bool → Stream → Prop}
    (hAt : ∀ t, Reads s [] t → Q true t) (hElse : Q false s) :
    Outcome (accept k) s Q fun _ => True := by
  unfold accept
  rw [outcome_bind, outcome_isAt]
  split
  · next h =>
    rw [outcome_bind]
    exact outcome_advance_tail (hAt _ (reads_tail ((Stream.isAt_iff hk).mp h) hk))
  · exact hElse

theorem identifier_reads (context : String) (s : Stream) :
    Outcome (identifier context) s (fun _ t => Reads s [] t) fun _ => True := by
  unfold identifier
  rw [outcome_bind, outcome_peek?]
  split
  · next hs =>
    rw [outcome_bind]
    exact outcome_advance_tail (reads_tail hs (by simp))
  · exact trivial

theorem outcome_refunding_reads (sites : α → List Site) {p : Parser α}
    (h : Outcome p s (fun a t => Reads s (sites a) t) fun _ => True) :
    Outcome (refunding p) s (fun a t => Reads s (sites a) t) fun _ => True := by
  unfold refunding
  rw [outcome_bind, outcome_get, outcome_bind]
  exact h.mono fun a t hReads => hReads.withBudget _

theorem many_between (site : α → Site) {next? : Stream → Option β} {item : β → Parser α}
    (hItem : ∀ s b, next? s = some b →
      Outcome (item b) s (fun a t => Between s [site a] t) fun _ => True) (s : Stream) :
    Outcome (many next? item) s (fun as t => Between s (as.map site) t) fun _ => True := by
  refine outcome_many_of_cons (T := fun s as t => Between s (as.map site) t) between_refl ?_ hItem
  intro s a t as u hFirst hRest
  exact hFirst.trans hRest

theorem manyWhile_between (site : α → Site) {more : Stream → Bool} {item : Parser α}
    (hItem : ∀ s, more s → Outcome item s (fun a t => Between s [site a] t) fun _ => True)
    (s : Stream) :
    Outcome (manyWhile more item) s (fun as t => Between s (as.map site) t) fun _ => True := by
  refine many_between site ?_ s
  intro s _ hMore
  exact hItem s (by simpa using hMore)

theorem commaSeparated_reads {item : Parser α} {site : α → Site} (hItem : ReadsEach site item)
    (s : Stream) :
    Outcome (commaSeparated item) s (fun as t => Reads s (as.map site) t) fun _ => True := by
  unfold commaSeparated
  rw [outcome_bind]
  refine (hItem s).mono fun first t hFirst => ?_
  rw [outcome_bind]
  refine (manyWhile_between site ?_ t).mono fun rest u hRest => hFirst.trans hRest
  intro u hComma
  have hRead := reads_symbol ((Stream.isAt_iff (by simp)).mp hComma)
  rw [outcome_bind]
  refine outcome_advance_tail ((hItem _).mono fun a v hItem => ?_)
  exact (hRead.trans hItem.between).between

end

/-! ## Declarators -/

theorem typeSpecifier_reads (s : Stream) :
    Outcome typeSpecifier s (fun _ t => Reads s [] t) fun _ => True := by
  unfold typeSpecifier
  rw [outcome_bind, outcome_peek?]
  split
  · next ty hType =>
    rw [outcome_bind]
    exact outcome_advance_tail (reads_of_bind rfl hType)
  · exact trivial

theorem pointers_between (base : Ty) (s : Stream) :
    Outcome (pointers base) s (fun _ t => Between s [] t) fun _ => True := by
  unfold pointers
  rw [outcome_bind]
  refine (outcome_manyWhile_of_trans between_refl ?_ ?_).mono fun _ t h => h
  · intro s t u h h'
    exact h.trans h'
  · intro s hStar
    exact outcome_advance_tail (reads_symbol ((Stream.isAt_iff (by simp)).mp hStar)).between

theorem declarator_reads (base : Ty) (context : String) (s : Stream) :
    Outcome (declarator base context) s (fun _ t => Reads s [] t) fun _ => True := by
  unfold declarator
  rw [outcome_bind]
  refine (pointers_between base s).mono fun ty t hStars => ?_
  rw [outcome_bind]
  refine (identifier_reads context t).mono fun name u hName => ?_
  have hDeclared : Reads s [] u := hStars.reads hName
  rw [outcome_bind]
  refine outcome_accept_reads (by simp) ?_ hDeclared
  intro v hOpen
  rw [if_pos rfl, outcome_bind]
  refine outcome_expectSymbol_reads ?_
  intro w hClose
  exact (hDeclared.trans hOpen.between).trans hClose.between

/-! ## Expressions -/

section

variable {inner : Parser Expr}

theorem primaryOver_reads (hInner : ReadsEach .expr inner) :
    ReadsEach .expr (primaryOver inner) := by
  intro s
  unfold primaryOver
  rw [outcome_bind, outcome_here, outcome_bind, outcome_peek?]
  split
  · next hs =>
    rw [outcome_bind]
    refine outcome_advance_tail ?_
    rw [outcome_bind, outcome_spanFrom, outcome_pure]
    exact Reads.node (reads_tail hs (by simp)) rfl
  · next hs =>
    rw [outcome_bind]
    refine outcome_advance_tail ?_
    rw [outcome_bind, outcome_spanFrom, outcome_pure]
    exact Reads.node (reads_tail hs (by simp)) rfl
  · next hs =>
    -- The parentheses are read, but they belong to no node.
    rw [outcome_bind]
    refine outcome_spend_between ?_
    intro t hSpend ht
    rw [outcome_bind]
    refine outcome_advance_tail ?_
    have hOpen := reads_symbol (ht ▸ hs)
    rw [outcome_bind]
    refine (hInner _).mono fun e u hExpr => ?_
    rw [outcome_bind]
    refine outcome_expectSymbol_reads ?_
    intro v hClose
    exact hSpend.reads ((hOpen.trans hExpr.between).trans hClose.between)
  · exact trivial

/-- A call begins with the name in front of the arguments, which is no node itself. -/
theorem callOver_reads (hInner : ReadsEach .expr inner) {callee : Expr} {s t : Stream}
    (hCallee : Reads s [.expr callee] t) :
    Outcome (callOver inner callee) t (fun e u => Reads s [.expr e] u) fun _ => True := by
  unfold callOver
  dsimp only
  split
  · exact trivial
  · next name _ =>
    rw [outcome_bind]
    refine outcome_spend_between ?_
    intro u hSpend _
    rw [outcome_bind]
    refine outcome_expectSymbol_reads ?_
    intro v hOpen
    have hClose (args : List Expr) (w : Stream) (hArgs : Between v (args.map Site.expr) w) :
        Outcome (do
            expectSymbol .rightParen "function call"
            return Expr.call name args (← spanFrom callee.span.start)) w
          (fun e u => Reads s [.expr e] u) fun _ => True := by
      rw [outcome_bind]
      refine outcome_expectSymbol_reads ?_
      intro r hClose
      rw [outcome_bind, outcome_spanFrom, outcome_pure]
      have hAll := hCallee.trans (hSpend.reads (hOpen.trans (hArgs.trans hClose.between))).between
      rw [List.nil_append, List.nil_append, List.append_nil, List.singleton_append] at hAll
      refine hAll.trail rfl ?_
      have hChildren : (Site.expr (.call name args ⟨callee.span.start, r.lastEnd⟩)).children =
          args.map Site.expr := List.map_map
      rw [hChildren]
      exact List.sublist_cons_self _ _
    rw [outcome_bind, outcome_isAt]
    split
    · exact hClose [] v (between_refl v)
    · rw [outcome_bind]
      exact (commaSeparated_reads hInner v).mono fun args w hArgs => hClose args w hArgs.between

theorem stepOver_reads {e : Expr} {s t : Stream} (h : Reads s [.expr e] t) :
    Outcome (stepOver e) t (fun e' u => Reads s [.expr e'] u) fun _ => True := by
  unfold stepOver
  rw [outcome_bind, outcome_peek?]
  split
  · exact h
  · next op hNext =>
    have hRead : Reads t [] t.tail := reads_of_bind rfl hNext
    split
    · exact trivial
    · rw [outcome_bind]
      refine outcome_advance_tail ?_
      rw [outcome_bind, outcome_spanFrom, outcome_pure]
      exact (h.trans hRead.between).trail rfl (List.Sublist.refl _)

theorem suffixedOver_reads (hInner : ReadsEach .expr inner) :
    ReadsEach .expr (suffixedOver inner) := by
  intro s
  rw [suffixedOver_eq, outcome_bind]
  refine (primaryOver_reads hInner s).mono fun head t hHead => ?_
  rw [outcome_bind, outcome_isAt]
  split
  · rw [outcome_bind]
    exact (callOver_reads hInner hHead).mono fun e u hCall => stepOver_reads hCall
  · exact stepOver_reads hHead

theorem unaryWithin_reads (hInner : ReadsEach .expr inner) (n : Nat) :
    ReadsEach .expr (unaryWithin inner n) := by
  induction n with
  | zero => exact fun s => trivial
  | succ n ih =>
    intro s
    rw [unaryWithin, outcome_bind, outcome_here, outcome_bind, outcome_peek?]
    split
    · exact suffixedOver_reads hInner s
    · next op hNext =>
      rw [outcome_bind]
      refine outcome_spend_between ?_
      intro t hSpend ht
      have hRead : Reads t [] t.tail := reads_of_bind rfl (ht ▸ hNext)
      rw [outcome_bind]
      refine outcome_advance_tail ?_
      rw [outcome_bind]
      refine (ih _).mono fun operand u hOperand => ?_
      split
      · exact trivial
      · exact (hSpend.reads (hRead.trans hOperand.between)).lead rfl rfl

/-- Operands are joined from the first on, each with what was joined before it. -/
theorem Reads.foldl_binary {s t : Stream} (operands : List (BinaryOp × Expr)) {first : Expr}
    (h : Reads s (.expr first :: operands.map (.expr ·.2)) t) :
    Reads s [.expr (operands.foldl (fun left (op, right) => binary left op right) first)] t := by
  induction operands generalizing first with
  | nil => exact h
  | cons operand operands ih => exact ih (h.join rfl (List.Sublist.refl _))

theorem chain_reads {op? : TokenKind → Option BinaryOp} (hEnd : op? .endOfFile = none)
    {operand : Parser Expr} (hOperand : ReadsEach .expr operand) :
    ReadsEach .expr (chain op? operand) := by
  intro s
  unfold chain
  rw [outcome_bind]
  refine (hOperand s).mono fun first t hFirst => ?_
  rw [outcome_bind]
  refine (many_between (fun item => .expr item.2) ?_ t).mono fun rest u hRest => ?_
  · intro u op hNext
    rw [u.peek?_eq_head?] at hNext
    rw [outcome_bind]
    refine outcome_spend_between ?_
    intro v hSpend hv
    have hRead : Reads v [] v.tail := reads_of_bind hEnd (hv ▸ hNext)
    rw [outcome_bind]
    refine outcome_advance_tail ?_
    rw [outcome_bind]
    refine (hOperand _).mono fun right w hRight => ?_
    exact hSpend.trans (hRead.trans hRight.between).between
  · exact Reads.foldl_binary rest (hFirst.trans hRest)

theorem equalityOver_reads (hInner : ReadsEach .expr inner) :
    ReadsEach .expr (equalityOver inner) := by
  have hUnary : ReadsEach .expr (unaryOver inner) :=
    fun s => unaryWithin_reads hInner (s.budget + 1) s
  exact chain_reads rfl (chain_reads rfl (chain_reads rfl (chain_reads rfl hUnary)))

/-- An assignment begins with its target, which is no node itself. -/
theorem assignmentOver_reads (hInner : ReadsEach .expr inner) :
    ReadsEach .expr (assignmentOver inner) := by
  intro s
  unfold assignmentOver
  rw [outcome_bind]
  refine (equalityOver_reads hInner s).mono fun left t hLeft => ?_
  rw [outcome_bind, outcome_peek?]
  split
  · exact hLeft
  · next op hNext =>
    have hRead : Reads t [] t.tail := reads_of_bind rfl hNext
    rw [outcome_bind]
    refine outcome_advance_tail ?_
    rw [outcome_bind]
    refine outcome_spend_between ?_
    intro u hSpend _
    rw [outcome_bind]
    refine (hInner u).mono fun right v hRight => ?_
    split
    · exact trivial
    · have hBoth := hLeft.trans (hRead.between.trans (hSpend.reads hRight).between)
      exact hBoth.join rfl (List.sublist_cons_self _ _)

theorem expressionWithin_reads (n : Nat) : ReadsEach .expr (expressionWithin n) := by
  induction n with
  | zero => exact fun s => trivial
  | succ n ih => exact assignmentOver_reads ih

theorem expression_reads : ReadsEach .expr expression :=
  fun s => expressionWithin_reads (s.budget + 1) s

end

/-! ## Statements -/

/-- A statement that still lacks its span, with the given sites right below it. -/
structure Holds (form : Span → Stmt) (xs : List Site) : Prop where
  span : ∀ span, (form span).span = span
  children : ∀ span, (Site.stmt (form span)).children = xs

/-- If the parser succeeds, what the statement holds was read behind `s`. -/
def ReadsForm (s : Stream) (p : Parser (Span → Stmt)) (t : Stream) : Prop :=
  Outcome p t (fun form u => ∃ xs, Holds form xs ∧ Reads s xs u) fun _ => True

section

variable {inner : Parser Stmt} {s t : Stream}

theorem blockOver_reads (hInner : ReadsEach .stmt inner) :
    ReadsEach .block (blockOver inner) := by
  intro s
  unfold blockOver
  rw [outcome_bind, outcome_here, outcome_bind]
  refine (outcome_refunding_reads (List.map Site.stmt) ?_).mono fun stmts t hRead => ?_
  · rw [outcome_bind]
    refine outcome_spend_between ?_
    intro t hSpend _
    rw [outcome_bind]
    refine outcome_expectSymbol_reads ?_
    intro u hOpen
    rw [outcome_bind]
    refine (manyWhile_between .stmt ?_ u).mono fun stmts v hStmts => ?_
    · exact fun v _ => (hInner v).mono fun _ _ h => h.between
    · rw [outcome_bind]
      refine outcome_expectSymbol_reads ?_
      intro w hClose
      have hAll := hSpend.reads (hOpen.trans (hStmts.trans hClose.between))
      rwa [List.append_nil] at hAll
  · rw [outcome_bind, outcome_spanFrom, outcome_pure]
    refine Reads.node ?_ rfl
    have hChildren (span : Span) : (Site.block (.mk stmts span)).children =
        stmts.map Site.stmt := List.map_map
    rwa [hChildren]

/-- A single statement has the span of the block that stands for it. -/
theorem bodyOver_reads (hInner : ReadsEach .stmt inner) : ReadsEach .block (bodyOver inner) := by
  intro s
  unfold bodyOver
  rw [outcome_bind, outcome_isAt]
  split
  · exact blockOver_reads hInner s
  · rw [outcome_bind]
    refine outcome_spend_between ?_
    intro t hSpend _
    rw [outcome_bind]
    refine (hInner t).mono fun body u hBody => ?_
    exact (hSpend.reads hBody).wrap rfl rfl

theorem condition_reads (construct : String) : ReadsEach .expr (condition construct) := by
  intro s
  unfold condition
  rw [outcome_bind]
  refine outcome_expectSymbol_reads ?_
  intro t hOpen
  rw [outcome_bind]
  refine (outcome_refunding_reads (fun e => [.expr e]) (expression_reads t)).mono
    fun e u hExpr => ?_
  rw [outcome_bind]
  refine outcome_expectSymbol_reads ?_
  intro v hClose
  exact (hOpen.trans hExpr.between).trans hClose.between

theorem elseOver_between (hInner : ReadsEach .stmt inner) (s : Stream) :
    Outcome (elseOver inner) s
      (fun alternative t => Between s ((Node.ofElse alternative).map .node) t) fun _ => True := by
  unfold elseOver
  rw [outcome_bind]
  refine outcome_accept_reads (by simp) ?_ (between_refl s)
  intro t hElse
  rw [if_pos rfl, outcome_bind, outcome_isAt]
  split
  · rw [outcome_bind]
    refine outcome_spend_between ?_
    intro u hSpend _
    rw [outcome_bind]
    refine (hInner u).mono fun next v hNext => ?_
    exact (hElse.trans (hSpend.reads hNext).between).between
  · rw [outcome_bind]
    exact (bodyOver_reads hInner t).mono fun body u hBody => (hElse.trans hBody.between).between

theorem branchOver_reads (hInner : ReadsEach .stmt inner) (hWord : Reads s [] t) :
    ReadsForm s (branchOver inner) t := by
  unfold ReadsForm branchOver
  rw [outcome_bind]
  refine (condition_reads "if" t).mono fun e u hCondition => ?_
  rw [outcome_bind]
  refine (bodyOver_reads hInner u).mono fun thenBlock v hThen => ?_
  rw [outcome_bind]
  refine (elseOver_between hInner v).mono fun alternative w hElse => ?_
  refine ⟨_, ⟨fun span => rfl, fun span => rfl⟩, ?_⟩
  exact hWord.trans (hCondition.between.trans (hThen.between.trans hElse))

theorem loopOver_reads (hInner : ReadsEach .stmt inner) (hWord : Reads s [] t) :
    ReadsForm s (loopOver inner) t := by
  unfold ReadsForm loopOver
  rw [outcome_bind]
  refine (condition_reads "while" t).mono fun e u hCondition => ?_
  rw [outcome_bind]
  refine (bodyOver_reads hInner u).mono fun body v hBody => ?_
  refine ⟨_, ⟨fun span => rfl, fun span => rfl⟩, ?_⟩
  exact hWord.trans (hCondition.between.trans hBody.between)

/-- A form that ends with a semicolon. -/
theorem readsForm_semicolon {form : Span → Stmt} {xs : List Site} {context : String}
    (hForm : Holds form xs) (h : Reads s xs t) :
    ReadsForm s (do expectSymbol .semicolon context; return form) t := by
  unfold ReadsForm
  rw [outcome_bind]
  refine outcome_expectSymbol_reads ?_
  intro u hEnd
  have hAll := h.trans hEnd.between
  rw [List.append_nil] at hAll
  exact ⟨xs, hForm, hAll⟩

theorem leave_reads (hWord : Reads s [] t) : ReadsForm s leave t := by
  unfold ReadsForm leave
  rw [outcome_bind, outcome_isAt]
  split
  · exact readsForm_semicolon ⟨fun _ => rfl, fun _ => rfl⟩ hWord
  · rw [outcome_bind, outcome_map]
    refine (expression_reads t).mono fun e u hExpr => ?_
    exact readsForm_semicolon ⟨fun _ => rfl, fun _ => rfl⟩ (hWord.trans hExpr.between)

theorem declaration_reads (s : Stream) : ReadsForm s declaration s := by
  unfold ReadsForm declaration
  rw [outcome_bind]
  refine (typeSpecifier_reads s).mono fun base t hType => ?_
  rw [outcome_bind]
  refine (declarator_reads base _ t).mono fun declared u hName => ?_
  have hDeclared := hType.trans hName.between
  rw [outcome_bind]
  refine outcome_accept_reads (by simp) ?_ ?_
  · intro v hEqual
    rw [if_pos rfl, outcome_bind, outcome_map]
    refine (expression_reads v).mono fun e w hExpr => ?_
    exact readsForm_semicolon ⟨fun _ => rfl, fun _ => rfl⟩
      ((hDeclared.trans hEqual.between).trans hExpr.between)
  · exact readsForm_semicolon ⟨fun _ => rfl, fun _ => rfl⟩ hDeclared

theorem evaluation_reads (s : Stream) : ReadsForm s evaluation s := by
  unfold ReadsForm evaluation
  rw [outcome_bind]
  refine (expression_reads s).mono fun e t hExpr => ?_
  exact readsForm_semicolon ⟨fun _ => rfl, fun _ => rfl⟩ hExpr

theorem formOver_reads (hInner : ReadsEach .stmt inner) (s : Stream) :
    ReadsForm s (formOver inner) s := by
  unfold ReadsForm formOver
  rw [outcome_bind, outcome_peek?]
  split
  · rw [outcome_bind]
    refine (blockOver_reads hInner s).mono fun body t hBody => ?_
    exact ⟨_, ⟨fun _ => rfl, fun _ => rfl⟩, hBody⟩
  · next hs =>
    rw [outcome_bind]
    exact outcome_advance_tail (branchOver_reads hInner (reads_tail hs (by simp)))
  · next hs =>
    rw [outcome_bind]
    exact outcome_advance_tail (loopOver_reads hInner (reads_tail hs (by simp)))
  · next hs =>
    rw [outcome_bind]
    exact outcome_advance_tail (leave_reads (reads_tail hs (by simp)))
  · split
    · exact declaration_reads s
    · exact evaluation_reads s
  · exact evaluation_reads s

theorem statementOver_reads (hInner : ReadsEach .stmt inner) :
    ReadsEach .stmt (statementOver inner) := by
  intro s
  unfold statementOver
  rw [outcome_bind, outcome_here, outcome_bind]
  have hForm := formOver_reads hInner s
  unfold refunding
  rw [outcome_bind, outcome_get, outcome_bind]
  refine hForm.mono fun form t hRead => ?_
  obtain ⟨xs, hHolds, hRead⟩ := hRead
  rw [outcome_bind]
  refine Reads.node ?_ (hHolds.span _)
  rw [hHolds.children]
  exact hRead.withBudget _

end

theorem statementWithin_reads (n : Nat) : ReadsEach .stmt (statementWithin n) := by
  induction n with
  | zero => exact fun s => trivial
  | succ n ih => exact statementOver_reads ih

theorem block_reads : ReadsEach .block block :=
  blockOver_reads fun s => statementWithin_reads (s.budget + 1) s

/-! ## Programs -/

theorem param_reads : ReadsEach .param param := by
  intro s
  unfold param
  rw [outcome_bind, outcome_here, outcome_bind]
  refine (typeSpecifier_reads s).mono fun base t hType => ?_
  rw [outcome_bind]
  refine (declarator_reads base _ t).mono fun declared u hName => ?_
  rw [outcome_bind, outcome_spanFrom, outcome_pure]
  exact Reads.node (hType.trans hName.between) rfl

theorem params_between (s : Stream) :
    Outcome params s (fun ps t => Between s (ps.map .param) t) fun _ => True := by
  unfold params
  rw [outcome_bind, outcome_isAt]
  split
  · exact between_refl s
  · rw [outcome_bind, outcome_get]
    split
    · next hVoid =>
      have hAt := (Bool.and_eq_true_iff.mp hVoid).1
      rw [outcome_bind]
      exact outcome_advance_tail
        (reads_tail ((Stream.isAt_iff (by simp)).mp hAt) (by simp)).between
    · exact (commaSeparated_reads param_reads s).mono fun ps t h => h.between

theorem functionHead_reads (s : Stream) :
    Outcome functionHead s (fun head t => Reads s (head.2.1.map .param) t) fun _ => True := by
  unfold functionHead
  rw [outcome_bind]
  refine (typeSpecifier_reads s).mono fun base t hType => ?_
  rw [outcome_bind]
  refine (pointers_between base t).mono fun returns u hStars => ?_
  rw [outcome_bind]
  refine (identifier_reads _ u).mono fun name v hName => ?_
  rw [outcome_bind]
  refine outcome_expectSymbol_reads ?_
  intro w hOpen
  rw [outcome_bind]
  refine (params_between w).mono fun ps r hParams => ?_
  rw [outcome_bind]
  refine outcome_expectSymbol_reads ?_
  intro q hClose
  have hAll := hType.trans (hStars.trans (hName.between.trans
    (hOpen.between.trans (hParams.trans hClose.between))))
  rwa [List.append_nil] at hAll

theorem function_reads : ReadsEach .function function := by
  intro s
  rw [function_eq, outcome_bind, outcome_here, outcome_bind]
  refine (functionHead_reads s).mono fun head t hHead => ?_
  rw [outcome_bind]
  refine (block_reads t).mono fun body u hBody => ?_
  rw [outcome_bind, outcome_spanFrom, outcome_pure]
  exact Reads.node (hHead.trans hBody.between) rfl

/-- A program is read from the first token up to the one that it stops at. -/
theorem program_between (s : Stream) :
    Outcome program s (fun p t => Between s (p.functions.map .function) t ∧
      p.span = ⟨s.location, t.location⟩) fun _ => True := by
  unfold program
  rw [outcome_bind, outcome_here, outcome_bind]
  refine (manyWhile_between .function ?_ s).mono fun functions t hRead => ?_
  · exact fun u _ => (function_reads u).mono fun _ _ h => h.between
  · rw [outcome_bind, outcome_here, outcome_pure]
    exact ⟨hRead, rfl⟩

theorem passed_of_parseTokens {tokens : List Token} {p : Program}
    (h : parseTokens tokens = .ok p) :
    ∃ ts t, Passed (.ofTokens tokens) ts t ∧ Strung ts (p.functions.map .function) ∧
      p.span = ⟨(Stream.ofTokens tokens).location, t.location⟩ := by
  have hRead := program_between (.ofTokens tokens)
  unfold Outcome at hRead
  rw [parseTokens] at h
  cases hRun : program (.ofTokens tokens) with
  | error e t => simp [hRun] at h
  | ok q t =>
    rw [hRun] at h hRead
    cases h
    obtain ⟨⟨ts, hPassed, hStrung⟩, hSpan⟩ := hRead
    exact ⟨ts, t, hPassed, hStrung, hSpan⟩

end CToGo.Source.Parser
