import CToGo.Proofs.Grammar.Vocabulary
import CToGo.Proofs.Locations.Nested
import CToGo.Proofs.Nesting.Addresses

/-!
# Walks in the order of the text

The statements that a walk through a body visits begin with tokens of the text, each with one that
stands behind those of the statements before it. A statement that has others nested in it begins
with a word or a brace of its own, so it begins in front of all of them. A body without braces has
the span of its only statement, but it is no statement itself.

* `Begins s xs t`, `Opens s xs t`: statements that begin among the tokens between two streams, or
  behind the first of these tokens.
* `statement_begins`, `block_opens`, `program_begins`: the parsers.
* `walk_in_order`: **a walk visits every statement of a body once, from the first to the last.**
-/

namespace CToGo.Source

namespace Parser

/-! ## Where statements begin -/

/-- The statements begin with some of the tokens between the streams, in the same order. -/
def Begins (s : Stream) (xs : List Stmt) (t : Stream) : Prop :=
  ∃ ts, Passed s ts t ∧ (xs.map (·.span.start)).Sublist (ts.map (·.span.start))

/-- The same, but none of the statements begins with the first of these tokens. -/
def Opens (s : Stream) (xs : List Stmt) (t : Stream) : Prop :=
  ∃ first ts, Passed s (first :: ts) t ∧ (xs.map (·.span.start)).Sublist (ts.map (·.span.start))

section

variable {s t u : Stream} {xs ys : List Stmt} {sites : List Site}

theorem Between.begins (h : Between s sites t) : Begins s [] t := by
  obtain ⟨ts, hPassed, -⟩ := h
  exact ⟨ts, hPassed, List.nil_sublist _⟩

theorem Reads.opens (h : Reads s sites t) : Opens s [] t := by
  obtain ⟨ts, hRun, hPassed, -⟩ := h
  obtain ⟨first, rest, rfl⟩ := List.exists_cons_of_ne_nil hRun
  exact ⟨first, rest, hPassed, List.nil_sublist _⟩

theorem Opens.begins (h : Opens s xs t) : Begins s xs t := by
  obtain ⟨first, ts, hPassed, hSub⟩ := h
  exact ⟨first :: ts, hPassed, hSub.cons _⟩

theorem Begins.trans (h : Begins s xs t) (h' : Begins t ys u) : Begins s (xs ++ ys) u := by
  obtain ⟨ts, hPassed, hSub⟩ := h
  obtain ⟨us, hPassed', hSub'⟩ := h'
  refine ⟨ts ++ us, hPassed.trans hPassed', ?_⟩
  rw [List.map_append, List.map_append]
  exact hSub.append hSub'

theorem Opens.trans (h : Opens s xs t) (h' : Begins t ys u) : Opens s (xs ++ ys) u := by
  obtain ⟨first, ts, hPassed, hSub⟩ := h
  obtain ⟨us, hPassed', hSub'⟩ := h'
  refine ⟨first, ts ++ us, hPassed.trans hPassed', ?_⟩
  rw [List.map_append, List.map_append]
  exact hSub.append hSub'

/-- The statement around the others begins with the first token. -/
theorem Opens.around (h : Opens s xs t) {x : Stmt} (hx : x.span.start = s.location) :
    Begins s (x :: xs) t := by
  obtain ⟨first, ts, hPassed, hSub⟩ := h
  refine ⟨first :: ts, hPassed, ?_⟩
  have hFirst : x.span.start = first.span.start := by
    rw [hx, Stream.location, hPassed.tokens]
    rfl
  rw [List.map_cons, List.map_cons, hFirst]
  exact hSub.cons_cons _

/-- What is left of the budget makes no difference. -/
theorem Opens.withBudget (h : Opens s xs t) (n : Nat) : Opens s xs { t with budget := n } := by
  obtain ⟨first, ts, hPassed, hSub⟩ := h
  exact ⟨first, ts, ⟨hPassed.tokens, hPassed.shown, hPassed.lastEnd⟩, hSub⟩

end

/-! ## Statements -/

/-- If the parser succeeds, the statements that a walk visits begin among what was read. -/
def WalkBegins (p : Parser Stmt) : Prop :=
  ∀ s, Outcome p s (fun x t => Begins s x.walk t) fun _ => True

/-- A statement that still lacks its span, with the given statements nested in it. -/
structure Nests (form : Span → Stmt) (xs : List Stmt) : Prop where
  span : ∀ span, (form span).span = span
  walk : ∀ span, (form span).walk = form span :: xs

/-- If the parser succeeds, what is nested in the statement begins behind the first token that has
been read since `s`. -/
def FormOpens (s : Stream) (p : Parser (Span → Stmt)) (t : Stream) : Prop :=
  Outcome p t (fun form u => ∃ xs, Nests form xs ∧ Opens s xs u) fun _ => True

section

variable {inner : Parser Stmt} {s t : Stream}

theorem blockOver_opens (hInner : WalkBegins inner) (s : Stream) :
    Outcome (blockOver inner) s (fun b t => Opens s b.walk t) fun _ => True := by
  unfold blockOver refunding
  rw [outcome_bind, outcome_here, outcome_bind, outcome_bind, outcome_get, outcome_bind,
    outcome_bind]
  refine outcome_spend_between ?_
  intro t hSpend _
  rw [outcome_bind]
  refine outcome_expectSymbol_reads ?_
  intro u hOpen
  have hBrace : Opens s [] u := (hSpend.reads hOpen).opens
  rw [outcome_bind]
  refine (outcome_manyWhile_of_cons (T := fun s xs t => Begins s (walkAll xs) t)
    (fun s => (between_refl s).begins) (fun _ _ _ _ _ hFirst hRest => hFirst.trans hRest)
    fun v _ => hInner v).mono fun stmts v hStmts => ?_
  rw [outcome_bind]
  refine outcome_expectSymbol_reads ?_
  intro w hClose
  have hAll := (hBrace.trans hStmts).trans hClose.between.begins
  rw [List.nil_append, List.append_nil] at hAll
  exact hAll.withBudget s.budget

/-- A body without braces begins with its statement. -/
theorem bodyOver_begins (hInner : WalkBegins inner) (s : Stream) :
    Outcome (bodyOver inner) s (fun b t => Begins s b.walk t) fun _ => True := by
  unfold bodyOver
  rw [outcome_bind, outcome_isAt]
  split
  · exact (blockOver_opens hInner s).mono fun b t h => h.begins
  · rw [outcome_bind]
    refine outcome_spend_between ?_
    intro t hSpend _
    rw [outcome_bind]
    refine (hInner t).mono fun x u hBody => ?_
    have hAll := hSpend.begins.trans hBody
    have hWalk : (Block.mk [x] x.span).walk = x.walk := List.append_nil _
    rw [outcome_pure, hWalk]
    exact hAll

theorem elseOver_begins (hInner : WalkBegins inner) (s : Stream) :
    Outcome (elseOver inner) s (fun alternative t => Begins s alternative.walk t)
      fun _ => True := by
  unfold elseOver
  rw [outcome_bind]
  refine outcome_accept_reads (by simp) ?_ (between_refl s).begins
  intro t hElse
  rw [if_pos rfl, outcome_bind, outcome_isAt]
  split
  · rw [outcome_bind]
    refine outcome_spend_between ?_
    intro u hSpend _
    rw [outcome_bind]
    exact (hInner u).mono fun next v hNext => (hElse.trans hSpend).between.begins.trans hNext
  · rw [outcome_bind]
    exact (bodyOver_begins hInner t).mono fun body u hBody => hElse.between.begins.trans hBody

theorem branchOver_opens (hInner : WalkBegins inner) (hWord : Opens s [] t) :
    FormOpens s (branchOver inner) t := by
  unfold FormOpens branchOver
  rw [outcome_bind]
  refine (condition_reads "if" t).mono fun e u hCondition => ?_
  rw [outcome_bind]
  refine (bodyOver_begins hInner u).mono fun thenBlock v hThen => ?_
  rw [outcome_bind]
  refine (elseOver_begins hInner v).mono fun alternative w hElse => ?_
  refine ⟨thenBlock.walk ++ alternative.walk, ⟨fun span => rfl, fun span => rfl⟩, ?_⟩
  exact hWord.trans (hCondition.between.begins.trans (hThen.trans hElse))

theorem loopOver_opens (hInner : WalkBegins inner) (hWord : Opens s [] t) :
    FormOpens s (loopOver inner) t := by
  unfold FormOpens loopOver
  rw [outcome_bind]
  refine (condition_reads "while" t).mono fun e u hCondition => ?_
  rw [outcome_bind]
  refine (bodyOver_begins hInner u).mono fun body v hBody => ?_
  refine ⟨body.walk, ⟨fun span => rfl, fun span => rfl⟩, ?_⟩
  exact hWord.trans (hCondition.between.begins.trans hBody)

/-- A form in which nothing is nested, and which ends with a semicolon. -/
theorem formOpens_semicolon {form : Span → Stmt} {context : String} (hForm : Nests form [])
    (h : Opens s [] t) : FormOpens s (do expectSymbol .semicolon context; return form) t := by
  unfold FormOpens
  rw [outcome_bind]
  refine outcome_expectSymbol_reads ?_
  intro u hEnd
  exact ⟨[], hForm, h.trans hEnd.between.begins⟩

theorem leave_opens (hWord : Opens s [] t) : FormOpens s leave t := by
  unfold FormOpens leave
  rw [outcome_bind, outcome_isAt]
  split
  · exact formOpens_semicolon ⟨fun _ => rfl, fun _ => rfl⟩ hWord
  · rw [outcome_bind, outcome_map]
    refine (expression_reads t).mono fun e u hExpr => ?_
    exact formOpens_semicolon ⟨fun _ => rfl, fun _ => rfl⟩ (hWord.trans hExpr.between.begins)

theorem declaration_opens (s : Stream) : FormOpens s declaration s := by
  unfold FormOpens declaration
  rw [outcome_bind]
  refine (typeSpecifier_reads s).mono fun base t hType => ?_
  rw [outcome_bind]
  refine (declarator_reads base _ t).mono fun declared u hName => ?_
  have hDeclared : Opens s [] u := hType.opens.trans hName.between.begins
  rw [outcome_bind]
  refine outcome_accept_reads (by simp) ?_ ?_
  · intro v hEqual
    rw [if_pos rfl, outcome_bind, outcome_map]
    refine (expression_reads v).mono fun e w hExpr => ?_
    exact formOpens_semicolon ⟨fun _ => rfl, fun _ => rfl⟩
      (hDeclared.trans (hEqual.between.begins.trans hExpr.between.begins))
  · exact formOpens_semicolon ⟨fun _ => rfl, fun _ => rfl⟩ hDeclared

theorem evaluation_opens (s : Stream) : FormOpens s evaluation s := by
  unfold FormOpens evaluation
  rw [outcome_bind]
  refine (expression_reads s).mono fun e t hExpr => ?_
  exact formOpens_semicolon ⟨fun _ => rfl, fun _ => rfl⟩ hExpr.opens

theorem formOver_opens (hInner : WalkBegins inner) (s : Stream) :
    FormOpens s (formOver inner) s := by
  unfold FormOpens formOver
  rw [outcome_bind, outcome_peek?]
  split
  · rw [outcome_bind]
    refine (blockOver_opens hInner s).mono fun body t hBody => ?_
    exact ⟨body.walk, ⟨fun _ => rfl, fun _ => rfl⟩, hBody⟩
  · next hs =>
    rw [outcome_bind]
    exact outcome_advance_tail (branchOver_opens hInner (reads_tail hs (by simp)).opens)
  · next hs =>
    rw [outcome_bind]
    exact outcome_advance_tail (loopOver_opens hInner (reads_tail hs (by simp)).opens)
  · next hs =>
    rw [outcome_bind]
    exact outcome_advance_tail (leave_opens (reads_tail hs (by simp)).opens)
  · split
    · exact declaration_opens s
    · exact evaluation_opens s
  · exact evaluation_opens s

/-- A statement begins with the first token, in front of what is nested in it. -/
theorem statementOver_begins (hInner : WalkBegins inner) : WalkBegins (statementOver inner) := by
  intro s
  unfold statementOver refunding
  rw [outcome_bind, outcome_here, outcome_bind, outcome_bind, outcome_get, outcome_bind]
  refine (formOver_opens hInner s).mono fun form t hForm => ?_
  obtain ⟨xs, hNests, hOpens⟩ := hForm
  let span : Span := ⟨s.location, t.lastEnd⟩
  have hStart : (form span).span.start = s.location := by rw [hNests.span]
  have hAll := (hOpens.withBudget s.budget).around hStart
  rwa [← hNests.walk] at hAll

end

theorem statementWithin_begins (n : Nat) : WalkBegins (statementWithin n) := by
  induction n with
  | zero => exact fun s => trivial
  | succ n ih => exact statementOver_begins ih

theorem block_opens (s : Stream) :
    Outcome block s (fun b t => Opens s b.walk t) fun _ => True :=
  blockOver_opens (fun s => statementWithin_begins (s.budget + 1) s) s

/-! ## Programs -/

theorem function_begins (s : Stream) :
    Outcome function s (fun f t => Begins s f.body.walk t) fun _ => True := by
  rw [function_eq, outcome_bind, outcome_here, outcome_bind]
  refine (functionHead_reads s).mono fun head t hHead => ?_
  rw [outcome_bind]
  refine (block_opens t).mono fun body u hBody => ?_
  exact hHead.between.begins.trans hBody.begins

theorem program_begins (s : Stream) :
    Outcome program s (fun p t => Begins s (p.functions.flatMap (·.body.walk)) t)
      fun _ => True := by
  unfold program
  rw [outcome_bind, outcome_here, outcome_bind]
  exact outcome_manyWhile_of_cons (T := fun s fs t => Begins s (fs.flatMap (·.body.walk)) t)
    (fun s => (between_refl s).begins) (fun _ _ _ _ _ hFirst hRest => hFirst.trans hRest)
    fun t _ => function_begins t

end Parser

/-! ## Walks -/

/-- The tokens of a text that are not empty begin one behind the other. -/
theorem Ordered.starts {ts : List Token} (h : Ordered ts) :
    (ts.map (·.span.start)).Pairwise fun l m => l.offset < m.offset := by
  rw [List.pairwise_map]
  refine h.apart.imp_of_mem fun ht _ hApart => ?_
  exact Nat.lt_of_lt_of_le (h.nonempty _ ht) hApart

/-- The statements of all bodies of a program begin one behind the other. -/
theorem walks_ordered {file source : String} {p : Program} (h : parse file source = .ok p) :
    (p.functions.flatMap (·.body.walk)).Pairwise fun x y =>
      x.span.start.offset < y.span.start.offset := by
  obtain ⟨tokens, hTokens, hParse⟩ := exists_tokens_of_parse h
  obtain ⟨hNonempty, hApart, -⟩ := tokenize_ordered hTokens
  have hBegins := Parser.program_begins (.ofTokens tokens)
  unfold Parser.Outcome at hBegins
  rw [parseTokens] at hParse
  cases hRun : Parser.program (.ofTokens tokens) with
  | error e t => simp [hRun] at hParse
  | ok q t =>
    rw [hRun] at hParse hBegins
    cases hParse
    obtain ⟨ts, hPassed, hSub⟩ := hBegins
    have hSplit : tokens = ts ++ t.tokens := hPassed.tokens
    have hPart : ts.Sublist tokens := hSplit ▸ List.sublist_append_left _ _
    have hOrdered : Ordered ts :=
      ⟨fun u hu => hNonempty u (hPart.subset hu) (hPassed.shown u hu), hApart.sublist hPart⟩
    have hStarts := hOrdered.starts.sublist hSub
    rwa [List.pairwise_map] at hStarts

/-- **A walk in the order of the text.** Whatever is nested in the body of a function that a text
is parsed to, a walk through the body visits the statement at every address below it, each of them
once, and of two statements it visits first the one that begins first. -/
theorem walk_in_order {file source : String} {p : Program} (h : parse file source = .ok p)
    {f : Function} (hf : f ∈ p.functions) :
    (∃ addresses, Node.Toured (Node.block f.body).at? addresses f.body.walk) ∧
      f.body.walk.Pairwise fun x y => x.span.start.offset < y.span.start.offset := by
  refine ⟨(Node.block f.body).exists_toured_walk, (walks_ordered h).sublist ?_⟩
  rw [List.flatMap_def]
  exact List.sublist_flatten_of_mem (List.mem_map_of_mem hf)

/-- A text with statements in bodies with and without braces, three of them on one line. -/
def nestedSource : String :=
  "int f(int a)\n\x7b if (a) \x7b int b; while (b) b = 0; \x7d " ++
    "else if (f(1)) return 1; else a; \x7b \x7d \x7d"

theorem walk_in_order_nested :
    ∃ p f, parse "a.c" nestedSource = .ok p ∧ p.functions = [f] ∧ f.body.walk.length = 8 ∧
      (∃ addresses, Node.Toured (Node.block f.body).at? addresses f.body.walk) ∧
      f.body.walk.Pairwise fun x y => x.span.start.offset < y.span.start.offset := by
  have hRead : (parse "a.c" nestedSource).toOption.any
      (·.functions.map (·.body.walk.length) = [8]) := by
    decide +kernel
  obtain ⟨p, hp, hLengths⟩ := exists_eq_ok_of_any hRead
  obtain ⟨f, hFunctions, hLength⟩ :=
    List.map_eq_singleton_iff.mp (of_decide_eq_true hLengths)
  have hf : f ∈ p.functions := by simp [hFunctions]
  obtain ⟨hTour, hOrder⟩ := walk_in_order hp hf
  exact ⟨p, f, hp, hFunctions, hLength, hTour, hOrder⟩

end CToGo.Source
