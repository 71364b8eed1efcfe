import CToGo.Proofs.Locations.Level
import CToGo.Proofs.Locations.Nested
import Mathlib.Logic.Function.Iterate

/-!
# Rounds of recursions and loops

A parser of nested expressions calls itself, and a loop goes on with what is left. The parsers
bound both: the recursion by the budget and the loops by the number of tokens. Here a recursion
or a loop is one round, in which any parser stands for the rounds to come. It ends if after
enough rounds that parser makes no difference: then it was never run.

* `Unrolls measure round p`: `p` is what the rounds come to, and the measure bounds their number.
* `Loop next? item`, `CommaLoop item`: each iteration shortens the input, and the loop ends.
* `Alike n p q`: with budgets below `n` both parsers do the same. They read tokens in front of the
  end of the file only, and what they leave of the budget is at most what it was.
* `alike_bind`, `alike_advance`, `alike_spend_then`, ...: the steps.
-/

namespace CToGo.Source.Parser

section

variable {α β : Type}

/-! ## Rounds -/

/-- The parser is one round in front of itself, and with more rounds than the measure of the
stream it does not matter what comes last. -/
structure Unrolls (measure : Stream → Nat) (round : Parser α → Parser α) (p : Parser α) :
    Prop where
  fixed : round p = p
  settled : ∀ last n s, measure s < n → round^[n] last s = p s

variable {measure : Stream → Nat} {round : Parser α → Parser α}

/-- A round that runs what comes next, if at all, where the measure is smaller. -/
theorem unrolls_of_fixed {p : Parser α}
    (hRound : ∀ rest rest' s, (∀ t, measure t < measure s → rest t = rest' t) →
      round rest s = round rest' s)
    (hFixed : round p = p) : Unrolls measure round p where
  fixed := hFixed
  settled last n s hs := by
    induction n generalizing s with
    | zero => exact absurd hs (Nat.not_lt_zero _)
    | succ n ih =>
      rw [Function.iterate_succ_apply']
      conv_rhs => rw [← hFixed]
      exact hRound _ _ s fun t ht => ih t (by omega)

/-- A recursion with a bound that is one more than the measure. What comes next may be run several
times, with a measure that depends on the runs before; so a relation between the answers of two
parsers is carried along, from which follows that they are equal. -/
theorem unrolls_bounded {R : Stream → EStateM.Result GrammarError Stream α →
      EStateM.Result GrammarError Stream α → Prop}
    (hSame : ∀ s x y, R s x y → x = y)
    (hRound : ∀ n p q, (∀ s, measure s < n → R s (p s) (q s)) →
      ∀ s, measure s < n + 1 → R s (round p s) (round q s))
    {within : Nat → Parser α} (hWithin : ∀ n, within (n + 1) = round (within n)) :
    Unrolls measure round fun s => within (measure s + 1) s := by
  have hIterate (n : Nat) : round^[n] (within 0) = within n := by
    induction n with
    | zero => rfl
    | succ n ih => rw [Function.iterate_succ_apply', ih, hWithin]
  have hRounds (n : Nat) (p q : Parser α) (s : Stream) (hs : measure s < n) :
      R s (round^[n] p s) (round^[n] q s) := by
    induction n generalizing s with
    | zero => exact absurd hs (Nat.not_lt_zero _)
    | succ n ih =>
      rw [Function.iterate_succ_apply', Function.iterate_succ_apply']
      exact hRound n _ _ ih s hs
  -- Whatever comes last may as well be further rounds.
  have hSettled (last : Parser α) (n : Nat) (s : Stream) (hs : measure s < n) :
      round^[n] last s = within (measure s + 1) s := by
    obtain ⟨k, rfl⟩ := Nat.exists_eq_add_of_lt hs
    rw [Nat.add_right_comm, Function.iterate_add_apply, ← hIterate (measure s + 1)]
    exact hSame s _ _ (hRounds _ _ _ s (Nat.lt_succ_self _))
  refine ⟨funext fun s => ?_, hSettled⟩
  rw [hWithin]
  refine hSame s _ _ (hRound (measure s) _ _ (fun t ht => ?_) s (Nat.lt_succ_self _))
  rw [← hSettled (within 0) (measure s) t ht, ← hIterate (measure s)]
  exact hRounds _ _ _ t ht

end

section

variable {α β : Type} {next? : Stream → Option β} {item : β → Parser α} {s : Stream}

/-! ## Loops -/

/-- One iteration of a loop, and the rest of it. -/
def iteration (next? : Stream → Option β) (item : β → Parser α) (rest : Parser (List α)) :
    Parser (List α) := do
  match ← seen next? with
  | none => return []
  | some b =>
    let a ← item b
    let as ← rest
    return a :: as

/-- An iteration that goes through shortens the input, none begins where the tokens end, and the
loop ends after at most one iteration for each token. -/
structure Loop (next? : Stream → Option β) (item : β → Parser α) : Prop where
  consumes : Consumes next? item
  unrolls : Unrolls (·.tokens.length) (iteration next? item) (many next? item)

theorem iteration_of_none (h : next? s = none) (rest : Parser (List α)) :
    iteration next? item rest s = .ok [] s := by
  simp only [iteration, seen, bind, EStateM.bind, get_eq, pure, EStateM.pure, h]

theorem iteration_of_some {b : β} (h : next? s = some b) (rest : Parser (List α)) :
    iteration next? item rest s = (do
      let a ← item b
      let as ← rest
      return a :: as) s := by
  simp only [iteration, seen, bind, EStateM.bind, get_eq, pure, EStateM.pure, h]

/-- The rest of a loop is only run where fewer tokens are left. -/
theorem iteration_congr (h : Consumes next? item) {rest rest' : Parser (List α)}
    (hRest : ∀ t : Stream, t.tokens.length < s.tokens.length → rest t = rest' t) :
    iteration next? item rest s = iteration next? item rest' s := by
  cases hSeen : next? s with
  | none => rw [iteration_of_none hSeen, iteration_of_none hSeen]
  | some b =>
    rw [iteration_of_some hSeen, iteration_of_some hSeen]
    cases hItem : item b s with
    | error e t => rw [bind_of_error hItem, bind_of_error hItem]
    | ok a t =>
      rw [bind_of_ok hItem, bind_of_ok hItem]
      simp only [bind, EStateM.bind, hRest t (h.item s b a t hSeen hItem)]

theorem iteration_many (h : Consumes next? item) :
    iteration next? item (many next? item) = many next? item := by
  funext s
  calc iteration next? item (many next? item) s
      = iteration next? item (manyWithin next? item s.tokens) s :=
        iteration_congr h fun t ht => manyWithin_congr h (Nat.le_refl _) (Nat.le_of_lt ht)
    _ = manyWithin next? item (default :: s.tokens) s := rfl
    _ = many next? item s := manyWithin_congr h (by simp) (Nat.le_refl _)

theorem Consumes.loop (h : Consumes next? item) : Loop next? item :=
  ⟨h, unrolls_of_fixed (fun _ _ _ => iteration_congr h) (iteration_many h)⟩

theorem not_isAt_of_nil {kind : TokenKind} (hKind : kind ≠ .endOfFile) {s : Stream}
    (hs : s.tokens = []) : s.isAt kind = false := by
  by_contra hAt
  exact Stream.tokens_ne_nil_of_isAt hKind (eq_true_of_ne_false hAt) hs

/-- A repetition in which a token of the given kind begins each item. -/
theorem consumes_behind {kind : TokenKind} (hKind : kind ≠ .endOfFile) {p : Parser α}
    (hKeeps : Keeps Shorter p) :
    Consumes (fun s => if s.isAt kind then some () else none) fun _ => (do advance; p) := by
  refine .ofMore (fun s => not_isAt_of_nil hKind) fun s a t hAt hRun => ?_
  exact length_lt_of_advance hKeeps (Stream.tokens_ne_nil_of_isAt hKind hAt) hRun

end

/-! ## Lists with commas -/

section

variable {α : Type} {item : Parser α}

/-- One item, and the rest of the list if a comma follows. -/
def listed (item : Parser α) (rest : Parser (List α)) : Parser (List α) := do
  let first ← item
  if ← accept (.symbol .comma) then
    return first :: (← rest)
  else
    return [first]

/-- An iteration that goes through shortens the input, and the list ends after at most one
iteration for each token. -/
structure CommaLoop (item : Parser α) : Prop where
  progresses : Progresses item
  unrolls : Unrolls (·.tokens.length) (listed item) (commaSeparated item)

theorem accept_eq (kind : TokenKind) (s : Stream) :
    accept kind s = if s.isAt kind then .ok true s.tail else .ok false s := by
  simp only [accept, isAt, bind, EStateM.bind, get_eq, pure, EStateM.pure]
  split <;> rfl

theorem accept_of_isAt {kind : TokenKind} {s : Stream} (h : s.isAt kind = true) :
    accept kind s = .ok true s.tail := by
  rw [accept_eq, if_pos h]

theorem accept_of_not_isAt {kind : TokenKind} {s : Stream} (h : ¬ s.isAt kind = true) :
    accept kind s = .ok false s := by
  rw [accept_eq, if_neg h]

theorem listed_congr (h : Progresses item) {rest rest' : Parser (List α)} {s : Stream}
    (hRest : ∀ t : Stream, t.tokens.length < s.tokens.length → rest t = rest' t) :
    listed item rest s = listed item rest' s := by
  unfold listed
  cases hItem : item s with
  | error e t => rw [bind_of_error hItem, bind_of_error hItem]
  | ok first t =>
    rw [bind_of_ok hItem, bind_of_ok hItem]
    by_cases hComma : t.isAt (.symbol .comma)
    · have hLess : t.tail.tokens.length < s.tokens.length :=
        Nat.lt_of_le_of_lt (shorter_paidPassage.tail t) (h s first t hItem)
      rw [bind_of_ok (accept_of_isAt hComma), bind_of_ok (accept_of_isAt hComma)]
      simp only [if_true, bind, EStateM.bind, hRest t.tail hLess]
    · rw [bind_of_ok (accept_of_not_isAt hComma), bind_of_ok (accept_of_not_isAt hComma)]
      rfl

/-- Behind a comma, the other items of a list are a list again. -/
theorem manyWhile_comma (h : Progresses item) {s : Stream}
    (hComma : s.isAt (.symbol .comma) = true) :
    manyWhile (·.isAt (.symbol .comma)) (do advance; item) s = commaSeparated item s.tail := by
  have hNext : Progresses (do advance; item) :=
    progresses_bind_right (keeps_advance shorter_paidPassage.toPassage) fun _ => h
  rw [manyWhile_of_more (fun _ => not_isAt_of_nil (by simp)) hNext hComma, bind_assoc]
  rfl

theorem listed_commaSeparated (h : Progresses item) :
    listed item (commaSeparated item) = commaSeparated item := by
  refine bind_congr fun first => funext fun s => ?_
  let close (as : List α) : Parser (List α) := return first :: as
  by_cases hComma : s.isAt (.symbol .comma)
  · rw [bind_of_ok (accept_of_isAt hComma), if_pos rfl]
    have hOthers := manyWhile_comma h hComma
    cases hRun : commaSeparated item s.tail with
    | ok as t =>
      rw [bind_of_ok hRun]
      exact (bind_of_ok (f := close) (hOthers.trans hRun)).symm
    | error e t =>
      rw [bind_of_error hRun]
      exact (bind_of_error (f := close) (hOthers.trans hRun)).symm
  · rw [bind_of_ok (accept_of_not_isAt hComma),
      bind_of_ok (manyWhile_of_stop (eq_false_of_ne_true hComma))]
    rfl

theorem commaLoop (h : Progresses item) : CommaLoop item :=
  ⟨h, unrolls_of_fixed (fun _ _ _ => listed_congr h) (listed_commaSeparated h)⟩

end

section

variable {α : Type}

/-! ## The same answers -/

/-- Tokens in front of the end of the file have been read since, and the budget has not grown. -/
structure Later (s t : Stream) : Prop where
  passed : ∃ ts, Passed s ts t
  budget : t.budget ≤ s.budget

theorem Later.refl (s : Stream) : Later s s :=
  ⟨⟨[], rfl, by simp, rfl⟩, Nat.le_refl _⟩

theorem Later.trans {s t u : Stream} (h : Later s t) (h' : Later t u) : Later s u := by
  obtain ⟨ts, hPassed⟩ := h.passed
  obtain ⟨us, hPassed'⟩ := h'.passed
  exact ⟨⟨ts ++ us, hPassed.trans hPassed'⟩, Nat.le_trans h'.budget h.budget⟩

theorem Later.withBudget {s t : Stream} (h : Later s t) {n : Nat} (hn : n ≤ s.budget) :
    Later s { t with budget := n } := by
  obtain ⟨ts, hPassed⟩ := h.passed
  exact ⟨⟨ts, hPassed.tokens, hPassed.shown, hPassed.lastEnd⟩, hn⟩

theorem later_tail {s : Stream} (hs : s.shown ≠ []) : Later s s.tail := by
  obtain ⟨u, rest, hu⟩ := List.exists_cons_of_ne_nil hs
  obtain ⟨hKind, -, -, -, hPeek⟩ := Stream.of_shown_eq_cons hu
  obtain ⟨ts, -, hPassed, -⟩ := reads_tail (s.peek?_eq_head? ▸ hPeek) hKind
  exact ⟨⟨ts, hPassed⟩, Nat.le_of_eq s.budget_tail⟩

/-- The same result or the same error, in front of the same later stream. -/
inductive Leads (s : Stream) : EStateM.Result GrammarError Stream α →
    EStateM.Result GrammarError Stream α → Prop where
  | ok (a : α) {t : Stream} : Later s t → Leads s (.ok a t) (.ok a t)
  | error (e : GrammarError) {t : Stream} : Later s t → Leads s (.error e t) (.error e t)

theorem Leads.eq {s : Stream} {x y : EStateM.Result GrammarError Stream α} (h : Leads s x y) :
    x = y := by
  cases h <;> rfl

theorem Leads.from {s t : Stream} {x y : EStateM.Result GrammarError Stream α} (h : Leads t x y)
    (hLater : Later s t) : Leads s x y := by
  cases h with
  | ok a h => exact .ok a (hLater.trans h)
  | error e h => exact .error e (hLater.trans h)

/-- With budgets below `n` both parsers do the same, and they leave a later stream. If `ahead`
holds, this is said of streams that show something. -/
def Alike (n : Nat) (p q : Parser α) (ahead : Bool := false) : Prop :=
  ∀ s, s.budget < n → (ahead = true → s.shown ≠ []) → Leads s (p s) (q s)

end

section

variable {α β : Type} {n : Nat} {p q : Parser α} {ahead : Bool}

theorem Alike.mono {m : Nat} (h : Alike n p q ahead) (hmn : m ≤ n) : Alike m p q ahead :=
  fun s hs => h s (Nat.lt_of_lt_of_le hs hmn)

theorem Alike.relax (h : Alike n p q) : Alike n p q ahead :=
  fun s hs _ => h s hs nofun

/-- A recursion in which every round is paid for. -/
theorem unrolls_of_alike {round : Parser α → Parser α} {within : Nat → Parser α}
    (hRound : ∀ n p q, Alike n p q → Alike (n + 1) (round p) (round q))
    (hWithin : ∀ n, within (n + 1) = round (within n)) :
    Unrolls Stream.budget round (do within ((← get).budget + 1)) :=
  unrolls_bounded (R := Leads) (fun _ _ _ h => h.eq)
    (fun n p q hBelow s hs => hRound n p q (fun t ht _ => hBelow t ht) s hs nofun) hWithin

/-! ## Composition -/

theorem alike_pure (a : α) : Alike n (pure a) (pure a) ahead :=
  fun s _ _ => .ok a (.refl s)

theorem alike_throw (e : GrammarError) : Alike n (throw e : Parser α) (throw e) ahead :=
  fun s _ _ => .error e (.refl s)

theorem alike_bind {f g : α → Parser β} (hp : Alike n p q ahead)
    (hf : ∀ a, Alike n (f a) (g a)) : Alike n (p >>= f) (q >>= g) ahead := by
  intro s hs hAhead
  have hFirst := hp s hs hAhead
  simp only [bind, EStateM.bind]
  generalize p s = x at hFirst
  generalize q s = y at hFirst
  cases hFirst with
  | ok a hLater => exact (hf a _ (Nat.lt_of_le_of_lt hLater.budget hs) nofun).from hLater
  | error e hLater => exact .error e hLater

/-- A step whose result does not count. -/
theorem alike_then {step : Parser Unit} (hStep : Alike n step step ahead) (hRest : Alike n p q) :
    Alike n (do step; p) (do step; q) ahead :=
  alike_bind hStep fun _ => hRest

theorem alike_map {f : α → β} (hp : Alike n p q) : Alike n (f <$> p) (f <$> q) := by
  rw [map_eq_pure_bind, map_eq_pure_bind]
  exact alike_bind hp fun a => alike_pure (f a)

/-! ## Steps -/

theorem alike_here : Alike n here here ahead :=
  fun s _ _ => .ok _ (.refl s)

theorem alike_unexpected (expected : Expectation) :
    Alike n (unexpected expected : Parser α) (unexpected expected) ahead :=
  fun s _ _ => .error _ (.refl s)

/-- A node takes its span last. -/
theorem alike_spanned (start : Location) (f : Span → α) :
    Alike n (do return f (← spanFrom start)) (do return f (← spanFrom start)) :=
  fun s _ _ => .ok _ (.refl s)

/-- Only a token in front of the end of the file is ever read. -/
theorem alike_advance : Alike n advance advance true :=
  fun _ _ hAhead => .ok () (later_tail (hAhead rfl))

/-- What has to be paid for need only be compared up to a smaller bound. -/
theorem alike_spend_then {cost : Nat} (hCost : 0 < cost) (h : Alike n p q ahead) :
    Alike (n + 1) (do spend cost; p) (do spend cost; q) ahead := by
  intro s hs hAhead
  by_cases hShort : s.budget < cost
  · have hDeep := spend_of_short hShort
    rw [bind_of_error hDeep, bind_of_error hDeep]
    exact .error _ (.refl s)
  · have hEnough := spend_of_enough (Nat.le_of_not_lt hShort)
    have hPaid : Later s (s.withBudget (s.budget - cost)) :=
      (Later.refl s).withBudget (Nat.sub_le _ _)
    rw [bind_of_ok hEnough, bind_of_ok hEnough]
    have hLess : s.budget - cost < n := by omega
    exact (h (s.withBudget (s.budget - cost)) hLess hAhead).from hPaid

theorem alike_refunding (h : Alike n p q) : Alike n (refunding p) (refunding q) := by
  intro s hs hAhead
  have hFirst := h s hs hAhead
  rw [refunding_eq, refunding_eq]
  generalize p s = x at hFirst
  generalize q s = y at hFirst
  cases hFirst with
  | ok a hLater => exact .ok a (hLater.withBudget (Nat.le_refl _))
  | error e hLater => exact .error e hLater

/-- Parsers that take a bound from the budget. -/
theorem alike_bounded {f g : Nat → Parser α} (h : ∀ k ≤ n, Alike k (f k) (g k)) :
    Alike n (do f ((← get).budget + 1)) (do g ((← get).budget + 1)) :=
  fun s hs hAhead => h (s.budget + 1) hs s (Nat.lt_succ_self _) hAhead

/-- A choice by what the stream shows. Where it falls on the first parser, something is shown. -/
theorem alike_choice (choice : Stream → Bool) {p' q' : Parser α}
    (hAhead : ∀ s, choice s = true → s.shown ≠ []) (hThen : Alike n p q true)
    (hElse : Alike n p' q') :
    Alike n (do if choice (← get) then p else p') (do if choice (← get) then q else q') := by
  intro s hs _
  have hRun (a b : Parser α) : (do if choice (← get) then a else b : Parser α) s =
      if choice s then a s else b s := by
    simp only [bind, EStateM.bind, get_eq]
    split <;> rfl
  rw [hRun, hRun]
  split
  · next hSeen => exact hThen s hs fun _ => hAhead s hSeen
  · exact hElse s hs nofun

theorem alike_isAt {kind : TokenKind} (hKind : kind ≠ .endOfFile) {p' q' : Parser α}
    (hThen : Alike n p q true) (hElse : Alike n p' q') :
    Alike n (do if ← isAt kind then p else p') (do if ← isAt kind then q else q') :=
  alike_choice (·.isAt kind) (fun _ => Stream.shown_ne_nil_of_isAt hKind) hThen hElse

/-- Whatever the next token decides, the end of the file decides the same as no token. -/
theorem alike_peek? {f g : Option TokenKind → Parser α} (hEnd : f (some .endOfFile) = f none)
    (hEnd' : g (some .endOfFile) = g none)
    (hShown : ∀ kind, Alike n (f (some kind)) (g (some kind)) true)
    (hNone : Alike n (f none) (g none)) : Alike n (peek? >>= f) (peek? >>= g) := by
  intro s hs hAhead
  have hRun (h : Option TokenKind → Parser α) : (peek? >>= h) s = h s.peek? s := rfl
  rw [hRun, hRun]
  cases hTokens : s.shown with
  | nil =>
    rcases Stream.peek?_of_shown_eq_nil hTokens with hPeek | hPeek
    · rw [hPeek]
      exact hNone s hs hAhead
    · rw [hPeek, hEnd, hEnd']
      exact hNone s hs hAhead
  | cons u rest =>
    obtain ⟨-, -, -, -, hPeek⟩ := Stream.of_shown_eq_cons hTokens
    rw [hPeek]
    exact hShown u.kind s hs fun _ => by simp [hTokens]

theorem alike_accept {kind : TokenKind} (hKind : kind ≠ .endOfFile) :
    Alike n (accept kind) (accept kind) :=
  alike_isAt hKind (alike_then alike_advance (alike_pure true)) (alike_pure false)

theorem alike_expectSymbol (mark : Symbol) (context : String) :
    Alike n (expectSymbol mark context) (expectSymbol mark context) :=
  alike_isAt (by simp) alike_advance (alike_unexpected _)

theorem alike_identifier (context : String) :
    Alike n (identifier context) (identifier context) := by
  refine alike_peek? rfl rfl ?_ (alike_unexpected _)
  intro kind
  split
  · exact alike_then alike_advance (alike_pure _)
  · exact alike_unexpected _

/-! ## Repetition -/

theorem alike_many {next? : Stream → Option β} {item item' : β → Parser α}
    (hAhead : ∀ s b, next? s = some b → s.shown ≠ [])
    (hItem : ∀ b, Alike n (item b) (item' b) true) :
    Alike n (many next? item) (many next? item') := by
  have hWithin (bound : List Token) :
      Alike n (manyWithin next? item bound) (manyWithin next? item' bound) := by
    induction bound with
    | nil => exact alike_pure []
    | cons token bound ih =>
      intro s hs _
      cases hSeen : next? s with
      | none =>
        rw [manyWithin_of_none hSeen, manyWithin_of_none hSeen]
        exact .ok [] (.refl s)
      | some b =>
        rw [manyWithin_of_some hSeen, manyWithin_of_some hSeen]
        have hRest (a : α) : Alike n
            (do let as ← manyWithin next? item bound; return a :: as)
            (do let as ← manyWithin next? item' bound; return a :: as) :=
          alike_bind ih fun as => alike_pure (a :: as)
        exact alike_bind (hItem b) hRest s hs fun _ => hAhead s b hSeen
  exact fun s hs hAhead => hWithin s.tokens s hs hAhead

theorem alike_manyWhile {more : Stream → Bool} (hAhead : ∀ s, more s = true → s.shown ≠ [])
    (hItem : Alike n p q true) : Alike n (manyWhile more p) (manyWhile more q) :=
  alike_many (fun s _ hSeen => hAhead s (by simpa using hSeen)) fun _ => hItem

theorem alike_commaSeparated (hItem : Alike n p q) :
    Alike n (commaSeparated p) (commaSeparated q) := by
  refine alike_bind hItem fun first => ?_
  refine alike_bind (alike_manyWhile ?_ (alike_then alike_advance hItem)) fun rest => alike_pure _
  exact fun s => Stream.shown_ne_nil_of_isAt (by simp)

end

end CToGo.Source.Parser
