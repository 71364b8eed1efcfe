import CToGo.Proofs.Locations.Following

/-!
# Streams up to the end of the file

Two streams show the same tokens up to the first one that says where the file ends, or up to the
last token if none does. A parser that reads no such token gives the same answer on both. There
is one lemma for each way to put parsers together and one for each step.

* `Stream.shown`, `Stream.final`: the tokens in front of the end of the file, and where it is.
* `Stream.Level`: two streams that show the same.
* `Same p`: on such streams, `p` gives the same results and errors.
* `same_advance`: a token is only read where one is shown.
-/

namespace CToGo.Source

/-- Whether a token stands in front of the end of the file. -/
def Token.isShown (t : Token) : Bool := t.kind ≠ .endOfFile

namespace Parser

/-! ## Streams up to the end of the file -/

namespace Stream

/-- The tokens in front of the end of the file. -/
def shown (s : Stream) : List Token := s.tokens.takeWhile Token.isShown

/-- Where the file ends. -/
def final (s : Stream) : Location :=
  match s.tokens.dropWhile Token.isShown with
  | mark :: _ => mark.span.start
  | [] => s.ending

/-- The streams show the same up to the end of the file. -/
structure Level (s t : Stream) : Prop where
  shown : s.shown = t.shown
  final : s.final = t.final
  lastEnd : s.lastEnd = t.lastEnd
  budget : s.budget = t.budget

theorem isAt_eq (s : Stream) (kind : TokenKind) :
    s.isAt kind = ((s.shown.head?.map (·.kind)).getD .endOfFile == kind) := by
  rw [isAt, peek?, shown]
  cases s.tokens with
  | nil => rfl
  | cons u rest => by_cases hu : u.kind = .endOfFile <;> simp [Token.isShown, hu]

theorem location_eq (s : Stream) :
    s.location = match s.shown with
      | [] => s.final
      | u :: _ => u.span.start := by
  rw [location, shown, final]
  cases s.tokens with
  | nil => rfl
  | cons u rest => by_cases hu : u.kind = .endOfFile <;> simp [Token.isShown, hu]

theorem unexpected_eq (s : Stream) (expected : Expectation) :
    s.unexpected expected = match s.shown with
      | [] => .unexpectedEnd expected s.final
      | u :: _ => .unexpectedToken expected u := by
  rw [unexpected, s.location_eq, shown, final]
  cases s.tokens with
  | nil => rfl
  | cons u rest => by_cases hu : u.kind = .endOfFile <;> simp [Token.isShown, hu]

/-- What a stream shows is what the stream behind its first token shows, and that token. -/
theorem of_shown_eq_cons {s : Stream} {u : Token} {rest : List Token} (h : s.shown = u :: rest) :
    u.kind ≠ .endOfFile ∧ s.tail.shown = rest ∧ s.tail.final = s.final ∧
      s.tail.lastEnd = u.span.stop ∧ s.peek? = some u.kind := by
  unfold shown at h
  cases hTokens : s.tokens with
  | nil => simp [hTokens] at h
  | cons v more =>
    rw [hTokens, List.takeWhile_cons] at h
    split at h
    · next hv =>
      obtain ⟨rfl, rfl⟩ := List.cons_eq_cons.mp h
      refine ⟨of_decide_eq_true hv, ?_, ?_, ?_, ?_⟩
      · simp only [shown, tail, hTokens]
      · simp only [final, tail, hTokens, List.dropWhile_cons, hv, if_true]
      · simp only [tail, hTokens]
      · simp only [peek?, hTokens, List.head?_cons, Option.map_some]
    · cases h

/-- A stream that shows nothing has no token left, or one that says where the file ends. -/
theorem peek?_of_shown_eq_nil {s : Stream} (h : s.shown = []) :
    s.peek? = none ∨ s.peek? = some .endOfFile := by
  unfold shown at h
  cases hTokens : s.tokens with
  | nil => exact .inl (by simp [peek?, hTokens])
  | cons u rest =>
    rw [hTokens, List.takeWhile_cons] at h
    split at h
    · cases h
    · next hu => exact .inr (by simpa [peek?, hTokens, Token.isShown] using hu)

theorem shown_ne_nil_of_isAt {s : Stream} {kind : TokenKind} (hKind : kind ≠ .endOfFile)
    (h : s.isAt kind = true) : s.shown ≠ [] := by
  intro hs
  rw [s.isAt_eq, hs] at h
  exact hKind (eq_of_beq h).symm

theorem shown_ne_nil_of_not_isAt {s : Stream} (h : s.isAt .endOfFile = false) : s.shown ≠ [] := by
  intro hs
  rw [s.isAt_eq, hs] at h
  cases h

namespace Level

variable {s t : Stream}

theorem isAt (h : s.Level t) (kind : TokenKind) : s.isAt kind = t.isAt kind := by
  rw [s.isAt_eq, t.isAt_eq, h.shown]

theorem location (h : s.Level t) : s.location = t.location := by
  rw [s.location_eq, t.location_eq, h.shown, h.final]

theorem unexpected (h : s.Level t) (expected : Expectation) :
    s.unexpected expected = t.unexpected expected := by
  rw [s.unexpected_eq, t.unexpected_eq, h.shown, h.final]

/-- A look at the next token finds the same on both sides, or neither side shows anything. -/
theorem bind_peek? (h : s.Level t) {α : Type} {f : TokenKind → Option α}
    (hf : f .endOfFile = none) : s.peek?.bind f = t.peek?.bind f := by
  cases hs : s.shown with
  | nil =>
    have hs' := peek?_of_shown_eq_nil hs
    have ht' := peek?_of_shown_eq_nil (h.shown ▸ hs)
    rcases hs' with hs' | hs' <;> rcases ht' with ht' | ht' <;> simp [hs', ht', hf]
  | cons u rest =>
    obtain ⟨-, -, -, -, hs'⟩ := of_shown_eq_cons hs
    obtain ⟨-, -, -, -, ht'⟩ := of_shown_eq_cons (h.shown ▸ hs)
    rw [hs', ht']

theorem tail (h : s.Level t) (hs : s.shown ≠ []) : s.tail.Level t.tail := by
  obtain ⟨u, rest, hu⟩ := List.exists_cons_of_ne_nil hs
  obtain ⟨-, hShown, hFinal, hLast, -⟩ := of_shown_eq_cons hu
  obtain ⟨-, hShown', hFinal', hLast', -⟩ := of_shown_eq_cons (h.shown ▸ hu)
  refine ⟨hShown.trans hShown'.symm, ?_, hLast.trans hLast'.symm, ?_⟩
  · rw [hFinal, hFinal', h.final]
  · rw [budget_tail, budget_tail, h.budget]

theorem withBudget (h : s.Level t) (n : Nat) :
    Stream.Level { s with budget := n } { t with budget := n } :=
  ⟨h.shown, h.final, h.lastEnd, rfl⟩

end Level

end Stream

/-! ## The same results -/

/-- Two streams that show the same, and something if `ahead` holds. -/
structure Near (ahead : Bool) (s t : Stream) : Prop extends s.Level t where
  ahead : ahead = true → s.shown ≠ []

/-- The same result or the same error, in front of streams that show the same. -/
inductive SameAnswer {α : Type} (ahead : Bool) :
    EStateM.Result GrammarError Stream α → EStateM.Result GrammarError Stream α → Prop where
  | ok (a : α) {s t : Stream} : Near ahead s t → SameAnswer ahead (.ok a s) (.ok a t)
  | error (e : GrammarError) {s t : Stream} : s.Level t → SameAnswer ahead (.error e s) (.error e t)

/-- On streams that show the same, the parser gives the same answer. They show something before
it is run if `before` holds, and after it has succeeded if `after` holds. -/
def Same {α : Type} (p : Parser α) (before after : Bool := false) : Prop :=
  ∀ s t, Near before s t → SameAnswer after (p s) (p t)

section

variable {α β : Type} {before after between : Bool} {p : Parser α}

theorem Near.relax {s t : Stream} (h : Near before s t) : Near false s t :=
  ⟨h.toLevel, nofun⟩

theorem Same.relax (h : Same p) : Same p before :=
  fun s t hNear => h s t hNear.relax

theorem same_pure (a : α) : Same (pure a) before before :=
  fun _ _ hNear => .ok a hNear

theorem same_throw (e : GrammarError) : Same (throw e : Parser α) before after :=
  fun _ _ hNear => .error e hNear.toLevel

theorem same_bind {f : α → Parser β} (hp : Same p before between)
    (hf : ∀ a, Same (f a) between after) : Same (p >>= f) before after := by
  intro s t hNear
  have hFirst := hp s t hNear
  simp only [bind, EStateM.bind]
  generalize p s = x at hFirst
  generalize p t = y at hFirst
  cases hFirst with
  | ok a hBetween => exact hf a _ _ hBetween
  | error e hLevel => exact .error e hLevel

/-- A step whose result does not count. -/
theorem same_then {step : Parser Unit} (hStep : Same step before between)
    (hRest : Same p between after) : Same (do step; p) before after :=
  same_bind hStep fun _ => hRest

theorem same_map {f : α → β} (hp : Same p) : Same (f <$> p) := by
  rw [map_eq_pure_bind]
  exact same_bind hp fun a => same_pure (f a)

/-! ## Steps -/

theorem same_here : Same here before before := by
  intro s t hNear
  have hHere : (here s : EStateM.Result GrammarError Stream Location) = .ok t.location s := by
    rw [← hNear.location]
    rfl
  rw [hHere]
  exact .ok _ hNear

theorem same_unexpected (expected : Expectation) :
    Same (unexpected expected : Parser α) before after := by
  intro s t hNear
  have hError : (unexpected expected : Parser α) s = .error (t.unexpected expected) s := by
    rw [← hNear.unexpected]
    rfl
  rw [hError]
  exact .error _ hNear.toLevel

/-- A node takes its span last. -/
theorem same_spanned (start : Location) (f : Span → α) :
    Same (do return f (← spanFrom start)) := by
  intro s t hNear
  have hSpan : (do return f (← spanFrom start) : Parser α) s = .ok (f ⟨start, t.lastEnd⟩) s := by
    rw [← hNear.lastEnd]
    rfl
  rw [hSpan]
  exact .ok _ hNear

/-- Only a token in front of the end of the file is ever read. -/
theorem same_advance : Same advance true :=
  fun _ _ hNear => .ok () ⟨hNear.tail (hNear.ahead rfl), nofun⟩

theorem same_spend (cost : Nat) : Same (spend cost) before before := by
  intro s t hNear
  rw [spend_eq, spend_eq, hNear.budget, hNear.location]
  split
  · exact .error _ hNear.toLevel
  · exact .ok () ⟨hNear.withBudget _, hNear.ahead⟩

theorem same_refunding (hp : Same p) : Same (refunding p) := by
  intro s t hNear
  have hFirst := hp s t hNear
  rw [refunding_eq, refunding_eq, hNear.budget]
  generalize p s = x at hFirst
  generalize p t = y at hFirst
  cases hFirst with
  | ok a hEnd => exact .ok a ⟨hEnd.withBudget _, nofun⟩
  | error e hLevel => exact .error e hLevel

/-- A parser that depends on the budget that is left. -/
theorem same_budget {f : Nat → Parser α} (hf : ∀ n, Same (f n)) :
    Same (do f (← get).budget) := by
  intro s t hNear
  have hEnd := hf s.budget s t hNear
  have hRight : (do f (← get).budget) t = f s.budget t := by
    rw [hNear.budget]
    rfl
  rw [hRight]
  exact hEnd

/-- A choice by what both streams show. Where the choice falls on the first parser, something is
shown. -/
theorem same_choice (choice : Stream → Bool) {q : Parser α}
    (hChoice : ∀ s t, s.Level t → choice s = choice t)
    (hAhead : ∀ s, choice s = true → s.shown ≠ []) (hp : Same p true after)
    (hq : Same q false after) : Same (do if choice (← get) then p else q) false after := by
  intro s t hNear
  have hRun (u : Stream) : (do if choice (← get) then p else q : Parser α) u =
      if choice u then p u else q u := by
    simp only [bind, EStateM.bind, get_eq]
    split <;> rfl
  rw [hRun, hRun, hChoice s t hNear.toLevel]
  split
  · next hSeen =>
    rw [← hChoice s t hNear.toLevel] at hSeen
    exact hp s t ⟨hNear.toLevel, fun _ => hAhead s hSeen⟩
  · exact hq s t hNear

/-- A choice by the next token. -/
theorem same_isAt {kind : TokenKind} (hKind : kind ≠ .endOfFile) {q : Parser α}
    (hp : Same p true after) (hq : Same q false after) :
    Same (do if ← isAt kind then p else q) false after :=
  same_choice (·.isAt kind) (fun _ _ hLevel => hLevel.isAt kind)
    (fun _ => Stream.shown_ne_nil_of_isAt hKind) hp hq

/-- Whatever the next token decides, the end of the file decides the same as no token. -/
theorem same_peek? {f : Option TokenKind → Parser α} (hEnd : f (some .endOfFile) = f none)
    (hShown : ∀ kind, Same (f (some kind)) true after) (hNone : Same (f none) false after) :
    Same (peek? >>= f) false after := by
  intro s t hNear
  have hRun (u : Stream) : (peek? >>= f) u = f u.peek? u := rfl
  rw [hRun, hRun]
  cases hs : s.shown with
  | nil =>
    have hNext {u : Stream} (hu : u.shown = []) : f u.peek? = f none := by
      rcases Stream.peek?_of_shown_eq_nil hu with hPeek | hPeek
      · rw [hPeek]
      · rw [hPeek, hEnd]
    rw [hNext hs, hNext (hNear.shown ▸ hs)]
    exact hNone s t hNear
  | cons u rest =>
    obtain ⟨-, -, -, -, hLeft⟩ := Stream.of_shown_eq_cons hs
    obtain ⟨-, -, -, -, hRight⟩ := Stream.of_shown_eq_cons (hNear.shown ▸ hs)
    rw [hLeft, hRight]
    exact hShown u.kind s t ⟨hNear.toLevel, fun _ => by simp [hs]⟩

theorem same_accept {kind : TokenKind} (hKind : kind ≠ .endOfFile) : Same (accept kind) :=
  same_isAt hKind (same_then same_advance (same_pure true)) (same_pure false)

theorem same_expectSymbol (mark : Symbol) (context : String) :
    Same (expectSymbol mark context) :=
  same_isAt (by simp) same_advance (same_unexpected _)

theorem same_identifier (context : String) : Same (identifier context) := by
  refine same_peek? rfl ?_ (same_unexpected _)
  intro kind
  split
  · exact same_then same_advance (same_pure _)
  · exact same_unexpected _

end

/-! ## Repetition -/

section

variable {α β : Type}

theorem same_manyWithin {next? : Stream → Option β} {item : β → Parser α}
    (hNext : ∀ s t, s.Level t → next? s = next? t)
    (hAhead : ∀ s b, next? s = some b → s.shown ≠ []) (hItem : ∀ b, Same (item b) true)
    (bound : List Token) : Same (manyWithin next? item bound) := by
  induction bound with
  | nil => exact same_pure []
  | cons token bound ih =>
    intro s t hNear
    cases hSeen : next? s with
    | none =>
      rw [manyWithin_of_none hSeen, manyWithin_of_none (hNext s t hNear.toLevel ▸ hSeen)]
      exact .ok [] hNear
    | some b =>
      rw [manyWithin_of_some hSeen, manyWithin_of_some (hNext s t hNear.toLevel ▸ hSeen)]
      have hStep : Same (do
          let a ← item b
          let rest ← manyWithin next? item bound
          return a :: rest) true :=
        same_bind (hItem b) fun a => same_bind ih fun rest => same_pure _
      exact hStep s t ⟨hNear.toLevel, fun _ => hAhead s b hSeen⟩

theorem same_many {next? : Stream → Option β} {item : β → Parser α}
    (hNext : ∀ s t, s.Level t → next? s = next? t)
    (hAhead : ∀ s b, next? s = some b → s.shown ≠ []) (hConsumes : Consumes next? item)
    (hItem : ∀ b, Same (item b) true) : Same (many next? item) := by
  intro s t hNear
  -- One of the lists may go on behind the end of the file; both together bound either run.
  have hLeft : many next? item s = manyWithin next? item (s.tokens ++ t.tokens) s :=
    manyWithin_congr hConsumes (Nat.le_refl _) (by simp)
  have hRight : many next? item t = manyWithin next? item (s.tokens ++ t.tokens) t :=
    manyWithin_congr hConsumes (Nat.le_refl _) (by simp)
  rw [hLeft, hRight]
  exact same_manyWithin hNext hAhead hItem _ s t hNear

theorem same_manyWhile {more : Stream → Bool} {item : Parser α}
    (hMore : ∀ s t, s.Level t → more s = more t)
    (hAhead : ∀ s, more s = true → s.shown ≠ [])
    (hProgress : ∀ s a t, more s = true → item s = .ok a t → t.tokens.length < s.tokens.length)
    (hItem : Same item true) : Same (manyWhile more item) := by
  have hStop : ∀ s : Stream, s.tokens = [] → more s = false := by
    intro s hs
    by_contra hSeen
    refine hAhead s (eq_true_of_ne_false hSeen) ?_
    rw [Stream.shown, hs, List.takeWhile_nil]
  refine same_many ?_ ?_ (.ofMore hStop hProgress) fun _ => hItem
  · intro s t hLevel
    rw [hMore s t hLevel]
  · intro s b hSeen
    exact hAhead s (by simpa using hSeen)

theorem same_commaSeparated {item : Parser α} (hKeeps : Keeps Shorter item) (hItem : Same item) :
    Same (commaSeparated item) := by
  refine same_bind hItem fun first => ?_
  refine same_bind (same_manyWhile ?_ ?_ ?_ ?_) fun rest => same_pure _
  · exact fun s t hLevel => hLevel.isAt _
  · exact fun s => Stream.shown_ne_nil_of_isAt (by simp)
  · intro s a t hComma hRun
    exact length_lt_of_advance hKeeps (Stream.tokens_ne_nil_of_isAt (by simp) hComma) hRun
  · exact same_then same_advance hItem

end

end Parser

end CToGo.Source
