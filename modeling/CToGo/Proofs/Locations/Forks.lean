import CToGo.Proofs.Locations.Moved
import CToGo.Proofs.Nesting.Budgets

/-!
# Streams that part

Two streams show the same tokens for a while, at possibly different places, and then part. A
parser that is run on both does the same on both, as long as the first run does not reach the
parting. There is one lemma for each way to put parsers together and one for each step.

* `Fork`: how two streams part. `Fork.Paired s t`: two streams before the parting.
* `Fork.Past s`: the first stream has reached the parting.
* `Fork.Follows R p q`: whatever `p` does before the parting, `q` does as well, up to `R`.
* `Fork.Closes R p q`: the same of a successful run that ends right at the parting, and that
  has not looked behind it.
-/

namespace CToGo.Source.Parser

/-- How two streams part: the places of the second are moved, and behind the tokens that they
share the first goes on with `left` and the second with `right`. -/
structure Fork where
  move : Location → Location
  left : List Token
  right : List Token

/-- No more tokens are left than before. -/
def Shorter (s t : Stream) : Prop := t.tokens.length ≤ s.tokens.length

theorem length_tokens_tail (s : Stream) : s.tail.tokens.length = s.tokens.length - 1 := by
  unfold Stream.tail
  split
  · next h => simp [h]
  · next h => simp [h]

theorem shorter_paidPassage : PaidPassage Shorter where
  refl s := Nat.le_refl _
  trans h h' := Nat.le_trans h' h
  tail s := by
    rw [Shorter, length_tokens_tail]
    exact Nat.sub_le _ _
  spend s cost := Nat.le_refl _
  refund h := h

/-- If the parser succeeds, it has read at least one token. -/
def Progresses {α : Type} (p : Parser α) : Prop :=
  ∀ s a t, p s = .ok a t → t.tokens.length < s.tokens.length

theorem progresses_bind_left {α β : Type} {p : Parser α} {f : α → Parser β}
    (hp : Progresses p) (hf : ∀ a, Keeps Shorter (f a)) : Progresses (p >>= f) := by
  intro s b t hRun
  obtain ⟨a, u, hFirst, hRest⟩ := bind_apply_eq_ok_iff.mp hRun
  have hAfter := hf a u
  rw [streamAfter, hRest] at hAfter
  exact Nat.lt_of_le_of_lt hAfter (hp s a u hFirst)

theorem progresses_bind_right {α β : Type} {p : Parser α} {f : α → Parser β}
    (hp : Keeps Shorter p) (hf : ∀ a, Progresses (f a)) : Progresses (p >>= f) := by
  intro s b t hRun
  obtain ⟨a, u, hFirst, hRest⟩ := bind_apply_eq_ok_iff.mp hRun
  have hBefore := hp s
  rw [streamAfter, hFirst] at hBefore
  exact Nat.lt_of_lt_of_le (hf a u b t hRest) hBefore

theorem Keeps.of_ok {α : Type} {R : Stream → Stream → Prop} {p : Parser α} (h : Keeps R p)
    {s t : Stream} {a : α} (hRun : p s = .ok a t) : R s t := by
  have hAfter := h s
  rwa [streamAfter, hRun] at hAfter

theorem Stream.tokens_ne_nil_of_isAt {s : Stream} {kind : TokenKind} (hKind : kind ≠ .endOfFile)
    (h : s.isAt kind = true) : s.tokens ≠ [] := by
  intro hs
  rw [Stream.isAt, Stream.peek?, hs] at h
  exact hKind (eq_of_beq h).symm

theorem length_lt_of_advance {α : Type} {p : Parser α} (hp : Keeps Shorter p) {s t : Stream}
    {a : α} (hs : s.tokens ≠ []) (hRun : (do advance; p) s = .ok a t) :
    t.tokens.length < s.tokens.length := by
  have hAfter : Shorter s.tail t := hp.of_ok hRun
  have hPos := List.length_pos_iff.mpr hs
  rw [Shorter, length_tokens_tail] at hAfter
  omega

theorem refunding_eq {α : Type} (p : Parser α) (s : Stream) :
    refunding p s = match p s with
      | .ok a t => .ok a { t with budget := s.budget }
      | .error e t => .error e t := by
  simp only [refunding, bind, EStateM.bind, get_eq]
  cases p s <;> rfl

theorem streamAfter_bind_of_ok {α β : Type} {p : Parser α} {f : α → Parser β} {s t : Stream}
    {a : α} (h : p s = .ok a t) : streamAfter (p >>= f) s = streamAfter (f a) t := by
  rw [streamAfter, streamAfter, bind_of_ok h]

/-- What the first part of a run has read is read in the end. -/
theorem shorter_streamAfter_bind {α β : Type} {p : Parser α} {f : α → Parser β} {s t : Stream}
    (h : Shorter s (streamAfter p t)) (hf : ∀ a, Keeps Shorter (f a)) :
    Shorter s (streamAfter (p >>= f) t) := by
  rw [streamAfter] at h
  cases hRun : p t with
  | ok a u =>
    rw [hRun] at h
    rw [streamAfter_bind_of_ok hRun]
    exact shorter_paidPassage.trans h (hf a u)
  | error e u =>
    rw [hRun] at h
    rw [streamAfter, bind_of_error hRun]
    exact h

/-- Every item that a repetition reads is at least one token long, and none begins where the
tokens end. -/
structure Consumes {α β : Type} (next? : Stream → Option β) (item : β → Parser α) : Prop where
  stop : ∀ s : Stream, s.tokens = [] → next? s = none
  item : ∀ s b a t, next? s = some b → item b s = .ok a t → t.tokens.length < s.tokens.length

/-- A repetition that goes on as long as `more` holds. -/
theorem Consumes.ofMore {α : Type} {more : Stream → Bool} {item : Parser α}
    (hStop : ∀ s : Stream, s.tokens = [] → more s = false)
    (hItem : ∀ s a t, more s = true → item s = .ok a t → t.tokens.length < s.tokens.length) :
    Consumes (fun s => if more s then some () else none) fun _ => item where
  stop s hs := by simp [hStop s hs]
  item s _ a t hSeen hRun := hItem s a t (by simpa using hSeen) hRun

section

variable {α β : Type} {next? : Stream → Option β} {item : β → Parser α} {s : Stream}

theorem manyWithin_of_none (h : next? s = none) (bound : List Token) :
    manyWithin next? item bound s = .ok [] s := by
  cases bound with
  | nil => rfl
  | cons _ _ =>
    simp only [manyWithin, bind, EStateM.bind, get_eq, h]
    rfl

theorem manyWithin_of_some {b : β} (h : next? s = some b) (token : Token) (bound : List Token) :
    manyWithin next? item (token :: bound) s = (do
      let a ← item b
      let rest ← manyWithin next? item bound
      return a :: rest) s := by
  simp only [manyWithin, bind, EStateM.bind, get_eq, h]

end

/-- A bound that is at least as long as the stream does not matter. -/
theorem manyWithin_congr {α β : Type} {next? : Stream → Option β} {item : β → Parser α}
    (h : Consumes next? item) {bound bound' : List Token} {s : Stream}
    (hBound : s.tokens.length ≤ bound.length) (hBound' : s.tokens.length ≤ bound'.length) :
    manyWithin next? item bound s = manyWithin next? item bound' s := by
  induction bound generalizing bound' s with
  | nil =>
    have hs : s.tokens = [] := List.length_eq_zero_iff.mp (Nat.le_zero.mp hBound)
    rw [manyWithin_of_none (h.stop s hs), manyWithin_of_none (h.stop s hs)]
  | cons token bound ih =>
    cases hSeen : next? s with
    | none => rw [manyWithin_of_none hSeen, manyWithin_of_none hSeen]
    | some b =>
      cases bound' with
      | nil =>
        have hs : s.tokens = [] := List.length_eq_zero_iff.mp (Nat.le_zero.mp hBound')
        rw [h.stop s hs] at hSeen
        cases hSeen
      | cons token' bound' =>
        rw [manyWithin_of_some hSeen, manyWithin_of_some hSeen]
        cases hRun : item b s with
        | error e t => rw [bind_of_error hRun, bind_of_error hRun]
        | ok a t =>
          have hLess := h.item s b a t hSeen hRun
          rw [List.length_cons] at hBound hBound'
          have hRest : manyWithin next? item bound t = manyWithin next? item bound' t :=
            ih (by omega) (by omega)
          rw [bind_of_ok hRun, bind_of_ok hRun]
          simp only [bind, EStateM.bind, hRest]

section

variable {α : Type} {more : Stream → Bool} {item : Parser α} {s : Stream}

theorem manyWhile_of_stop (h : more s = false) : manyWhile more item s = .ok [] s :=
  manyWithin_of_none (by rw [h]; rfl) _

/-- Where the repetition goes on, an item is read, and then the others. -/
theorem manyWhile_of_more (hStop : ∀ s : Stream, s.tokens = [] → more s = false)
    (hProgress : Progresses item) (h : more s = true) :
    manyWhile more item s = (do
      let a ← item
      let as ← manyWhile more item
      return a :: as) s := by
  let next? : Stream → Option Unit := fun s => if more s then some () else none
  have hConsumes : Consumes next? fun _ => item := .ofMore hStop fun s a t _ => hProgress s a t
  obtain ⟨token, rest, hTokens⟩ : ∃ token rest, s.tokens = token :: rest := by
    cases hTokens : s.tokens with
    | nil => simp [hStop s hTokens] at h
    | cons token rest => exact ⟨token, rest, rfl⟩
  have hSome : next? s = some () := by simp [next?, h]
  have hRun : manyWhile more item s = (do
      let a ← item
      let as ← manyWithin next? (fun _ => item) rest
      return a :: as) s := by
    calc manyWhile more item s
        = manyWithin next? (fun _ => item) s.tokens s := rfl
      _ = manyWithin next? (fun _ => item) (token :: rest) s := by rw [hTokens]
      _ = _ := manyWithin_of_some hSome token rest
  rw [hRun]
  cases hFirst : item s with
  | error e t => rw [bind_of_error hFirst, bind_of_error hFirst]
  | ok a t =>
    have hLess := hProgress s a t hFirst
    rw [hTokens, List.length_cons] at hLess
    -- What bounds the others is the rest of the tokens here and their own number there.
    have hRest : manyWithin next? (fun _ => item) rest t = manyWhile more item t :=
      manyWithin_congr hConsumes (Nat.le_of_lt_succ hLess) (Nat.le_refl _)
    rw [bind_of_ok hFirst, bind_of_ok hFirst]
    simp only [bind, EStateM.bind, hRest]

end

theorem refunding_eq_ok {α : Type} {p : Parser α} {s t : Stream} {a : α} :
    refunding p s = .ok a t ↔ ∃ u, p s = .ok a u ∧ t = { u with budget := s.budget } := by
  rw [refunding_eq]
  cases p s with
  | ok b u => simp [eq_comm]
  | error e u => simp

theorem expectSymbol_eq_ok {mark : Symbol} {context : String} {s t : Stream} {u : Unit} :
    expectSymbol mark context s = .ok u t ↔ s.isAt (.symbol mark) = true ∧ t = s.tail := by
  have hRun : expectSymbol mark context s = if s.isAt (.symbol mark) then .ok () s.tail
      else .error (s.unexpected (.token (.symbol mark) context)) s := by
    simp only [expectSymbol, expect, isAt, bind, EStateM.bind, get_eq, pure, EStateM.pure]
    split <;> rfl
  rw [hRun]
  split
  · next hAt => simp [hAt, eq_comm]
  · next hAt => simp [hAt]

namespace Fork

/-! ## Streams -/

/-- The first stream has reached the parting. If neither stream goes on behind what they share,
there is no parting to reach. -/
def Past (fork : Fork) (s : Stream) : Prop :=
  ¬ (fork.left = [] ∧ fork.right = []) ∧ s.tokens.length ≤ fork.left.length

/-- Two streams before the parting. -/
structure Paired (fork : Fork) (s t : Stream) : Prop where
  tokens : ∃ shared, s.tokens = shared ++ fork.left ∧
    t.tokens = shared.map (Token.move fork.move) ++ fork.right
  lastEnd : t.lastEnd = fork.move s.lastEnd
  ending : fork.left = [] → fork.right = [] → t.ending = fork.move s.ending
  budget : t.budget = s.budget

/-- Two ends of runs before the parting: results that are related, or the same error. -/
inductive SameEnd (fork : Fork) {α β : Type} (R : α → β → Prop) :
    EStateM.Result GrammarError Stream α → EStateM.Result GrammarError Stream β → Prop where
  | ok {a : α} {b : β} {s t : Stream} :
    R a b → fork.Paired s t → SameEnd fork R (.ok a s) (.ok b t)
  | error {s t : Stream} (e : GrammarError) :
    fork.Paired s t → SameEnd fork R (.error e s) (.error (e.move fork.move) t)

/-- On two streams before the parting, the parsers end alike unless the first run reaches the
parting. -/
def Follows (fork : Fork) {α β : Type} (R : α → β → Prop) (p : Parser α) (q : Parser β) : Prop :=
  Keeps Shorter p ∧
    ∀ s t, fork.Paired s t → fork.Past (streamAfter p s) ∨ fork.SameEnd R (p s) (q t)

/-- The first parser reads at least one token, and if it succeeds without reading behind the
parting, so does the second. -/
def Closes (fork : Fork) {α β : Type} (R : α → β → Prop) (p : Parser α) (q : Parser β) : Prop :=
  Progresses p ∧
    ∀ s t a s', fork.Paired s t → p s = .ok a s' → fork.left.length ≤ s'.tokens.length →
      ∃ b t', q t = .ok b t' ∧ R a b ∧ fork.Paired s' t'

variable {fork : Fork}

theorem Past.of_shorter {s t : Stream} (h : fork.Past s) (hShorter : Shorter s t) :
    fork.Past t :=
  ⟨h.1, Nat.le_trans hShorter h.2⟩

namespace Paired

variable {s t : Stream}

/-- Before the parting both streams show the same token, or both are at their end. -/
theorem cases_of_not_past (h : fork.Paired s t) (hs : ¬ fork.Past s) :
    (s.tokens = [] ∧ t.tokens = [] ∧ t.ending = fork.move s.ending) ∨
    ∃ tok rest rest', s.tokens = tok :: rest ∧ t.tokens = tok.move fork.move :: rest' := by
  obtain ⟨shared, hLeft, hRight⟩ := h.tokens
  cases shared with
  | nil =>
    have hWhole : fork.left = [] ∧ fork.right = [] :=
      Classical.byContradiction fun hOpen => hs ⟨hOpen, Nat.le_of_eq (congrArg _ hLeft)⟩
    refine .inl ⟨?_, ?_, h.ending hWhole.1 hWhole.2⟩
    · rw [hLeft, hWhole.1]
      rfl
    · rw [hRight, hWhole.2]
      rfl
  | cons tok shared => exact .inr ⟨tok, _, _, hLeft, hRight⟩

theorem peek? (h : fork.Paired s t) (hs : ¬ fork.Past s) : t.peek? = s.peek? := by
  rcases h.cases_of_not_past hs with ⟨hLeft, hRight, -⟩ | ⟨tok, rest, rest', hLeft, hRight⟩
  · simp [Stream.peek?, hLeft, hRight]
  · simp [Stream.peek?, hLeft, hRight, Token.move]

theorem isAt (h : fork.Paired s t) (hs : ¬ fork.Past s) (kind : TokenKind) :
    t.isAt kind = s.isAt kind := by
  rw [Stream.isAt, Stream.isAt, h.peek? hs]

theorem location (h : fork.Paired s t) (hs : ¬ fork.Past s) :
    t.location = fork.move s.location := by
  rcases h.cases_of_not_past hs with ⟨hLeft, hRight, hEnding⟩ | ⟨tok, rest, rest', hLeft, hRight⟩
  · simp [Stream.location, hLeft, hRight, hEnding]
  · simp [Stream.location, hLeft, hRight, Token.move, Span.move]

theorem unexpected (h : fork.Paired s t) (hs : ¬ fork.Past s) (expected : Expectation) :
    t.unexpected expected = (s.unexpected expected).move fork.move := by
  have hLocation := h.location hs
  rcases h.cases_of_not_past hs with ⟨hLeft, hRight, -⟩ | ⟨tok, rest, rest', hLeft, hRight⟩
  · simp only [Stream.unexpected, hLeft, hRight, hLocation, GrammarError.move]
  · simp only [Stream.unexpected, hLeft, hRight, Token.move, hLocation]
    by_cases hEnd : tok.kind = .endOfFile
    · simp only [hEnd, if_true, GrammarError.move]
    · simp only [hEnd, if_false, GrammarError.move, Token.move]

theorem tail (h : fork.Paired s t) (hs : ¬ fork.Past s) : fork.Paired s.tail t.tail := by
  obtain ⟨shared, hLeft, hRight⟩ := h.tokens
  cases shared with
  | nil =>
    rcases h.cases_of_not_past hs with ⟨hLeft', hRight', -⟩ | ⟨tok, rest, rest', hLeft', hRight'⟩
    · have hs' : s.tail = s := by simp [Stream.tail, hLeft']
      have ht' : t.tail = t := by simp [Stream.tail, hRight']
      rw [hs', ht']
      exact h
    · refine absurd ⟨?_, Nat.le_of_eq (congrArg _ hLeft)⟩ hs
      rintro ⟨hNil, -⟩
      rw [hLeft', hNil] at hLeft
      cases hLeft
  | cons tok shared =>
    have hs' : s.tail = { s with tokens := shared ++ fork.left, lastEnd := tok.span.stop } := by
      simp [Stream.tail, hLeft]
    have ht' : t.tail = { t with
        tokens := shared.map (Token.move fork.move) ++ fork.right
        lastEnd := fork.move tok.span.stop } := by
      simp [Stream.tail, hRight, Token.move, Span.move]
    rw [hs', ht']
    exact ⟨⟨shared, rfl, rfl⟩, rfl, h.ending, h.budget⟩

/-- The same payment leaves the streams before the parting. -/
theorem withBudget (h : fork.Paired s t) (n : Nat) :
    fork.Paired { s with budget := n } { t with budget := n } :=
  ⟨h.tokens, h.lastEnd, h.ending, rfl⟩

end Paired

/-! ## Composition -/

section

variable {α β α' β' : Type} {R : α → α' → Prop} {S : β → β' → Prop} {p : Parser α}
  {q : Parser α'}

theorem SameEnd.mono {R' : α → α' → Prop} {x : EStateM.Result GrammarError Stream α}
    {y : EStateM.Result GrammarError Stream α'} (h : fork.SameEnd R x y)
    (hR : ∀ a b, R a b → R' a b) : fork.SameEnd R' x y := by
  cases h with
  | ok hab hRest => exact .ok (hR _ _ hab) hRest
  | error e hRest => exact .error e hRest

theorem Follows.mono {R' : α → α' → Prop} (h : fork.Follows R p q)
    (hR : ∀ a b, R a b → R' a b) : fork.Follows R' p q := by
  refine ⟨h.1, fun s t hPaired => ?_⟩
  rcases h.2 s t hPaired with hPast | hSame
  · exact .inl hPast
  · exact .inr (hSame.mono hR)

theorem follows_pure {a : α} {b : α'} (h : R a b) : fork.Follows R (pure a) (pure b) :=
  ⟨keeps_pure shorter_paidPassage.toPassage a, fun _ _ hPaired => .inr (.ok h hPaired)⟩

theorem follows_throw (e : GrammarError) :
    fork.Follows R (throw e) (throw (e.move fork.move)) :=
  ⟨keeps_throw shorter_paidPassage.toPassage e, fun _ _ hPaired => .inr (.error e hPaired)⟩

theorem follows_bind {f : α → Parser β} {g : α' → Parser β'} (hp : fork.Follows R p q)
    (hf : ∀ a b, R a b → fork.Follows S (f a) (g b)) (hKeeps : ∀ a, Keeps Shorter (f a)) :
    fork.Follows S (p >>= f) (q >>= g) := by
  refine ⟨keeps_bind shorter_paidPassage.toPassage hp.1 hKeeps, fun s t hPaired => ?_⟩
  have hEnd := hp.2 s t hPaired
  simp only [streamAfter, bind, EStateM.bind] at hEnd ⊢
  cases hRun : p s with
  | ok a s' =>
    rw [hRun] at hEnd
    rcases hEnd with hPast | hSame
    · exact .inl (hPast.of_shorter (hKeeps a s'))
    · generalize q t = y at hSame
      cases hSame with
      | ok hR hRest => exact (hf _ _ hR).2 _ _ hRest
  | error e s' =>
    rw [hRun] at hEnd
    rcases hEnd with hPast | hSame
    · exact .inl hPast
    · generalize q t = y at hSame
      cases hSame with
      | error _ hRest => exact .inr (.error e hRest)

end

section

variable {α β α' β' : Type} {S : β → β' → Prop} {m : α → α'} {p : Parser α} {q : Parser α'}

/-- The result of the second run is the result of the first, changed by `m`. -/
def Maps (m : α → α') (a : α) (b : α') : Prop := b = m a

theorem follows_bind_maps {f : α → Parser β} {g : α' → Parser β'}
    (hp : fork.Follows (Maps m) p q) (hf : ∀ a, fork.Follows S (f a) (g (m a))) :
    fork.Follows S (p >>= f) (q >>= g) :=
  follows_bind hp (fun a _ h => h ▸ hf a) fun a => (hf a).1

/-- A step whose result does not count. -/
theorem follows_then {u v : Parser Unit} {r : Parser β} {r' : Parser β'}
    (hStep : fork.Follows (Maps id) u v) (hRest : fork.Follows S r r') :
    fork.Follows S (do u; r) (do v; r') :=
  follows_bind_maps hStep fun _ => hRest

theorem follows_map {f : α → β} {g : α' → β'} (hp : fork.Follows (Maps m) p q)
    (hf : ∀ a, S (f a) (g (m a))) : fork.Follows S (f <$> p) (g <$> q) := by
  rw [map_eq_pure_bind, map_eq_pure_bind]
  exact follows_bind_maps hp fun a => follows_pure (hf a)

theorem follows_ite {c : Prop} [Decidable c] {u u' : Parser β} {v v' : Parser β'}
    (hThen : fork.Follows S u v) (hElse : fork.Follows S u' v') :
    fork.Follows S (if c then u else u') (if c then v else v') := by
  split
  · exact hThen
  · exact hElse

end

/-! ## Steps -/

section

variable {α β : Type} {R : α → β → Prop}

/-- A step that looks at the stream and leaves it alone. -/
theorem follows_look {p : Parser α} {q : Parser β} (hLook : ∀ s, streamAfter p s = s)
    (h : ∀ s t, fork.Paired s t → ¬ fork.Past s → fork.SameEnd R (p s) (q t)) :
    fork.Follows R p q := by
  refine ⟨fun s => ?_, fun s t hPaired => ?_⟩
  · rw [hLook]
    exact shorter_paidPassage.refl s
  · rw [hLook]
    by_cases hPast : fork.Past s
    · exact .inl hPast
    · exact .inr (h s t hPaired hPast)

theorem follows_peek? : fork.Follows (Maps id) peek? peek? :=
  follows_look (fun _ => rfl) fun _ _ hPaired hs => .ok (hPaired.peek? hs) hPaired

theorem follows_isAt (kind : TokenKind) : fork.Follows (Maps id) (isAt kind) (isAt kind) :=
  follows_look (fun _ => rfl) fun _ _ hPaired hs => .ok (hPaired.isAt hs kind) hPaired

theorem follows_here : fork.Follows (Maps fork.move) here here :=
  follows_look (fun _ => rfl) fun _ _ hPaired hs => .ok (hPaired.location hs) hPaired

theorem follows_unexpected (expected : Expectation) :
    fork.Follows R (unexpected expected) (unexpected expected) := by
  refine follows_look (fun _ => rfl) fun s t hPaired hs => ?_
  have hSame : fork.SameEnd R (.error (s.unexpected expected) s)
      (.error ((s.unexpected expected).move fork.move) t) := .error _ hPaired
  rwa [← hPaired.unexpected hs] at hSame

/-- The end of the token read last belongs to what both streams have shared. -/
theorem follows_spanFrom (start : Location) :
    fork.Follows (Maps (Span.move fork.move)) (spanFrom start)
      (spanFrom (fork.move start)) := by
  refine ⟨fun s => shorter_paidPassage.refl s, fun s t hPaired => .inr (.ok ?_ hPaired)⟩
  rw [Maps, Span.move, hPaired.lastEnd]

theorem follows_advance : fork.Follows (Maps id) advance advance := by
  refine ⟨keeps_advance shorter_paidPassage.toPassage, fun s t hPaired => ?_⟩
  by_cases hPast : fork.Past s
  · exact .inl (hPast.of_shorter (shorter_paidPassage.tail s))
  · exact .inr (.ok rfl (hPaired.tail hPast))

theorem follows_spend (cost : Nat) : fork.Follows (Maps id) (spend cost) (spend cost) := by
  refine ⟨keeps_spend shorter_paidPassage cost, fun s t hPaired => ?_⟩
  rw [streamAfter, spend_eq, spend_eq, hPaired.budget]
  by_cases hCost : s.budget < cost
  · rw [if_pos hCost, if_pos hCost]
    by_cases hPast : fork.Past s
    · exact .inl hPast
    · rw [hPaired.location hPast]
      exact .inr (.error (.tooDeep s.location) hPaired)
  · rw [if_neg hCost, if_neg hCost]
    exact .inr (.ok rfl (hPaired.withBudget _))

theorem follows_refunding {p : Parser α} {q : Parser β} (h : fork.Follows R p q) :
    fork.Follows R (refunding p) (refunding q) := by
  refine ⟨keeps_refunding shorter_paidPassage h.1, fun s t hPaired => ?_⟩
  have hEnd := h.2 s t hPaired
  rw [streamAfter, refunding_eq, refunding_eq]
  rw [streamAfter] at hEnd
  cases hRun : p s with
  | ok a s' =>
    rw [hRun] at hEnd
    rcases hEnd with hPast | hSame
    · exact .inl hPast
    · generalize q t = y at hSame
      cases hSame with
      | ok hR hRest => exact .inr (.ok hR (hPaired.budget ▸ hRest.withBudget s.budget))
  | error e s' =>
    rw [hRun] at hEnd
    rcases hEnd with hPast | hSame
    · exact .inl hPast
    · generalize q t = y at hSame
      cases hSame with
      | error _ hRest => exact .inr (.error e hRest)

theorem follows_accept (kind : TokenKind) :
    fork.Follows (Maps id) (accept kind) (accept kind) := by
  refine follows_bind_maps (follows_isAt kind) fun found => ?_
  exact follows_ite (follows_then follows_advance (follows_pure rfl)) (follows_pure rfl)

theorem follows_expectSymbol (mark : Symbol) (context : String) :
    fork.Follows (Maps id) (expectSymbol mark context) (expectSymbol mark context) := by
  refine follows_bind_maps (follows_isAt _) fun found => ?_
  exact follows_ite follows_advance (follows_unexpected _)

theorem follows_identifier (context : String) :
    fork.Follows (Maps id) (identifier context) (identifier context) := by
  refine follows_bind_maps follows_peek? fun kind? => ?_
  dsimp only [id]
  split
  · exact follows_then follows_advance (follows_pure rfl)
  · exact follows_unexpected _

/-- A node takes its span last. -/
theorem follows_spanned {f : Span → α} {g : Span → β} (start : Location)
    (h : ∀ span, R (f span) (g (span.move fork.move))) :
    fork.Follows R (do return f (← spanFrom start))
      (do return g (← spanFrom (fork.move start))) :=
  follows_bind_maps (follows_spanFrom start) fun span => follows_pure (h span)

end

/-! ## Repetition -/

section

variable {α β : Type} {m : α → α}

theorem follows_manyWithin {next? : Stream → Option β} {item : β → Parser α}
    (hNext : ∀ s t, fork.Paired s t → ¬ fork.Past s → next? t = next? s)
    (hItem : ∀ b, fork.Follows (Maps m) (item b) (item b)) (bound : List Token) :
    fork.Follows (Maps (List.map m)) (manyWithin next? item bound)
      (manyWithin next? item bound) := by
  have hSeen : fork.Follows (Maps id) (seen next?) (seen next?) :=
    follows_look (fun _ => rfl) fun s t hPaired hs => .ok (hNext s t hPaired hs) hPaired
  induction bound with
  | nil => exact follows_pure rfl
  | cons token bound ih =>
    rw [manyWithin_cons]
    refine follows_bind_maps hSeen fun b? => ?_
    dsimp only [id]
    split
    · exact follows_pure rfl
    · next b =>
      refine follows_bind_maps (hItem b) fun a => ?_
      exact follows_bind_maps ih fun as => follows_pure rfl

theorem follows_many {next? : Stream → Option β} {item : β → Parser α}
    (hNext : ∀ s t, fork.Paired s t → ¬ fork.Past s → next? t = next? s)
    (hConsumes : Consumes next? item)
    (hItem : ∀ b, fork.Follows (Maps m) (item b) (item b)) :
    fork.Follows (Maps (List.map m)) (many next? item) (many next? item) := by
  refine ⟨keeps_many shorter_paidPassage.toPassage next? fun b => (hItem b).1, ?_⟩
  intro s t hPaired
  -- The tokens of both streams together bound either run.
  have hLeft : many next? item s = manyWithin next? item (s.tokens ++ t.tokens) s :=
    manyWithin_congr hConsumes (Nat.le_refl _) (by simp)
  have hRight : many next? item t = manyWithin next? item (s.tokens ++ t.tokens) t :=
    manyWithin_congr hConsumes (Nat.le_refl _) (by simp)
  rw [streamAfter, hLeft, hRight]
  exact (follows_manyWithin hNext hItem _).2 s t hPaired

theorem follows_manyWhile {more : Stream → Bool} {item : Parser α}
    (hMore : ∀ s t, fork.Paired s t → ¬ fork.Past s → more t = more s)
    (hStop : ∀ s : Stream, s.tokens = [] → more s = false)
    (hProgress : ∀ s a t, more s = true → item s = .ok a t → t.tokens.length < s.tokens.length)
    (hItem : fork.Follows (Maps m) item item) :
    fork.Follows (Maps (List.map m)) (manyWhile more item) (manyWhile more item) := by
  refine follows_many ?_ (.ofMore hStop hProgress) fun _ => hItem
  intro s t hPaired hs
  rw [hMore s t hPaired hs]

theorem follows_commaSeparated {item : Parser α} (hItem : fork.Follows (Maps m) item item) :
    fork.Follows (Maps (List.map m)) (commaSeparated item) (commaSeparated item) := by
  refine follows_bind_maps hItem fun first => ?_
  have hAfter : fork.Follows (Maps m) (do advance; item) (do advance; item) :=
    follows_then follows_advance hItem
  refine follows_bind_maps (follows_manyWhile (fun s t hPaired hs => hPaired.isAt hs _) ?_ ?_
    hAfter) fun rest => follows_pure rfl
  · intro s hs
    simp [Stream.isAt, Stream.peek?, hs]
  · intro s a t hComma hRun
    exact length_lt_of_advance hItem.1 (Stream.tokens_ne_nil_of_isAt (by simp) hComma) hRun

end

/-! ## Runs that end at the parting -/

section

variable {α β α' β' : Type} {R : α → α' → Prop} {S : β → β' → Prop} {p : Parser α}
  {q : Parser α'} {f : α → Parser β} {g : α' → Parser β'}

/-- A run that ends before the parting has not looked behind it. -/
theorem Follows.of_ok (h : fork.Follows R p q) {s t s' : Stream} {a : α}
    (hPaired : fork.Paired s t) (hRun : p s = .ok a s')
    (hBefore : fork.left.length < s'.tokens.length) :
    ∃ b t', q t = .ok b t' ∧ R a b ∧ fork.Paired s' t' := by
  have hEnd := h.2 s t hPaired
  rw [streamAfter, hRun] at hEnd
  rcases hEnd with hPast | hSame
  · exact absurd hPast.2 (Nat.not_le.mpr hBefore)
  · generalize hq : q t = y at hSame
    cases hSame with
    | ok hR hRest => exact ⟨_, _, rfl, hR, hRest⟩

/-- What is still to be read keeps the first part of the run away from the parting. -/
theorem closes_bind {m : α → α'} (hp : fork.Follows (Maps m) p q)
    (hf : ∀ a, fork.Closes S (f a) (g (m a))) : fork.Closes S (p >>= f) (q >>= g) := by
  refine ⟨progresses_bind_right hp.1 fun a => (hf a).1, ?_⟩
  intro s t c s' hPaired hRun hAt
  obtain ⟨a, u, hFirst, hRest⟩ := bind_apply_eq_ok_iff.mp hRun
  have hLess := (hf a).1 u c s' hRest
  obtain ⟨b, v, hq, rfl, hMid⟩ := hp.of_ok hPaired hFirst (Nat.lt_of_le_of_lt hAt hLess)
  obtain ⟨d, t', hg, hS, hEnd⟩ := (hf a).2 u v c s' hMid hRest hAt
  exact ⟨d, t', bind_apply_eq_ok_iff.mpr ⟨_, v, hq, hg⟩, hS, hEnd⟩

/-- A step whose result does not count. -/
theorem closes_then {u v : Parser Unit} {r : Parser β} {r' : Parser β'}
    (hStep : fork.Follows (Maps id) u v) (hRest : fork.Closes S r r') :
    fork.Closes S (do u; r) (do v; r') :=
  closes_bind hStep fun _ => hRest

theorem closes_expectSymbol (mark : Symbol) (context : String) :
    fork.Closes (Maps id) (expectSymbol mark context) (expectSymbol mark context) := by
  have hShorter : ∀ s : Stream, s.isAt (.symbol mark) = true →
      s.tokens.length = s.tail.tokens.length + 1 := by
    intro s hMark
    have hPos := List.length_pos_iff.mpr (Stream.tokens_ne_nil_of_isAt (by simp) hMark)
    rw [length_tokens_tail]
    omega
  refine ⟨?_, ?_⟩
  · intro s u s' hRun
    obtain ⟨hMark, rfl⟩ := expectSymbol_eq_ok.mp hRun
    rw [hShorter s hMark]
    exact Nat.lt_succ_self _
  · intro s t u s' hPaired hRun hAt
    obtain ⟨hMark, rfl⟩ := expectSymbol_eq_ok.mp hRun
    have hBefore : ¬ fork.Past s := by
      rintro ⟨-, hPassed⟩
      rw [hShorter s hMark] at hPassed
      omega
    have hMark' : t.isAt (.symbol mark) = true := by rwa [hPaired.isAt hBefore]
    exact ⟨(), t.tail, expectSymbol_eq_ok.mpr ⟨hMark', rfl⟩, rfl, hPaired.tail hBefore⟩

/-- What looks at nothing behind the parting may follow. -/
theorem Closes.andThen (hp : fork.Closes R p q) (hKeeps : ∀ a, Keeps Shorter (f a))
    (hf : ∀ a b s t, R a b → fork.Paired s t → fork.SameEnd S (f a s) (g b t)) :
    fork.Closes S (p >>= f) (q >>= g) := by
  refine ⟨progresses_bind_left hp.1 hKeeps, ?_⟩
  intro s t c s' hPaired hRun hAt
  obtain ⟨a, u, hFirst, hRest⟩ := bind_apply_eq_ok_iff.mp hRun
  have hShorter : Shorter u s' := (hKeeps a).of_ok hRest
  obtain ⟨b, v, hq, hR, hMid⟩ := hp.2 s t a u hPaired hFirst (Nat.le_trans hAt hShorter)
  have hEnd := hf a b u v hR hMid
  rw [hRest] at hEnd
  generalize hg : g b v = y at hEnd
  cases hEnd with
  | ok hS hDone => exact ⟨_, _, bind_apply_eq_ok_iff.mpr ⟨b, v, hq, hg⟩, hS, hDone⟩

/-- So may a result. -/
theorem Closes.result {u v : Parser Unit} {b : β} {b' : β'} (hu : fork.Closes (Maps id) u v)
    (h : S b b') : fork.Closes S (do u; return b) (do v; return b') :=
  hu.andThen (fun _ => keeps_pure shorter_paidPassage.toPassage b)
    fun _ _ _ _ _ hPaired => .ok h hPaired

theorem closes_ite {c : Prop} [Decidable c] {u u' : Parser β} {v v' : Parser β'}
    (hThen : fork.Closes S u v) (hElse : fork.Closes S u' v') :
    fork.Closes S (if c then u else u') (if c then v else v') := by
  split
  · exact hThen
  · exact hElse

/-- So may the end of a node, which takes its span. -/
theorem Closes.spanned {node : α → Span → β} {node' : α' → Span → β'} (start : Location)
    (hp : fork.Closes R p q)
    (h : ∀ a b span, R a b → S (node a span) (node' b (span.move fork.move))) :
    fork.Closes S (do let a ← p; return node a (← spanFrom start))
      (do let b ← q; return node' b (← spanFrom (fork.move start))) := by
  refine hp.andThen (fun a => keeps_spanned shorter_paidPassage.toPassage start (node a)) ?_
  intro a b s t hR hPaired
  have hSpan : (⟨fork.move start, t.lastEnd⟩ : Span) = Span.move fork.move ⟨start, s.lastEnd⟩ := by
    rw [Span.move, hPaired.lastEnd]
  have hNode := h a b ⟨start, s.lastEnd⟩ hR
  rw [← hSpan] at hNode
  exact .ok hNode hPaired

theorem Closes.refunding (hp : fork.Closes R p q) :
    fork.Closes R (refunding p) (refunding q) := by
  refine ⟨?_, ?_⟩
  · intro s a s' hRun
    obtain ⟨u, hFirst, rfl⟩ := refunding_eq_ok.mp hRun
    exact hp.1 s a u hFirst
  · intro s t a s' hPaired hRun hAt
    obtain ⟨u, hFirst, rfl⟩ := refunding_eq_ok.mp hRun
    obtain ⟨b, v, hq, hR, hMid⟩ := hp.2 s t a u hPaired hFirst hAt
    exact ⟨b, _, refunding_eq_ok.mpr ⟨v, hq, rfl⟩, hR,
      hPaired.budget ▸ hMid.withBudget s.budget⟩

end

end Fork

end CToGo.Source.Parser
