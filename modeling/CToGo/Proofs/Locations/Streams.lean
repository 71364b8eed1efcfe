import CToGo.Proofs.Grammar.Outcome
import Mathlib.Data.List.Forall2

/-!
# Two runs of a parser

A parser is run on two streams that show the same kinds of tokens at different places. The runs
agree if they succeed with related results or fail with the same error, whatever the places.
There is one lemma for each way to put parsers together and one for each step.

* `Stream.Alike`, `GrammarError.Alike`: equal up to locations.
* `Agree R p q`: on streams that are alike, `p` and `q` do the same, up to `R`.
* `agree_bind`, `agree_spend`, ...: the steps.
* `agree_many`: two repetitions have the same number of items.
-/

namespace CToGo.Source.Parser

/-! ## Streams and errors up to locations -/

/-- The streams show the same kinds of tokens, and as much of the budget is left. -/
structure Stream.Alike (s t : Stream) : Prop where
  kinds : s.kinds = t.kinds
  budget : s.budget = t.budget

/-- The same error, possibly at another place. -/
inductive GrammarError.Alike : GrammarError → GrammarError → Prop where
  | unexpectedToken (expected : Expectation) {t u : Token} : t.kind = u.kind →
    GrammarError.Alike (.unexpectedToken expected t) (.unexpectedToken expected u)
  | unexpectedEnd (expected : Expectation) (l m : Location) :
    GrammarError.Alike (.unexpectedEnd expected l) (.unexpectedEnd expected m)
  | unsuitable (expected : Expectation) (description : String) (l m : Location) :
    GrammarError.Alike (.unsuitable expected description l) (.unsuitable expected description m)
  | tooDeep (l m : Location) : GrammarError.Alike (.tooDeep l) (.tooDeep m)

namespace Stream.Alike

variable {s t : Stream}

theorem peek? (h : s.Alike t) : s.peek? = t.peek? := by
  rw [peek?_eq_head?, peek?_eq_head?, h.kinds]

theorem isAt (h : s.Alike t) (kind : TokenKind) : s.isAt kind = t.isAt kind := by
  rw [Stream.isAt, Stream.isAt, h.peek?]

theorem length_tokens (h : s.Alike t) : s.tokens.length = t.tokens.length := by
  have hLength := congrArg List.length h.kinds
  rwa [Stream.kinds, Stream.kinds, List.length_map, List.length_map] at hLength

theorem tail (h : s.Alike t) : s.tail.Alike t.tail where
  kinds := by rw [kinds_tail, kinds_tail, h.kinds]
  budget := by rw [budget_tail, budget_tail, h.budget]

theorem unexpected (h : s.Alike t) (expected : Expectation) :
    (s.unexpected expected).Alike (t.unexpected expected) := by
  have hKinds : s.tokens.map (·.kind) = t.tokens.map (·.kind) := h.kinds
  unfold Stream.unexpected
  cases hs : s.tokens with
  | nil =>
    cases ht : t.tokens with
    | nil => exact .unexpectedEnd expected _ _
    | cons v more => simp [hs, ht] at hKinds
  | cons u rest =>
    cases ht : t.tokens with
    | nil => simp [hs, ht] at hKinds
    | cons v more =>
      rw [hs, ht, List.map_cons, List.map_cons, List.cons.injEq] at hKinds
      have hHead := hKinds.1
      by_cases hEnd : u.kind = .endOfFile
      · have hEnd' : v.kind = .endOfFile := hHead ▸ hEnd
        simp only [hEnd, hEnd', if_true]
        exact .unexpectedEnd expected _ _
      · have hEnd' : v.kind ≠ .endOfFile := hHead ▸ hEnd
        simp only [hEnd, hEnd', if_false]
        exact .unexpectedToken expected hHead

end Stream.Alike

/-! ## Agreement -/

/-- Two results that are related, or two errors that are alike. -/
inductive SameEnd {α : Type} (R : α → α → Prop) :
    EStateM.Result GrammarError Stream α → EStateM.Result GrammarError Stream α → Prop where
  | ok {a b : α} {s t : Stream} : R a b → s.Alike t → SameEnd R (.ok a s) (.ok b t)
  | error {e f : GrammarError} (s t : Stream) : e.Alike f → SameEnd R (.error e s) (.error f t)

/-- On streams that are alike, the parsers end alike. -/
def Agree {α : Type} (R : α → α → Prop) (p q : Parser α) : Prop :=
  ∀ s t : Stream, s.Alike t → SameEnd R (p s) (q t)

section

variable {α β : Type} {R : α → α → Prop} {S : β → β → Prop} {p q : Parser α}

theorem SameEnd.mono {R' : α → α → Prop} {x y : EStateM.Result GrammarError Stream α}
    (h : SameEnd R x y) (hR : ∀ a b, R a b → R' a b) : SameEnd R' x y := by
  cases h with
  | ok hab hRest => exact .ok (hR _ _ hab) hRest
  | error _ _ hError => exact .error _ _ hError

theorem Agree.mono {R' : α → α → Prop} (h : Agree R p q) (hR : ∀ a b, R a b → R' a b) :
    Agree R' p q :=
  fun s t hAlike => (h s t hAlike).mono hR

theorem agree_pure {a b : α} (h : R a b) : Agree R (pure a) (pure b) :=
  fun _ _ hAlike => .ok h hAlike

theorem agree_throw {e f : GrammarError} (h : e.Alike f) : Agree R (throw e) (throw f) :=
  fun s t _ => .error s t h

theorem agree_bind {f g : α → Parser β} (hp : Agree R p q)
    (hf : ∀ a b, R a b → Agree S (f a) (g b)) : Agree S (p >>= f) (q >>= g) := by
  intro s t hAlike
  have hEnd := hp s t hAlike
  simp only [bind, EStateM.bind]
  generalize p s = x at hEnd
  generalize q t = y at hEnd
  cases hEnd with
  | ok hR hRest => exact hf _ _ hR _ _ hRest
  | error _ _ hError => exact .error _ _ hError

/-- A step whose result does not count. -/
theorem agree_then {u v : Parser Unit} (hStep : Agree Eq u v) (hRest : Agree R p q) :
    Agree R (do u; p) (do v; q) :=
  agree_bind hStep fun _ _ _ => hRest

theorem agree_map {f : α → β} (hp : Agree R p q) (hf : ∀ a b, R a b → S (f a) (f b)) :
    Agree S (f <$> p) (f <$> q) := by
  intro s t hAlike
  have hEnd := hp s t hAlike
  simp only [Functor.map, EStateM.map]
  generalize p s = x at hEnd
  generalize q t = y at hEnd
  cases hEnd with
  | ok hR hRest => exact .ok (hf _ _ hR) hRest
  | error _ _ hError => exact .error _ _ hError

theorem agree_ite {c : Prop} [Decidable c] {p' q' : Parser α} (hThen : Agree R p q)
    (hElse : Agree R p' q') : Agree R (if c then p else p') (if c then q else q') := by
  split
  · exact hThen
  · exact hElse

/-! ## Steps -/

theorem agree_get : Agree Stream.Alike get get :=
  fun _ _ hAlike => .ok hAlike hAlike

theorem agree_peek? : Agree Eq peek? peek? :=
  fun _ _ hAlike => .ok hAlike.peek? hAlike

theorem agree_isAt (kind : TokenKind) : Agree Eq (isAt kind) (isAt kind) :=
  fun _ _ hAlike => .ok (hAlike.isAt kind) hAlike

/-- Locations are not compared. -/
theorem agree_here : Agree (fun _ _ => True) here here :=
  fun _ _ hAlike => .ok trivial hAlike

theorem agree_spanFrom (l m : Location) : Agree (fun _ _ => True) (spanFrom l) (spanFrom m) :=
  fun _ _ hAlike => .ok trivial hAlike

theorem agree_advance : Agree Eq advance advance :=
  fun _ _ hAlike => .ok rfl hAlike.tail

theorem agree_unexpected (expected : Expectation) :
    Agree R (unexpected expected) (unexpected expected) :=
  fun s t hAlike => .error s t (hAlike.unexpected expected)

theorem agree_spend (cost : Nat) : Agree Eq (spend cost) (spend cost) := by
  refine agree_bind agree_get ?_
  intro s t hAlike
  by_cases hCost : s.budget < cost
  · have hCost' : t.budget < cost := hAlike.budget ▸ hCost
    simp only [hCost, hCost', if_true]
    exact agree_throw (.tooDeep _ _)
  · have hCost' : ¬ t.budget < cost := hAlike.budget ▸ hCost
    simp only [hCost, hCost', if_false]
    intro _ _ _
    exact .ok rfl ⟨hAlike.kinds, congrArg (· - cost) hAlike.budget⟩

theorem agree_refunding (h : Agree R p q) : Agree R (refunding p) (refunding q) := by
  refine agree_bind agree_get ?_
  intro s t hAlike
  refine agree_bind h ?_
  intro a b hR s' t' hRest
  exact .ok hR ⟨hRest.kinds, hAlike.budget⟩

theorem agree_accept (kind : TokenKind) : Agree Eq (accept kind) (accept kind) := by
  refine agree_bind (agree_isAt kind) ?_
  rintro found _ rfl
  exact agree_ite (agree_then agree_advance (agree_pure rfl)) (agree_pure rfl)

theorem agree_expectSymbol (mark : Symbol) (context : String) :
    Agree Eq (expectSymbol mark context) (expectSymbol mark context) := by
  refine agree_bind (agree_isAt _) ?_
  rintro found _ rfl
  exact agree_ite agree_advance (agree_unexpected _)

theorem agree_identifier (context : String) :
    Agree Eq (identifier context) (identifier context) := by
  refine agree_bind agree_peek? ?_
  rintro kind? _ rfl
  split
  · exact agree_then agree_advance (agree_pure rfl)
  · exact agree_unexpected _

/-! ## Repetition -/

theorem agree_manyWithin {next? : Stream → Option β} {item : β → Parser α}
    (hNext : ∀ s t, s.Alike t → next? s = next? t) (hItem : ∀ b, Agree R (item b) (item b))
    {bound bound' : List Token} (h : bound.length = bound'.length) :
    Agree (List.Forall₂ R) (manyWithin next? item bound) (manyWithin next? item bound') := by
  -- The bounds are different tokens; only their number is used.
  induction bound generalizing bound' with
  | nil =>
    obtain rfl := List.length_eq_zero_iff.mp h.symm
    exact agree_pure .nil
  | cons _ bound ih =>
    cases bound' with
    | nil => cases h
    | cons _ bound' =>
      refine agree_bind agree_get ?_
      intro s t hAlike
      rw [hNext s t hAlike]
      split
      · exact agree_pure .nil
      · next b _ =>
        refine agree_bind (hItem b) ?_
        intro a a' ha
        refine agree_bind (ih (Nat.succ.inj h)) ?_
        intro as as' has
        exact agree_pure (.cons ha has)

theorem agree_many {next? : Stream → Option β} {item : β → Parser α}
    (hNext : ∀ s t, s.Alike t → next? s = next? t) (hItem : ∀ b, Agree R (item b) (item b)) :
    Agree (List.Forall₂ R) (many next? item) (many next? item) := by
  refine agree_bind agree_get ?_
  intro s t hAlike
  exact agree_manyWithin hNext hItem hAlike.length_tokens

theorem agree_manyWhile {more : Stream → Bool} (hMore : ∀ s t, s.Alike t → more s = more t)
    (hItem : Agree R p p) : Agree (List.Forall₂ R) (manyWhile more p) (manyWhile more p) := by
  refine agree_many ?_ fun _ => hItem
  intro s t hAlike
  rw [hMore s t hAlike]

theorem agree_commaSeparated (hItem : Agree R p p) :
    Agree (List.Forall₂ R) (commaSeparated p) (commaSeparated p) := by
  refine agree_bind hItem ?_
  intro a b hFirst
  have hAfter : Agree R (do advance; p) (do advance; p) :=
    agree_then agree_advance hItem
  refine agree_bind (agree_manyWhile (fun s t hAlike => hAlike.isAt _) hAfter) ?_
  intro as bs hRest
  exact agree_pure (.cons hFirst hRest)

end

end CToGo.Source.Parser
