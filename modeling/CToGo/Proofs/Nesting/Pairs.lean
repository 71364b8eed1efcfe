import CToGo.Proofs.Locations.Following
import CToGo.Proofs.Locations.Parsing

/-!
# Pairs of runs

A parser succeeds on some tokens, and another one, or the same, is run on tokens that are not
quite the same. The rules here carry the success over, step by step. A run that is `held` back
may fail instead, because the nesting is too deep.

* `Beside same ts ts' s s'`: the streams show tokens of the kinds `ts` and `ts'`, and if `same`
  holds, as much of the budget is left in both.
* `Carries held P p q R Q`: if `p` succeeds on the first of two streams of which `P` holds, so
  does `q` on the second. Then `R` holds of the results and `Q` of the streams that are left.
* `carries_bind`, `carries_spend`, ...: the steps.
* `carries_alike`, `carries_closes`, `carries_follows`: a parser on tokens that are the same, or
  the same as far as it looks.
* `carries_manyWhile`: a repetition, one item at a time.
-/

namespace CToGo.Source.Parser

/-- Two streams with tokens of the given kinds. -/
structure Beside (same : Bool) (ts ts' : List TokenKind) (s s' : Stream) : Prop where
  left : s.kinds = ts
  right : s'.kinds = ts'
  budget : same = true → s'.budget = s.budget

/-- If the first parser succeeds, so does the second, or it is held back. -/
def Carries (held : Bool) {α β : Type} (P : Stream → Stream → Prop) (p : Parser α)
    (q : Parser β) (R : α → β → Prop) (Q : Stream → Stream → Prop) : Prop :=
  ∀ s s' a t, P s s' → p s = .ok a t →
    (∃ b t', q s' = .ok b t' ∧ R a b ∧ Q t t') ∨
    (held = true ∧ ∃ location t', q s' = .error (.tooDeep location) t')

theorem Beside.forget {same : Bool} {ts ts' : List TokenKind} {s s' : Stream}
    (h : Beside same ts ts' s s') : Beside false ts ts' s s' :=
  ⟨h.left, h.right, fun hSame => nomatch hSame⟩

section

variable {held same same' : Bool} {α β α' β' : Type} {P Q : Stream → Stream → Prop}
  {p : Parser α} {q : Parser α'} {R : α → α' → Prop} {S : β → β' → Prop}
  {ts ts' us us' : List TokenKind}

/-! ## Composition -/

theorem Carries.mono {Q' : Stream → Stream → Prop} {R' : α → α' → Prop}
    (h : Carries held P p q R Q) (hR : ∀ a b, R a b → R' a b) (hQ : ∀ t t', Q t t' → Q' t t') :
    Carries held P p q R' Q' := by
  intro s s' a t hP hRun
  rcases h s s' a t hP hRun with ⟨b, t', hRun', hab, hEnd⟩ | hHeld
  · exact .inl ⟨b, t', hRun', hR a b hab, hQ t t' hEnd⟩
  · exact .inr hHeld

theorem Carries.forget (h : Carries held P p q R (Beside same us us')) :
    Carries held P p q R (Beside false us us') :=
  h.mono (fun _ _ hab => hab) fun _ _ => Beside.forget

/-- Parsers may be replaced by others that do the same on the streams in question. -/
theorem Carries.congr {p' : Parser α} {q' : Parser α'} (h : Carries held P p' q' R Q)
    (hp : ∀ s s', P s s' → p s = p' s) (hq : ∀ s s', P s s' → q s' = q' s') :
    Carries held P p q R Q := by
  intro s s' a t hP hRun
  rw [hq s s' hP]
  exact h s s' a t hP (hp s s' hP ▸ hRun)

theorem carries_bind {T : Stream → Stream → Prop} {f : α → Parser β} {g : α' → Parser β'}
    (hp : Carries held P p q R Q) (hf : ∀ a b, R a b → Carries held Q (f a) (g b) S T) :
    Carries held P (p >>= f) (q >>= g) S T := by
  intro s s' c t hP hRun
  obtain ⟨a, u, hFirst, hRest⟩ := bind_apply_eq_ok_iff.mp hRun
  rcases hp s s' a u hP hFirst with ⟨b, u', hFirst', hab, hMid⟩ | ⟨hHeld, location, u', hDeep⟩
  · rw [bind_of_ok hFirst']
    exact hf a b hab u u' c t hMid hRest
  · rw [bind_of_error hDeep]
    exact .inr ⟨hHeld, location, u', rfl⟩

/-- A step whose result does not count. -/
theorem carries_then {T : Stream → Stream → Prop} {u v : Parser Unit} {f : Parser β}
    {g : Parser β'} (hStep : Carries held P u v (fun _ _ => True) Q)
    (hRest : Carries held Q f g S T) : Carries held P (do u; f) (do v; g) S T :=
  carries_bind hStep fun _ _ _ => hRest

theorem carries_pure {a : α} {b : α'} (h : R a b) : Carries held P (pure a) (pure b) R P := by
  intro s s' c t hP hRun
  cases hRun
  exact .inl ⟨b, s', rfl, h, hP⟩

/-- A parser that never succeeds has nothing to carry over. -/
theorem carries_of_fails (h : ∀ s a t, p s ≠ .ok a t) : Carries held P p q R Q :=
  fun s _ a t _ hRun => absurd hRun (h s a t)

/-! ## Steps -/

theorem isAt_of_kinds {k : TokenKind} {s : Stream} {rest : List TokenKind}
    (h : s.kinds = k :: rest) (kind : TokenKind) : s.isAt kind = (k == kind) := by
  rw [Stream.isAt, s.peek?_eq_head?, h]
  rfl

/-- A look at the next token, with what it shows on either side. -/
theorem carries_isAt {k k' : TokenKind} (kind : TokenKind) :
    Carries held (Beside same (k :: us) (k' :: us')) (isAt kind) (isAt kind)
      (fun a b => a = (k == kind) ∧ b = (k' == kind)) (Beside same (k :: us) (k' :: us')) := by
  intro s s' a t hP hRun
  cases hRun
  exact .inl ⟨_, s', rfl, ⟨isAt_of_kinds hP.left kind, isAt_of_kinds hP.right kind⟩, hP⟩

theorem carries_peek? {k : TokenKind} :
    Carries held (Beside same (k :: us) (k :: us')) peek? peek?
      (fun a b => a = some k ∧ b = some k) (Beside same (k :: us) (k :: us')) := by
  intro s s' a t hP hRun
  cases hRun
  refine .inl ⟨_, s', rfl, ⟨?_, ?_⟩, hP⟩
  · rw [s.peek?_eq_head?, hP.left, List.head?_cons]
  · rw [s'.peek?_eq_head?, hP.right, List.head?_cons]

/-- Locations are not compared. -/
theorem carries_here : Carries held P here here (fun _ _ => True) P := by
  intro s s' l t hP hRun
  cases hRun
  exact .inl ⟨_, s', rfl, trivial, hP⟩

/-- Nor are spans. -/
theorem carries_spanned {node : Span → β} {node' : Span → β'} (start start' : Location)
    (h : ∀ span span', S (node span) (node' span')) :
    Carries held P (do return node (← spanFrom start)) (do return node' (← spanFrom start'))
      S P := by
  intro s s' c t hP hRun
  cases hRun
  exact .inl ⟨_, s', rfl, h _ _, hP⟩

theorem Beside.tail {k k' : TokenKind} {s s' : Stream}
    (h : Beside same (k :: us) (k' :: us') s s') : Beside same us us' s.tail s'.tail where
  left := by rw [Stream.kinds_tail, h.left, List.tail_cons]
  right := by rw [Stream.kinds_tail, h.right, List.tail_cons]
  budget hSame := by rw [Stream.budget_tail, Stream.budget_tail, h.budget hSame]

theorem carries_advance {k k' : TokenKind} :
    Carries held (Beside same (k :: us) (k' :: us')) advance advance (fun _ _ => True)
      (Beside same us us') := by
  intro s s' u t hP hRun
  cases hRun
  exact .inl ⟨(), s'.tail, rfl, trivial, hP.tail⟩

/-- A token that only the first side has. -/
theorem carries_advance_left {k : TokenKind} (h : Carries held (Beside same us us') p q R Q) :
    Carries held (Beside same (k :: us) us') (do advance; p) q R Q := by
  intro s s' a t hP hRun
  refine h s.tail s' a t ⟨?_, hP.right, fun hSame => ?_⟩ hRun
  · rw [Stream.kinds_tail, hP.left, List.tail_cons]
  · rw [Stream.budget_tail, hP.budget hSame]

theorem carries_accept {kind : TokenKind} :
    Carries held (Beside same (kind :: us) (kind :: us')) (accept kind) (accept kind)
      (fun a b => a = true ∧ b = true) (Beside same us us') := by
  refine carries_bind (carries_isAt kind) ?_
  rintro _ _ ⟨rfl, rfl⟩
  rw [beq_self_eq_true, if_pos rfl]
  exact carries_then carries_advance (carries_pure ⟨rfl, rfl⟩)

theorem carries_expectSymbol (mark : Symbol) (context context' : String) :
    Carries held (Beside same (.symbol mark :: us) (.symbol mark :: us'))
      (expectSymbol mark context) (expectSymbol mark context') (fun _ _ => True)
      (Beside same us us') := by
  intro s s' u t hP hRun
  obtain ⟨-, rfl⟩ := expectSymbol_eq_ok.mp hRun
  have hAt : s'.isAt (.symbol mark) = true := by rw [isAt_of_kinds hP.right, beq_self_eq_true]
  exact .inl ⟨(), s'.tail, expectSymbol_eq_ok.mpr ⟨hAt, rfl⟩, trivial, hP.tail⟩

theorem carries_spend (cost : Nat) :
    Carries held (Beside true us us') (spend cost) (spend cost) (fun _ _ => True)
      (Beside true us us') := by
  intro s s' u t hP hRun
  have hBudget := hP.budget rfl
  rw [spend_eq] at hRun ⊢
  rw [hBudget]
  split at hRun
  · cases hRun
  · next hEnough =>
    cases hRun
    rw [if_neg hEnough]
    exact .inl ⟨(), _, rfl, trivial, hP.left, hP.right, fun _ => rfl⟩

/-- A refund makes up for what has been spent on one side only. -/
theorem carries_refunding (same : Bool)
    (h : Carries held (Beside true ts ts') p q R (Beside same us us')) :
    Carries held (Beside true ts ts') (refunding p) (refunding q) R (Beside true us us') := by
  intro s s' a t hP hRun
  obtain ⟨u, hFirst, rfl⟩ := refunding_eq_ok.mp hRun
  rcases h s s' a u hP hFirst with ⟨b, u', hFirst', hab, hEnd⟩ | ⟨hHeld, location, u', hDeep⟩
  · exact .inl ⟨b, _, refunding_eq_ok.mpr ⟨u', hFirst', rfl⟩, hab, hEnd.left, hEnd.right,
      fun _ => hP.budget rfl⟩
  · refine .inr ⟨hHeld, location, u', ?_⟩
    rw [refunding_eq, hDeep]

end

/-! ## Tokens that are the same as far as a parser looks -/

/-- What a parser leaves of tokens of the given kinds. -/
def Leaves {α : Type} (p : Parser α) (ts us : List TokenKind) : Prop :=
  ∀ s a t, s.kinds = ts → p s = .ok a t → t.kinds = us

theorem leaves_of_outcome {α : Type} {p : Parser α} {ts us : List TokenKind}
    {Q : α → Stream → Prop} {E : GrammarError → Prop}
    (h : ∀ s, s.kinds = ts → Outcome p s (fun a t => Q a t ∧ t.kinds = us) E) :
    Leaves p ts us := by
  intro s a t hs hRun
  have hOutcome := h s hs
  unfold Outcome at hOutcome
  rw [hRun] at hOutcome
  exact hOutcome.2

section

variable {held : Bool} {α β : Type} {g : α → β} {p : Parser α}

theorem Steady.of_ok (h : Steady g p) {s s' t : Stream} {a : α} (hAlike : s.Alike s')
    (hRun : p s = .ok a t) : ∃ b t', p s' = .ok b t' ∧ g a = g b ∧ t.Alike t' := by
  have hEnd := h s s' hAlike
  rw [hRun] at hEnd
  generalize hq : p s' = y at hEnd
  cases hEnd with
  | ok hBare hRest => exact ⟨_, _, rfl, hBare, hRest⟩

/-- The same parser on the same tokens. -/
theorem carries_alike (hSteady : Steady g p) {ts us : List TokenKind} (hLeaves : Leaves p ts us) :
    Carries held (Beside true ts ts) p p (fun a b => g a = g b) (Beside true us us) := by
  intro s s' a t hP hRun
  have hAlike : s.Alike s' := ⟨hP.left.trans hP.right.symm, (hP.budget rfl).symm⟩
  obtain ⟨b, t', hRun', hBare, hEnd⟩ := hSteady.of_ok hAlike hRun
  have hKinds := hLeaves s a t hP.left hRun
  exact .inl ⟨b, t', hRun', hBare, hKinds, hEnd.kinds ▸ hKinds, fun _ => hEnd.budget.symm⟩

/-- The same parser on tokens that part, if it ends before the parting and has not looked behind
it. -/
theorem carries_fork (mid : List TokenKind) (hSteady : Steady g p)
    {pre us us' : List TokenKind} (hLeaves : Leaves p (pre ++ us) (mid ++ us))
    (hRun : ∀ left right s s' a t, Fork.Paired ⟨id, left, right⟩ s s' → p s = .ok a t →
      mid.length + left.length = t.tokens.length →
      ∃ b t', p s' = .ok b t' ∧ g b = g a ∧ Fork.Paired ⟨id, left, right⟩ t t') :
    Carries held (Beside true (pre ++ us) (pre ++ us')) p p (fun a b => g a = g b)
      (Beside true (mid ++ us) (mid ++ us')) := by
  intro s s' a t hP hFirst
  obtain ⟨shared, left, hTokens, hShared, hLeft⟩ := List.map_eq_append_iff.mp hP.left
  obtain ⟨shared', right, hTokens', hShared', hRight⟩ := List.map_eq_append_iff.mp hP.right
  have hEnd : t.kinds = mid ++ us := hLeaves s a t hP.left hFirst
  -- The tokens of the first stream up to the parting, and then those of the second.
  let r : Stream := { s with tokens := shared ++ right }
  have hPaired : Fork.Paired ⟨id, left, right⟩ s r := by
    have hSame : shared.map (Token.move id) = shared := List.map_id shared
    exact ⟨⟨shared, hTokens, by rw [hSame]⟩, rfl, fun _ _ => rfl, rfl⟩
  have hLength : mid.length + left.length = t.tokens.length := by
    have hSame := congrArg List.length hEnd
    rw [Stream.kinds, List.length_map, List.length_append, ← hLeft, List.length_map] at hSame
    exact hSame.symm
  obtain ⟨b, u, hSecond, hBare, hRest⟩ := hRun left right s r a t hPaired hFirst hLength
  have hAlike : r.Alike s' := by
    refine ⟨?_, (hP.budget rfl).symm⟩
    rw [hP.right, ← hShared, ← hRight]
    exact List.map_append
  obtain ⟨c, t', hThird, hBare', hAfter⟩ := hSteady.of_ok hAlike hSecond
  refine .inl ⟨c, t', hThird, hBare.symm.trans hBare', hEnd, ?_, fun _ => ?_⟩
  · obtain ⟨behind, ht, hu⟩ := hRest.tokens
    have hBehind : behind.map (·.kind) = mid := by
      rw [Stream.kinds, ht, List.map_append, ← hLeft] at hEnd
      exact List.append_cancel_right hEnd
    have hMoved : (behind.map (Token.move id)).map (·.kind) = mid := by
      rw [← hBehind, List.map_map]
      rfl
    rw [← hAfter.kinds, Stream.kinds, hu, List.map_append, hMoved, hRight]
  · rw [← hAfter.budget, hRest.budget]

/-- A parser that ends right at the parting. -/
theorem carries_closes {m : α → α} (hSteady : Steady g p)
    (hCloses : ∀ left right, Fork.Closes ⟨id, left, right⟩ (Fork.Maps m) p p)
    (hm : ∀ a, g (m a) = g a) {pre us us' : List TokenKind} (hLeaves : Leaves p (pre ++ us) us) :
    Carries held (Beside true (pre ++ us) (pre ++ us')) p p (fun a b => g a = g b)
      (Beside true us us') := by
  refine carries_fork [] hSteady hLeaves ?_
  intro left right s s' a t hPaired hRun hLength
  rw [List.length_nil, Nat.zero_add] at hLength
  obtain ⟨b, t', hRun', rfl, hEnd⟩ :=
    (hCloses left right).2 s s' a t hPaired hRun (Nat.le_of_eq hLength)
  exact ⟨_, t', hRun', hm a, hEnd⟩

/-- A parser that ends in front of a token that is the same on both sides. -/
theorem carries_follows {m : α → α} (hSteady : Steady g p)
    (hFollows : ∀ left right, Fork.Follows ⟨id, left, right⟩ (Fork.Maps m) p p)
    (hm : ∀ a, g (m a) = g a) {k : TokenKind} {pre us us' : List TokenKind}
    (hLeaves : Leaves p (pre ++ k :: us) (k :: us)) :
    Carries held (Beside true (pre ++ k :: us) (pre ++ k :: us')) p p (fun a b => g a = g b)
      (Beside true (k :: us) (k :: us')) := by
  have hSplit : ∀ vs, pre ++ k :: vs = (pre ++ [k]) ++ vs := fun vs => by simp
  rw [hSplit us, hSplit us']
  rw [hSplit us] at hLeaves
  refine carries_fork [k] hSteady hLeaves ?_
  intro left right s s' a t hPaired hRun hLength
  rw [List.length_singleton] at hLength
  have hBefore : left.length < t.tokens.length := by omega
  obtain ⟨b, t', hRun', rfl, hEnd⟩ := (hFollows left right).of_ok hPaired hRun hBefore
  exact ⟨_, t', hRun', hm a, hEnd⟩

end

/-! ## Repetition -/

section

variable {held : Bool} {α : Type} {more : Stream → Bool} {begins : List TokenKind → Bool}
  {item : Parser α} {g : α → α}

/-- One item of a repetition, and then the others. -/
theorem carries_manyWhile (hMore : ∀ s, more s = begins s.kinds) (hNil : begins [] = false)
    (hProgress : Progresses item) {same : Bool} {ts ts' : List TokenKind}
    {Q T : Stream → Stream → Prop} (hLeft : begins ts = true) (hRight : begins ts' = true)
    (hItem : Carries held (Beside same ts ts') item item (fun a b => g a = g b) Q)
    (hRest : Carries held Q (manyWhile more item) (manyWhile more item)
      (fun as bs => as.map g = bs.map g) T) :
    Carries held (Beside same ts ts') (manyWhile more item) (manyWhile more item)
      (fun as bs => as.map g = bs.map g) T := by
  let step : Parser (List α) := do
    let a ← item
    let as ← manyWhile more item
    return a :: as
  have hStep : Carries held (Beside same ts ts') step step
      (fun as bs => as.map g = bs.map g) T := by
    refine carries_bind hItem fun a b hab => carries_bind hRest fun as bs hRest => ?_
    exact carries_pure (by rw [List.map_cons, List.map_cons, hab, hRest])
  have hStop : ∀ s : Stream, s.tokens = [] → more s = false := by
    intro s hs
    rw [hMore, Stream.kinds, hs]
    exact hNil
  refine hStep.congr (fun s s' hP => ?_) fun s s' hP => ?_
  · exact manyWhile_of_more hStop hProgress (by rw [hMore, hP.left, hLeft])
  · exact manyWhile_of_more hStop hProgress (by rw [hMore, hP.right, hRight])

/-- The same items on both sides. -/
theorem carries_manyWhile_alike {R : List TokenKind → α → List TokenKind → Prop}
    {E : GrammarError → Prop} (hMore : ∀ s, more s = begins s.kinds)
    (hShorter : ∀ ts a us, R ts a us → us.length < ts.length)
    (hStart : ∀ ts a us, R ts a us → begins ts) (hSteady : Steady g item)
    (hComplete : ∀ s a us, R s.kinds a us →
      Outcome item s (fun a' t => g a' = a ∧ t.kinds = us) E)
    {ts rest : List TokenKind} {as : List α} (h : Repeated R ts as rest)
    (hEnd : begins rest = false) :
    Carries held (Beside true ts ts) (manyWhile more item) (manyWhile more item)
      (fun as bs => as.map g = bs.map g) (Beside true rest rest) := by
  have hAgree : Steady (List.map g) (manyWhile more item) := by
    refine (agree_manyWhile ?_ hSteady).mono fun _ _ => map_eq_of_forall₂
    intro s t hAlike
    rw [hMore, hMore, hAlike.kinds]
  have hOutcome : ∀ s : Stream, s.kinds = ts → Outcome (manyWhile more item) s
      (fun as' t => as'.map g = as ∧ t.kinds = rest) E := by
    intro s hs
    exact outcome_manyWhile_of_repeated (fun _ => True) g hMore hShorter hStart
      (fun _ _ => trivial) (fun s a us ha _ => hComplete s a us ha) (hs ▸ h) trivial hEnd
  exact carries_alike hAgree (leaves_of_outcome hOutcome)

end

end CToGo.Source.Parser
