import CToGo.Proofs.Grammar.Rules
import CToGo.Source.Parser.Stream

/-!
# Outcomes of parsers

What a parser does on a stream is stated as `Outcome p s Q E`: if it succeeds, `Q` holds of
the result and of the stream that is left, and if it fails, `E` holds of the error. There is
one lemma for each way to put parsers together and one for each step, so that later proofs
never look into the state of a parser again. Of a stream only the kinds of its tokens
(`Stream.kinds`) matter to the grammar.

* `outcome_bind`, `outcome_refunding`, ...: the steps.
* `outcome_many`: a repetition reads items up to a token that begins none.
* `outcome_many_of_repeated`: if the stream begins with a sequence of items, a repetition
  reads exactly these.
-/

namespace CToGo.Source.Parser

/-- The kinds of the tokens still to be read. -/
def Stream.kinds (s : Stream) : List TokenKind := s.tokens.map (·.kind)

namespace Stream

theorem peek?_eq_head? (s : Stream) : s.peek? = s.kinds.head? := by
  simp [peek?, kinds]

theorem kinds_tail (s : Stream) : s.tail.kinds = s.kinds.tail := by
  unfold tail kinds
  split <;> simp_all

theorem budget_tail (s : Stream) : s.tail.budget = s.budget := by
  unfold tail
  split <;> rfl

theorem kinds_of_head? {s : Stream} {k : TokenKind} (h : s.kinds.head? = some k) :
    s.kinds = k :: s.tail.kinds := by
  rw [kinds_tail]
  cases hs : s.kinds with
  | nil => simp [hs] at h
  | cons k' rest => simp_all

theorem isAt_iff {s : Stream} {k : TokenKind} (hk : k ≠ .endOfFile) :
    s.isAt k ↔ s.kinds.head? = some k := by
  unfold isAt
  rw [peek?_eq_head?]
  cases s.kinds.head? with
  | none => simp [Ne.symm hk]
  | some k' => simp

end Stream

/-- What `p` does on `s`: if it succeeds, `Q` holds of the result and the stream left, and if
it fails, `E` holds of the error. -/
def Outcome {α : Type} (p : Parser α) (s : Stream) (Q : α → Stream → Prop)
    (E : GrammarError → Prop) : Prop :=
  match p s with
  | .ok a s' => Q a s'
  | .error e _ => E e

section

variable {α β : Type} {p : Parser α} {f : α → Parser β} {s : Stream} {E : GrammarError → Prop}

/-! ## Composition -/

theorem Outcome.mono {Q Q' : α → Stream → Prop} (h : Outcome p s Q E)
    (hQ : ∀ a s', Q a s' → Q' a s') : Outcome p s Q' E := by
  unfold Outcome at h ⊢
  split <;> simp_all

theorem Outcome.and {Q Q' : α → Stream → Prop} (h : Outcome p s Q E) (h' : Outcome p s Q' E) :
    Outcome p s (fun a s' => Q a s' ∧ Q' a s') E := by
  unfold Outcome at h h' ⊢
  split <;> simp_all

theorem outcome_bind {Q : β → Stream → Prop} :
    Outcome (p >>= f) s Q E ↔ Outcome p s (fun a s' => Outcome (f a) s' Q E) E := by
  unfold Outcome
  simp only [bind, EStateM.bind]
  split <;> rename_i h <;> split at h <;> simp_all

theorem outcome_pure {Q : α → Stream → Prop} {a : α} :
    Outcome (pure a : Parser α) s Q E ↔ Q a s := Iff.rfl

theorem outcome_map {g : α → β} {Q : β → Stream → Prop} :
    Outcome (g <$> p) s Q E ↔ Outcome p s (fun a s' => Q (g a) s') E := by
  unfold Outcome
  simp only [Functor.map, EStateM.map]
  split <;> rename_i h <;> split at h <;> simp_all

theorem outcome_get {Q : Stream → Stream → Prop} :
    Outcome (get : Parser Stream) s Q E ↔ Q s s := Iff.rfl

/-! ## Steps -/

theorem outcome_peek? {Q : Option TokenKind → Stream → Prop} :
    Outcome peek? s Q E ↔ Q s.kinds.head? s := by
  rw [← Stream.peek?_eq_head?]
  exact Iff.rfl

theorem outcome_isAt {k : TokenKind} {Q : Bool → Stream → Prop} :
    Outcome (isAt k) s Q E ↔ Q (s.isAt k) s := Iff.rfl

theorem outcome_here {Q : Location → Stream → Prop} :
    Outcome here s Q E ↔ Q s.location s := Iff.rfl

theorem outcome_spanFrom {start : Location} {Q : Span → Stream → Prop} :
    Outcome (spanFrom start) s Q E ↔ Q ⟨start, s.lastEnd⟩ s := Iff.rfl

theorem outcome_advance {k : TokenKind} {rest : List TokenKind} {Q : Unit → Stream → Prop}
    (hs : s.kinds = k :: rest) (hQ : ∀ s', s'.kinds = rest → Q () s') :
    Outcome advance s Q E := by
  refine hQ s.tail ?_
  rw [s.kinds_tail, hs, List.tail_cons]

/-- Payment leaves the tokens alone. -/
theorem outcome_spend {cost : Nat} {Q : Unit → Stream → Prop}
    (hDeep : E (.tooDeep s.location)) (hQ : ∀ s', s'.kinds = s.kinds → Q () s') :
    Outcome (spend cost) s Q E := by
  unfold spend
  rw [outcome_bind, outcome_get]
  split
  · exact hDeep
  · exact hQ _ rfl

/-- So does the refund. -/
theorem outcome_refunding {Q : α → Stream → Prop}
    (h : Outcome p s (fun a s' => ∀ s'', s''.kinds = s'.kinds → Q a s'') E) :
    Outcome (refunding p) s Q E := by
  unfold refunding
  rw [outcome_bind, outcome_get, outcome_bind]
  exact h.mono fun a s' hQ => hQ _ rfl

theorem outcome_accept {k : TokenKind} (hk : k ≠ .endOfFile) {Q : Bool → Stream → Prop}
    (hAt : ∀ s', s.kinds = k :: s'.kinds → Q true s')
    (hElse : s.kinds.head? ≠ some k → Q false s) : Outcome (accept k) s Q E := by
  unfold accept
  rw [outcome_bind, outcome_isAt]
  split
  · rename_i h
    rw [Stream.isAt_iff hk] at h
    exact hAt s.tail (Stream.kinds_of_head? h)
  · rename_i h
    rw [Stream.isAt_iff hk] at h
    exact hElse h

theorem outcome_expectSymbol {m : Symbol} {context : String} {Q : Unit → Stream → Prop}
    (hAt : ∀ s', s.kinds = .symbol m :: s'.kinds → Q () s')
    (hElse : s.kinds.head? ≠ some (.symbol m) → E (s.unexpected (.token (.symbol m) context))) :
    Outcome (expectSymbol m context) s Q E := by
  unfold expectSymbol expect
  rw [outcome_bind, outcome_isAt]
  split
  · rename_i h
    rw [Stream.isAt_iff (by simp)] at h
    exact hAt s.tail (Stream.kinds_of_head? h)
  · rename_i h
    rw [Stream.isAt_iff (by simp)] at h
    exact hElse h

theorem outcome_expectSymbol_of_kinds {m : Symbol} {context : String} {rest : List TokenKind}
    {Q : Unit → Stream → Prop} (hs : s.kinds = .symbol m :: rest)
    (hQ : ∀ s', s'.kinds = rest → Q () s') : Outcome (expectSymbol m context) s Q E := by
  refine outcome_expectSymbol (fun s' h => hQ s' ?_) fun h => absurd (by rw [hs]; rfl) h
  rw [hs, List.cons.injEq] at h
  exact h.2.symm

theorem outcome_identifier {context : String} {Q : String → Stream → Prop}
    (hAt : ∀ x s', s.kinds = .identifier x :: s'.kinds → Q x s')
    (hElse : (∀ x, s.kinds.head? ≠ some (.identifier x)) →
      E (s.unexpected (.identifier context))) :
    Outcome (identifier context) s Q E := by
  unfold identifier
  rw [outcome_bind, outcome_peek?]
  split
  · rename_i x h
    exact hAt x s.tail (Stream.kinds_of_head? h)
  · rename_i h
    exact hElse h

theorem outcome_identifier_of_kinds {x context : String} {rest : List TokenKind}
    {Q : String → Stream → Prop} (hs : s.kinds = .identifier x :: rest)
    (hQ : ∀ s', s'.kinds = rest → Q x s') : Outcome (identifier context) s Q E := by
  refine outcome_identifier (fun y s' h => ?_) fun h => absurd (by rw [hs]; rfl) (h x)
  rw [hs, List.cons.injEq, TokenKind.identifier.injEq] at h
  exact h.1 ▸ hQ s' h.2.symm

/-! ## Repetition -/

variable {next? : Stream → Option β} {item : β → Parser α}
  {R : List TokenKind → α → List TokenKind → Prop}

/-- A repetition reads items one after the other, up to a token that begins none. -/
theorem outcome_many (look : List TokenKind → Option β) (g : α → α)
    (hLook : ∀ s, next? s = look s.kinds) (hEnd : look [] = none)
    (hShorter : ∀ ts a us, R ts a us → us.length < ts.length)
    (hItem : ∀ s b, look s.kinds = some b →
      Outcome (item b) s (fun a s' => R s.kinds (g a) s'.kinds) E) :
    Outcome (many next? item) s
      (fun as s' => Repeated R s.kinds (as.map g) s'.kinds ∧ look s'.kinds = none) E := by
  -- The bound is never met before the stream is empty, for every item shortens the stream.
  suffices hWithin : ∀ (bound : List Token) (s : Stream), s.kinds.length ≤ bound.length →
      Outcome (manyWithin next? item bound) s
        (fun as s' => Repeated R s.kinds (as.map g) s'.kinds ∧ look s'.kinds = none) E by
    unfold many
    rw [outcome_bind, outcome_get]
    exact hWithin s.tokens s (by simp [Stream.kinds])
  intro bound
  induction bound with
  | nil =>
    intro s hs
    have hNil : s.kinds = [] := List.length_eq_zero_iff.mp (Nat.le_zero.mp hs)
    exact ⟨.nil _, by rw [hNil, hEnd]⟩
  | cons _ bound ih =>
    intro s hs
    rw [manyWithin, outcome_bind, outcome_get, hLook]
    split
    · rename_i h
      exact ⟨.nil _, h⟩
    · rename_i b h
      rw [outcome_bind]
      refine (hItem s b h).mono fun a s₁ ha => ?_
      have hLess := hShorter _ _ _ ha
      rw [outcome_bind]
      refine (ih s₁ (by rw [List.length_cons] at hs; omega)).mono fun as s₂ has => ?_
      exact ⟨.cons ha has.1, has.2⟩

/-- If the stream begins with items one after the other, a repetition reads exactly these. A
parser of items may rely on `F` of the tokens behind an item. -/
theorem outcome_many_of_repeated (look : List TokenKind → Option β)
    (F : List TokenKind → Prop) (g : α → α)
    (hLook : ∀ s, next? s = look s.kinds)
    (hShorter : ∀ ts a us, R ts a us → us.length < ts.length)
    (hStart : ∀ ts a us, R ts a us → ∃ b, look ts = some b)
    (hFollow : ∀ ts b, look ts = some b → F ts)
    (hItem : ∀ s b a us, look s.kinds = some b → R s.kinds a us → F us →
      Outcome (item b) s (fun a' s' => g a' = a ∧ s'.kinds = us) E)
    {as : List α} {rest : List TokenKind} (h : Repeated R s.kinds as rest) (hF : F rest)
    (hStop : look rest = none) :
    Outcome (many next? item) s (fun as' s' => as'.map g = as ∧ s'.kinds = rest) E := by
  suffices hWithin : ∀ (bound : List Token) (s : Stream) (as : List α),
      s.kinds.length ≤ bound.length → Repeated R s.kinds as rest →
      Outcome (manyWithin next? item bound) s
        (fun as' s' => as'.map g = as ∧ s'.kinds = rest) E by
    unfold many
    rw [outcome_bind, outcome_get]
    exact hWithin s.tokens s as (by simp [Stream.kinds]) h
  intro bound
  induction bound with
  | nil =>
    intro s as hs hRep
    cases hRep with
    | nil => exact ⟨rfl, rfl⟩
    | cons ha _ =>
      have hLess := hShorter _ _ _ ha
      rw [List.length_nil] at hs
      omega
  | cons _ bound ih =>
    intro s as hs hRep
    rw [manyWithin, outcome_bind, outcome_get, hLook]
    generalize hts : s.kinds = ts at hRep
    cases hRep with
    | nil =>
      rw [hStop]
      exact ⟨rfl, hts⟩
    | @cons _ us _ a as ha has =>
      obtain ⟨b, hb⟩ := hStart _ _ _ ha
      have hLess := hShorter _ _ _ ha
      have hus : F us := by
        cases has with
        | nil => exact hF
        | cons ha' _ =>
          obtain ⟨b', hb'⟩ := hStart _ _ _ ha'
          exact hFollow _ _ hb'
      rw [hb]
      subst hts
      refine outcome_bind.mpr ((hItem s b a us hb ha hus).mono fun a' s₁ ha' => ?_)
      obtain ⟨ha', hs₁⟩ := ha'
      rw [outcome_bind]
      refine (ih s₁ as ?_ (hs₁ ▸ has)).mono fun as' s₂ has' => ?_
      · rw [List.length_cons] at hs
        rw [hs₁]
        omega
      · exact ⟨by rw [List.map_cons, ha', has'.1], has'.2⟩

end

section

variable {α : Type} {item : Parser α} {s : Stream} {E : GrammarError → Prop}
  {R : List TokenKind → α → List TokenKind → Prop}

theorem outcome_manyWhile {more : Stream → Bool} {begins : List TokenKind → Bool} (g : α → α)
    (hMore : ∀ s, more s = begins s.kinds) (hEnd : begins [] = false)
    (hShorter : ∀ ts a us, R ts a us → us.length < ts.length)
    (hItem : ∀ s, begins s.kinds →
      Outcome item s (fun a s' => R s.kinds (g a) s'.kinds) E) :
    Outcome (manyWhile more item) s
      (fun as s' => Repeated R s.kinds (as.map g) s'.kinds ∧ begins s'.kinds = false) E := by
  let look : List TokenKind → Option Unit := fun ts => if begins ts then some () else none
  refine (outcome_many look g (fun s => by simp [look, hMore]) (by simp [look, hEnd])
    hShorter fun s b hb => hItem s (by simpa [look] using hb)).mono fun as s' h => ?_
  exact ⟨h.1, by simpa [look] using h.2⟩

theorem outcome_manyWhile_of_repeated {more : Stream → Bool} {begins : List TokenKind → Bool}
    (F : List TokenKind → Prop) (g : α → α) (hMore : ∀ s, more s = begins s.kinds)
    (hShorter : ∀ ts a us, R ts a us → us.length < ts.length)
    (hStart : ∀ ts a us, R ts a us → begins ts) (hFollow : ∀ ts, begins ts → F ts)
    (hItem : ∀ s a us, R s.kinds a us → F us →
      Outcome item s (fun a' s' => g a' = a ∧ s'.kinds = us) E)
    {as : List α} {rest : List TokenKind} (h : Repeated R s.kinds as rest) (hF : F rest)
    (hStop : begins rest = false) :
    Outcome (manyWhile more item) s (fun as' s' => as'.map g = as ∧ s'.kinds = rest) E := by
  let look : List TokenKind → Option Unit := fun ts => if begins ts then some () else none
  refine outcome_many_of_repeated look F g (fun s => by simp [look, hMore]) hShorter
    (fun ts a us ha => ⟨(), by simp [look, hStart ts a us ha]⟩)
    (fun ts _ hts => hFollow ts (by simpa [look] using hts))
    (fun s _ a us _ => hItem s a us) h hF (by simp [look, hStop])

/-! ## Items with commas between them -/

/-- Whether the next token is a comma. -/
def atComma (ts : List TokenKind) : Bool := ts.head? == some (.symbol .comma)

theorem isAt_comma (s : Stream) : s.isAt (.symbol .comma) = atComma s.kinds := by
  rw [Bool.eq_iff_iff, Stream.isAt_iff (by simp)]
  simp [atComma]

theorem AfterComma.length_lt (hR : ∀ ts a us, R ts a us → Passes ts us) (ts : List TokenKind)
    (a : α) (us : List TokenKind) (h : AfterComma R ts a us) : us.length < ts.length := by
  cases h with
  | mk h => exact Nat.lt_succ_of_le (hR _ _ _ h).length_le

theorem outcome_commaSeparated (g : α → α) (hR : ∀ ts a us, R ts a us → Passes ts us)
    (hItem : ∀ s, Outcome item s (fun a s' => R s.kinds (g a) s'.kinds) E) :
    Outcome (commaSeparated item) s
      (fun as s' => ∃ a as' us, as.map g = a :: as' ∧ R s.kinds a us ∧
        Repeated (AfterComma R) us as' s'.kinds) E := by
  unfold commaSeparated
  rw [outcome_bind]
  refine (hItem s).mono fun a s₁ ha => ?_
  rw [outcome_bind]
  refine (outcome_manyWhile g isAt_comma rfl (AfterComma.length_lt hR) ?_).mono
    fun as s₂ has => ⟨g a, as.map g, s₁.kinds, rfl, ha, has.1⟩
  intro s₂ hs₂
  have hs₂ := Stream.kinds_of_head? (by simpa [atComma] using hs₂)
  rw [outcome_bind]
  refine outcome_advance hs₂ fun s₃ h₃ => ?_
  refine (hItem s₃).mono fun a' s₄ ha' => ?_
  rw [hs₂, ← h₃]
  exact .mk ha'

theorem outcome_commaSeparated_of_repeated (F : List TokenKind → Prop) (g : α → α)
    (hR : ∀ ts a us, R ts a us → Passes ts us) (hFollow : ∀ ts, atComma ts → F ts)
    (hItem : ∀ s a us, R s.kinds a us → F us →
      Outcome item s (fun a' s' => g a' = a ∧ s'.kinds = us) E)
    {a : α} {as : List α} {us rest : List TokenKind} (ha : R s.kinds a us)
    (has : Repeated (AfterComma R) us as rest) (hF : F rest) (hStop : atComma rest = false) :
    Outcome (commaSeparated item) s (fun as' s' => as'.map g = a :: as ∧ s'.kinds = rest) E := by
  have hus : F us := by
    cases has with
    | nil => exact hF
    | cons h _ =>
      cases h with
      | mk _ => exact hFollow _ rfl
  unfold commaSeparated
  rw [outcome_bind]
  refine (hItem s a us ha hus).mono fun a' s₁ ha' => ?_
  obtain ⟨ha', h₁⟩ := ha'
  rw [outcome_bind]
  refine (outcome_manyWhile_of_repeated F g isAt_comma (AfterComma.length_lt hR) ?_ hFollow ?_
    (h₁ ▸ has) hF hStop).mono fun as' s₂ has' => ⟨by rw [List.map_cons, ha', has'.1], has'.2⟩
  · intro ts b vs hb
    cases hb with
    | mk _ => rfl
  · intro s₂ b vs hb hvs
    generalize hs₂ : s₂.kinds = ts at hb
    cases hb with
    | mk hb =>
      rw [outcome_bind]
      refine outcome_advance hs₂ fun s₃ h₃ => ?_
      exact hItem s₃ b vs (h₃ ▸ hb) hvs

end

end CToGo.Source.Parser
