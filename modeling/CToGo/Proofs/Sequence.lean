/-!
# Sequences of items in a list of tokens

Grammars are given as relations `R ts a rest`: the tokens `ts` begin with an item `a`, and
`rest` is what follows it. `Repeated R` is the relation for any number of such items.

* `Repeated.unique`: if the items can be told apart, so can the sequences.
-/

namespace CToGo

/-- One item after the other. -/
inductive Repeated {τ α : Type} (R : List τ → α → List τ → Prop) :
    List τ → List α → List τ → Prop where
  | nil (rest : List τ) : Repeated R rest [] rest
  | cons {ts us rest : List τ} {a : α} {as : List α} :
    R ts a us → Repeated R us as rest → Repeated R ts (a :: as) rest

namespace Repeated

variable {τ α : Type} {R : List τ → α → List τ → Prop} {ts us rest : List τ}

theorem append {as bs : List α} (h : Repeated R ts as us) (hbs : Repeated R us bs rest) :
    Repeated R ts (as ++ bs) rest := by
  induction h with
  | nil _ => exact hbs
  | cons ha _ ih => exact .cons ha (ih hbs)

theorem snoc {as : List α} {a : α} (h : Repeated R ts as us) (ha : R us a rest) :
    Repeated R ts (as ++ [a]) rest :=
  h.append (.cons ha (.nil rest))

/-- Two sequences that begin at the same tokens and end where no further item can begin are
the same, provided that this holds of their items. Whether an item ends at a place is decided
by `F`. -/
theorem unique (Begins F : List τ → Prop)
    (hBegins : ∀ ts a us, R ts a us → Begins ts) (hFollow : ∀ ts, Begins ts → F ts)
    (hShorter : ∀ ts a us, R ts a us → us.length < ts.length) {n : Nat}
    (hItem : ∀ ts a a' us us', ts.length ≤ n → R ts a us → R ts a' us' → F us → F us' →
      a = a' ∧ us = us')
    {as as' : List α} {rest' : List τ} (hn : ts.length ≤ n)
    (h : Repeated R ts as rest) (h' : Repeated R ts as' rest')
    (hF : F rest) (hF' : F rest') (hStop : ¬ Begins rest) (hStop' : ¬ Begins rest') :
    as = as' ∧ rest = rest' := by
  have hNext {vs us : List τ} {bs : List α} (hbs : Repeated R us bs vs) (hvs : F vs) : F us := by
    cases hbs with
    | nil => exact hvs
    | cons hb _ => exact hFollow _ (hBegins _ _ _ hb)
  induction h generalizing as' with
  | nil rest =>
    cases h' with
    | nil => exact ⟨rfl, rfl⟩
    | cons ha _ => exact absurd (hBegins _ _ _ ha) hStop
  | @cons ts us _ a as ha has ih =>
    cases h' with
    | nil => exact absurd (hBegins _ _ _ ha) hStop'
    | cons ha' has' =>
      obtain ⟨rfl, rfl⟩ := hItem _ _ _ _ _ hn ha ha' (hNext has hF) (hNext has' hF')
      have hLess := hShorter _ _ _ ha
      obtain ⟨rfl, hRest⟩ := ih (by omega) has' hF hStop
      exact ⟨rfl, hRest⟩

end Repeated

end CToGo
