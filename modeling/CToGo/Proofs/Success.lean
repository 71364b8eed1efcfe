import Mathlib.Data.List.Forall2

/-!
# Runs that succeed and runs that fail

What the success or failure of a run says of its steps, and of the items of the lists that it
goes through.

* `bind_eq_ok`, `forall₂_of_mapM`: every step of a successful run succeeds.
* `mapM_eq_error`, `mapM_append_cons`: a run fails with the first of its steps that does.
* `bind_apply_eq_ok_iff`, `bind_apply_eq_error_iff`: the steps of a run that changes a state.
* `exists_eq_ok`, `exists_eq_ok_of_any`: a run that was checked to succeed has a result.
* `eq_error_of_some`: a run that was checked to fail fails.
* `exists_right_of_forall₂`, `exists_left_of_forall₂`: an item and the one it is paired with.
-/

namespace CToGo

theorem bind_eq_ok {ε α β : Type} {x : Except ε α} {f : α → Except ε β} {b : β} :
    (x >>= f) = .ok b ↔ ∃ a, x = .ok a ∧ f a = .ok b := by
  cases x <;> simp [bind, Except.bind]

theorem pure_eq_ok {ε α : Type} {a b : α} : (pure a : Except ε α) = .ok b ↔ a = b := by
  simp [pure, Except.pure]

theorem eq_ok_of_toOption {ε α : Type} {x : Except ε α} {a : α} (h : x.toOption = some a) :
    x = .ok a := by
  cases x with
  | error e => cases h
  | ok b =>
    cases h
    rfl

theorem exists_eq_ok {ε α : Type} {x : Except ε α} (h : x.toOption.isSome) : ∃ a, x = .ok a := by
  obtain ⟨a, ha⟩ := Option.isSome_iff_exists.mp h
  exact ⟨a, eq_ok_of_toOption ha⟩

theorem exists_eq_ok_of_any {ε α : Type} {x : Except ε α} {P : α → Bool}
    (h : x.toOption.any P) : ∃ a, x = .ok a ∧ P a := by
  obtain ⟨a, ha, hP⟩ := (Option.any_eq_true _ _).mp h
  exact ⟨a, eq_ok_of_toOption ha, hP⟩

theorem eq_error_of_some {ε α : Type} {x : Except ε α} {e : ε}
    (h : (match x with | .error d => some d | .ok _ => none) = some e) : x = .error e := by
  cases x with
  | error d => exact congrArg Except.error (Option.some.inj h)
  | ok a => cases h

theorem forall₂_of_mapM {ε α β : Type} {f : α → Except ε β} {as : List α} {bs : List β}
    (h : as.mapM f = .ok bs) : List.Forall₂ (fun a b => f a = .ok b) as bs := by
  induction as generalizing bs with
  | nil =>
    cases h
    exact .nil
  | cons a as ih =>
    rw [List.mapM_cons] at h
    obtain ⟨b, hb, h⟩ := bind_eq_ok.mp h
    obtain ⟨bs', hbs, hEq⟩ := bind_eq_ok.mp h
    cases hEq
    exact .cons hb (ih hbs)

theorem mapM_of_forall₂ {ε α β : Type} {f : α → Except ε β} {as : List α} {bs : List β}
    (h : List.Forall₂ (fun a b => f a = .ok b) as bs) : as.mapM f = .ok bs := by
  induction h with
  | nil => rfl
  | cons ha _ ih =>
    rw [List.mapM_cons, ha, ih]
    rfl

theorem mapM_eq_error {ε α β : Type} {f : α → Except ε β} {as : List α} {e : ε}
    (h : as.mapM f = .error e) :
    ∃ before a after, as = before ++ a :: after ∧ (∀ b ∈ before, ∃ c, f b = .ok c) ∧
      f a = .error e := by
  induction as with
  | nil => cases h
  | cons a as ih =>
    rw [List.mapM_cons] at h
    cases ha : f a with
    | error e' =>
      rw [ha] at h
      cases h
      exact ⟨[], a, as, rfl, by simp, ha⟩
    | ok c =>
      cases hs : as.mapM f with
      | ok cs =>
        rw [ha, hs] at h
        cases h
      | error e' =>
        rw [ha, hs] at h
        cases h
        obtain ⟨before, b, after, rfl, hBefore, hb⟩ := ih hs
        exact ⟨a :: before, b, after, rfl, List.forall_mem_cons.mpr ⟨⟨c, ha⟩, hBefore⟩, hb⟩

theorem mapM_append_cons {ε α β : Type} {f : α → Except ε β} {before after : List α} {a : α}
    {e : ε} (hBefore : ∀ b ∈ before, ∃ c, f b = .ok c) (ha : f a = .error e) :
    (before ++ a :: after).mapM f = .error e := by
  induction before with
  | nil =>
    rw [List.nil_append, List.mapM_cons, ha]
    rfl
  | cons b before ih =>
    obtain ⟨⟨c, hb⟩, hBefore⟩ := List.forall_mem_cons.mp hBefore
    rw [List.cons_append, List.mapM_cons, hb, ih hBefore]
    rfl

/-! ## Runs that change a state -/

section

variable {σ ε ε' α β : Type} {s s' : σ}

theorem bind_apply_eq_ok_iff {x : EStateM ε σ α} {f : α → EStateM ε σ β} {b : β} :
    (x >>= f) s = .ok b s' ↔ ∃ a s₁, x s = .ok a s₁ ∧ f a s₁ = .ok b s' := by
  simp only [bind, EStateM.bind]
  cases x s <;> simp

theorem bind_apply_eq_error_iff {x : EStateM ε σ α} {f : α → EStateM ε σ β} {e : ε} :
    (x >>= f) s = .error e s' ↔
      x s = .error e s' ∨ ∃ a s₁, x s = .ok a s₁ ∧ f a s₁ = .error e s' := by
  simp only [bind, EStateM.bind]
  cases x s <;> simp

theorem adaptExcept_apply_eq_ok_iff {g : ε → ε'} {x : EStateM ε σ α} {a : α} :
    EStateM.adaptExcept g x s = .ok a s' ↔ x s = .ok a s' := by
  simp only [EStateM.adaptExcept]
  cases x s <;> simp

theorem adaptExcept_apply_eq_error_iff {g : ε → ε'} {x : EStateM ε σ α} {e' : ε'} :
    EStateM.adaptExcept g x s = .error e' s' ↔ ∃ e, x s = .error e s' ∧ g e = e' := by
  simp only [EStateM.adaptExcept]
  cases x s <;> simp [and_comm]

end

/-! ## Paired items -/

theorem exists_right_of_forall₂ {α β : Type} {R : α → β → Prop} {as : List α} {bs : List β}
    (h : List.Forall₂ R as bs) {a : α} (ha : a ∈ as) : ∃ b ∈ bs, R a b := by
  induction h with
  | nil => cases ha
  | cons hab _ ih =>
    rcases List.mem_cons.mp ha with rfl | ha
    · exact ⟨_, List.mem_cons_self, hab⟩
    · obtain ⟨b, hb, hR⟩ := ih ha
      exact ⟨b, List.mem_cons_of_mem _ hb, hR⟩

theorem exists_left_of_forall₂ {α β : Type} {R : α → β → Prop} {as : List α} {bs : List β}
    (h : List.Forall₂ R as bs) {b : β} (hb : b ∈ bs) : ∃ a ∈ as, R a b :=
  exists_right_of_forall₂ h.flip hb

end CToGo
