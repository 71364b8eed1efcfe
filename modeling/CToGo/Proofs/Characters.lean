import CToGo.Source.Blank

/-!
# Runs of characters

Letters, digits and underscores, and how far a run of them reaches into a text.

* `takeWhile_append_of_head`: a run that cannot go on is taken as a whole.
* `append_inj_of_head`: where a run ends is told by the text.
* `prefix_takeWhile`: no other run at its place is longer.
* `prefix_of_prefix_of_not_mem`: what a character is missing from ends before that character.
* `exists_run`: every text begins with a run that cannot go on.
-/

namespace CToGo

open Source (isWordStart isWordRest isBlank blankRanges)

theorem isWordRest_of_isWordStart {c : Char} (h : isWordStart c) : isWordRest c := by
  simp only [isWordStart, isWordRest, Char.isAlphanum] at h ⊢
  grind

theorem isWordRest_of_isDigit {c : Char} (h : c.isDigit) : isWordRest c := by
  simp [isWordRest, Char.isAlphanum, h]

theorem not_isWordStart_of_isDigit {c : Char} (h : c.isDigit) : ¬ isWordStart c := by
  intro hStart
  have hNine : c.val ≤ '9'.val := of_decide_eq_true (Bool.and_eq_true_iff.mp h).2
  rcases Bool.or_eq_true_iff.mp hStart with hAlpha | hUnderscore
  · rcases Bool.or_eq_true_iff.mp hAlpha with hUpper | hLower
    · have hFrom : 'A'.val ≤ c.val := (of_decide_eq_true hUpper).1
      exact absurd (UInt32.le_trans hFrom hNine) (by decide)
    · have hFrom : 'a'.val ≤ c.val := of_decide_eq_true (Bool.and_eq_true_iff.mp hLower).1
      exact absurd (UInt32.le_trans hFrom hNine) (by decide)
  · rw [beq_iff_eq] at hUnderscore
    subst hUnderscore
    cases h

theorem toNat_of_isWordRest {c : Char} (h : isWordRest c) : 48 ≤ c.toNat ∧ c.toNat ≤ 122 := by
  have hRange {low high : Char} (hLow : low.val ≤ c.val) (hHigh : c.val ≤ high.val)
      (hFrom : 48 ≤ low.toNat) (hTo : high.toNat ≤ 122) : 48 ≤ c.toNat ∧ c.toNat ≤ 122 :=
    ⟨Nat.le_trans hFrom (UInt32.le_iff_toNat_le.mp hLow),
      Nat.le_trans (UInt32.le_iff_toNat_le.mp hHigh) hTo⟩
  rcases Bool.or_eq_true_iff.mp h with hAlphanum | hUnderscore
  · rcases Bool.or_eq_true_iff.mp hAlphanum with hAlpha | hDigit
    · rcases Bool.or_eq_true_iff.mp hAlpha with hUpper | hLower
      · obtain ⟨hLow, hHigh⟩ := of_decide_eq_true hUpper
        exact hRange hLow hHigh (by decide) (by decide)
      · obtain ⟨hLow, hHigh⟩ := Bool.and_eq_true_iff.mp hLower
        exact hRange (of_decide_eq_true hLow) (of_decide_eq_true hHigh) (by decide) (by decide)
    · obtain ⟨hLow, hHigh⟩ := Bool.and_eq_true_iff.mp hDigit
      exact hRange (of_decide_eq_true hLow) (of_decide_eq_true hHigh) (by decide) (by decide)
  · obtain rfl := beq_iff_eq.mp hUnderscore
    decide

theorem not_isBlank_of_isWordRest {c : Char} (h : isWordRest c) : ¬ isBlank c := by
  obtain ⟨hLow, hHigh⟩ := toNat_of_isWordRest h
  simp [isBlank, blankRanges]
  omega

theorem takeWhile_append_of_head {p : Char → Bool} {xs rest : List Char}
    (hxs : ∀ c ∈ xs, p c) (hRest : ∀ c, rest.head? = some c → ¬ p c) :
    (xs ++ rest).takeWhile p = xs ∧ (xs ++ rest).dropWhile p = rest := by
  rw [List.takeWhile_append_of_pos hxs, List.dropWhile_append_of_pos hxs]
  cases rest with
  | nil => simp
  | cons c rest =>
    have hc := hRest c rfl
    simp [hc]

/-- Two runs that cannot go on are the same if their texts are. -/
theorem append_inj_of_head {p : Char → Bool} {xs ys rest rest' : List Char}
    (hxs : ∀ c ∈ xs, p c) (hys : ∀ c ∈ ys, p c) (hRest : ∀ c, rest.head? = some c → ¬ p c)
    (hRest' : ∀ c, rest'.head? = some c → ¬ p c) (h : xs ++ rest = ys ++ rest') :
    xs = ys ∧ rest = rest' := by
  obtain ⟨hTake, hDrop⟩ := takeWhile_append_of_head hxs hRest
  obtain ⟨hTake', hDrop'⟩ := takeWhile_append_of_head hys hRest'
  rw [h] at hTake hDrop
  exact ⟨hTake.symm.trans hTake', hDrop.symm.trans hDrop'⟩

theorem prefix_takeWhile {p : Char → Bool} {run text : List Char} (hRun : ∀ c ∈ run, p c)
    (h : run <+: text) : run <+: text.takeWhile p := by
  obtain ⟨rest, rfl⟩ := h
  rw [List.takeWhile_append_of_pos hRun]
  exact List.prefix_append _ _

/-- What a character is missing from ends before the first one. -/
theorem prefix_of_prefix_of_not_mem {part text more : List Char} {c : Char}
    (h : part <+: text ++ c :: more) (hPart : c ∉ part) : part <+: text := by
  by_cases hLength : part.length ≤ text.length
  · exact List.prefix_of_prefix_length_le h (List.prefix_append _ _) hLength
  · obtain ⟨rest, rfl⟩ : text <+: part :=
      List.prefix_of_prefix_length_le (List.prefix_append _ _) h (by omega)
    rw [List.prefix_append_right_inj] at h
    cases rest with
    | nil => simp at hLength
    | cons d rest =>
      obtain ⟨rfl, -⟩ := List.cons_prefix_cons.mp h
      exact absurd (List.mem_append_right _ List.mem_cons_self) hPart

theorem exists_run (p : Char → Bool) (text : List Char) :
    ∃ run rest, text = run ++ rest ∧ (∀ c ∈ run, p c) ∧ ∀ c, rest.head? = some c → ¬ p c := by
  induction text with
  | nil => exact ⟨[], [], rfl, by simp, by simp⟩
  | cons c text ih =>
    by_cases hc : p c
    · obtain ⟨run, rest, rfl, hRun, hRest⟩ := ih
      exact ⟨c :: run, rest, rfl, List.forall_mem_cons.mpr ⟨hc, hRun⟩, hRest⟩
    · refine ⟨[], c :: text, rfl, by simp, ?_⟩
      intro d hd
      cases hd
      exact hc

end CToGo
