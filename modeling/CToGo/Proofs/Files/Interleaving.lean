import CToGo.Proofs.Files.Untouched

/-!
# Changes in any order

Several changes that are laid down beforehand are made one after the other, in some order and
each of them any number of times. Where two of them put something to the same place, both put a
directory there. Then each change takes the course that it would have taken as the first one,
and in the end there stands at each place what the changes that were made put there, in
whatever order they were.

* `Courses`: the changes, with their courses.
* `Reached`: a tree in which certain changes have been made.
* `Reached.step`: **one more change takes its course.**
* `Reached.lookup?_eq`: **what stands at a place tells nothing of the order.**
-/

namespace CToGo.Files

namespace FileTree

variable {ι : Type} {root place : Place} {t u u' : FileTree} {steps : ι → List Step}
  {puts : ι → List (Place × Entry)} {complete : ι → Bool} {made made' : ι → Prop} {i : ι}

/-- Changes of a tree that agree with each other, and each of which leaves what is below the
root as it is. -/
structure Courses (root : Place) (t : FileTree) (steps : ι → List Step)
    (puts : ι → List (Place × Entry)) (complete : ι → Bool) : Prop where
  settles : ∀ i, ∃ t', Settles t (steps i) (puts i) (complete i) t'
  agree : ∀ i j, i ≠ j → ∀ place entry entry', (place, entry) ∈ puts i →
    (place, entry') ∈ puts j → entry = entry' ∧ entry = .directory
  apart : ∀ i place entry, .put place entry ∈ steps i → root <+: place →
    entry = .directory ∧ t.lookup? place = some .directory

/-- The tree with some of the changes made, in whatever order. -/
structure Reached (root : Place) (t : FileTree) (puts : ι → List (Place × Entry))
    (made : ι → Prop) (u : FileTree) : Prop where
  same : SameBelow root t u
  keeps : Keeps t u
  there : ∀ i, made i → ∀ place entry, lastPut (puts i) place = some entry →
    u.lookup? place = some entry
  rest : ∀ place, (∀ i, made i → lastPut (puts i) place = none) →
    u.lookup? place = t.lookup? place

namespace Reached

theorem refl (root : Place) (t : FileTree) (puts : ι → List (Place × Entry)) :
    Reached root t puts (fun _ => False) t :=
  ⟨.refl root t, .refl t, fun _ hMade => hMade.elim, fun _ _ => rfl⟩

theorem congr (h : Reached root t puts made u) (hMade : ∀ i, made i ↔ made' i) :
    Reached root t puts made' u := by
  obtain rfl : made = made' := funext fun i => propext (hMade i)
  exact h

/-- At a place stands what was put there by some change, or what stood there at first. -/
theorem cases (h : Reached root t puts made u) (place : Place) :
    (∃ i entry, made i ∧ lastPut (puts i) place = some entry ∧ u.lookup? place = some entry) ∨
      ((∀ i, made i → lastPut (puts i) place = none) ∧ u.lookup? place = t.lookup? place) := by
  by_cases hNone : ∀ i, made i → lastPut (puts i) place = none
  · exact .inr ⟨hNone, h.rest place hNone⟩
  · obtain ⟨i, hNot⟩ := not_forall.mp hNone
    obtain ⟨hMade, hSome⟩ := Classical.not_imp.mp hNot
    obtain ⟨entry, hEntry⟩ := Option.ne_none_iff_exists'.mp hSome
    exact .inl ⟨i, entry, hMade, hEntry, h.there i hMade place entry hEntry⟩

theorem admits (hCourses : Courses root t steps puts complete) (h : Reached root t puts made u)
    {entry : Entry} (hMem : (place, entry) ∈ puts i) : u.Admits place entry := by
  obtain ⟨t', hSettles⟩ := hCourses.settles i
  rcases h.cases place with ⟨j, other, _, hLast, hOther⟩ | ⟨_, hSame⟩
  · refine (admits_of_some hOther).mpr ?_
    have hPut := mem_of_lastPut hLast
    by_cases hEq : i = j
    · subst hEq
      exact hSettles.isDirectory_eq_of_mem hPut hMem
    · rw [(hCourses.agree i j hEq place entry other hMem hPut).1]
  · intro found hFound
    rw [hSame] at hFound
    exact hSettles.admits_of_mem hMem found hFound

/-- In a tree with some changes made, whatever these are, one more takes the course that it
would have taken as the first one. -/
theorem step (hCourses : Courses root t steps puts complete) (h : Reached root t puts made u)
    (i : ι) : ∃ u', Settles u (steps i) (puts i) (complete i) u' ∧
      Reached root t puts (fun j => made j ∨ j = i) u' := by
  obtain ⟨t', hFirst⟩ := hCourses.settles i
  obtain ⟨u', hSettles⟩ := hFirst.again h.keeps fun place entry => h.admits hCourses
  have hSame : SameBelow root u u' := .of_settles hSettles fun place entry hMem hPlace => by
    obtain ⟨hEntry, hLookup⟩ := hCourses.apart i place entry hMem hPlace
    exact ⟨hEntry, h.same.directory place hLookup⟩
  refine ⟨u', hSettles, h.same.trans hSame, h.keeps.trans hSettles.keeps, ?_, ?_⟩
  · intro j hMade place entry hLast
    rw [hSettles.lookup?_eq]
    cases hNew : lastPut (puts i) place with
    | none =>
      rcases hMade with hMade | rfl
      · exact h.there j hMade place entry hLast
      · rw [hLast] at hNew
        cases hNew
    | some new =>
      -- What was put there before is a directory, or was put there by the same change.
      by_cases hEq : i = j
      · subst hEq
        rw [hLast] at hNew
        cases hNew
        rfl
      · rw [(hCourses.agree i j hEq place new entry (mem_of_lastPut hNew)
          (mem_of_lastPut hLast)).1]
        rfl
  · intro place hNone
    rw [hSettles.lookup?_eq, hNone i (.inr rfl), Option.none_or]
    exact h.rest place fun j hMade => hNone j (.inl hMade)

/-- Two trees in which the same changes have been made are the same at each place. -/
theorem lookup?_eq (h : Reached root t puts made u) (h' : Reached root t puts made' u')
    (hMade : ∀ i, made i ↔ made' i) (place : Place) : u.lookup? place = u'.lookup? place := by
  rcases h.cases place with ⟨i, entry, hHere, hLast, hEntry⟩ | ⟨hNone, hSame⟩
  · rw [hEntry, h'.there i ((hMade i).mp hHere) place entry hLast]
  · rw [hSame, h'.rest place fun i hHere => hNone i ((hMade i).mpr hHere)]

end Reached

end FileTree

end CToGo.Files
