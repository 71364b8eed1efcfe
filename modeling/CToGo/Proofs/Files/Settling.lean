import CToGo.Proofs.Files.Changes
import CToGo.Proofs.Success

/-!
# Changes that are laid down beforehand

Some changes of a file tree are lists of entries that are put to their places one after the
other, up to the first that cannot be. Whether an entry can be put to a place depends only on
whether a file or a directory stands there, and what stands at a place never becomes the other.
So the same change stops at the same entry whenever it is made again, whatever other changes
have been made in between, as long as they disagree with it about no place.

* `Step`: one entry, or the end of what can be done.
* `Settles`: the course of a list of steps.
* `Settles.lookup?_eq`: what stands at a place afterwards.
* `Settles.again`: **the course is the same in each tree that keeps what was there.**
* `CarriesOut`: a change that takes the steps of a list.
-/

namespace CToGo.Files

def Entry.isDirectory : Entry → Bool
  | .file _ => false
  | .directory => true

theorem Entry.eq_directory {entry : Entry} (h : entry.isDirectory = true) :
    entry = .directory := by
  cases entry with
  | file contents => cases h
  | directory => rfl

namespace FileTree

variable {t t' u : FileTree} {place other : Place} {entry : Entry}

/-! ## Entries that are put to places -/

/-- Nothing stands at the place, or something of the same kind. -/
def Admits (t : FileTree) (place : Place) (entry : Entry) : Prop :=
  ∀ found, t.lookup? place = some found → found.isDirectory = entry.isDirectory

/-- The tree with the entry at the place. A directory that is there is left as it is. -/
def record (t : FileTree) (place : Place) (entry : Entry) : FileTree :=
  if entry = .directory ∧ t.lookup? place = some .directory then t else t.insert place entry

theorem record_of_directory (h : t.lookup? place = some .directory) :
    t.record place .directory = t := if_pos ⟨rfl, h⟩

theorem record_of_ne (h : t.lookup? place ≠ some .directory) :
    t.record place entry = t.insert place entry := if_neg fun hBoth => h hBoth.2

theorem admits_of_none (h : t.lookup? place = none) : t.Admits place entry := by
  intro found hFound
  rw [h] at hFound
  cases hFound

theorem admits_of_some {found : Entry} (h : t.lookup? place = some found) :
    t.Admits place entry ↔ found.isDirectory = entry.isDirectory := by
  constructor
  · exact fun hAdmits => hAdmits found h
  · intro hKind found' hFound'
    rw [h] at hFound'
    cases hFound'
    exact hKind

/-- An entry that is put to a place changes the tree unless it is a directory that is there. -/
theorem Admits.cases (h : t.Admits place entry) :
    (entry = .directory ∧ t.lookup? place = some .directory ∧ t.record place entry = t) ∨
      (t.lookup? place ≠ some .directory ∧ t.record place entry = t.insert place entry) := by
  by_cases hPlace : t.lookup? place = some .directory
  · obtain rfl := Entry.eq_directory (h .directory hPlace).symm
    exact .inl ⟨rfl, hPlace, record_of_directory hPlace⟩
  · exact .inr ⟨hPlace, record_of_ne hPlace⟩

theorem Admits.lookup?_record_self (h : t.Admits place entry) :
    (t.record place entry).lookup? place = some entry := by
  rcases h.cases with ⟨rfl, hPlace, hRecord⟩ | ⟨hPlace, hRecord⟩
  · rw [hRecord, hPlace]
  · rw [hRecord, lookup?_insert_self t entry (ne_nil_of_lookup?_ne hPlace)]

theorem lookup?_record_of_ne (t : FileTree) (entry : Entry) (h : other ≠ place) :
    (t.record place entry).lookup? other = t.lookup? other := by
  unfold record
  split
  · rfl
  · exact lookup?_insert_of_ne t entry h

theorem Admits.grows_record (h : t.Admits place entry) : Grows t (t.record place entry) := by
  rcases h.cases with ⟨_, _, hRecord⟩ | ⟨hPlace, hRecord⟩
  · rw [hRecord]
    exact .refl t
  · rw [hRecord]
    exact .insert entry hPlace

/-! ## Kinds that stay -/

/-- What stands at a place in the first tree is of the same kind in the second one. -/
def Keeps (t t' : FileTree) : Prop :=
  ∀ place entry, t.lookup? place = some entry →
    ∃ entry', t'.lookup? place = some entry' ∧ entry'.isDirectory = entry.isDirectory

theorem Keeps.refl (t : FileTree) : Keeps t t := fun _ entry h => ⟨entry, h, rfl⟩

theorem Keeps.trans (h : Keeps t t') (h' : Keeps t' u) : Keeps t u := by
  intro place entry hEntry
  obtain ⟨entry', hEntry', hKind⟩ := h place entry hEntry
  obtain ⟨entry'', hEntry'', hKind'⟩ := h' place entry' hEntry'
  exact ⟨entry'', hEntry'', hKind'.trans hKind⟩

theorem Admits.keeps_record (h : t.Admits place entry) : Keeps t (t.record place entry) := by
  intro other found hFound
  by_cases hOther : other = place
  · subst hOther
    exact ⟨entry, h.lookup?_record_self, (h found hFound).symm⟩
  · exact ⟨found, by rw [lookup?_record_of_ne t entry hOther, hFound], rfl⟩

theorem Keeps.not_admits (hKeeps : Keeps t u) (h : ¬ t.Admits place entry) :
    ¬ u.Admits place entry := by
  intro hAdmits
  refine h fun found hFound => ?_
  obtain ⟨found', hFound', hKind⟩ := hKeeps place found hFound
  exact hKind.symm.trans (hAdmits found' hFound')

theorem Keeps.record (hKeeps : Keeps t u) (h : t.Admits place entry)
    (h' : u.Admits place entry) : Keeps (t.record place entry) (u.record place entry) := by
  intro other found hFound
  by_cases hOther : other = place
  · subst hOther
    rw [h.lookup?_record_self] at hFound
    cases hFound
    exact ⟨entry, h'.lookup?_record_self, rfl⟩
  · rw [lookup?_record_of_ne t entry hOther] at hFound
    rw [lookup?_record_of_ne u entry hOther]
    exact hKeeps other found hFound

/-! ## Steps -/

/-- One step of a change. -/
inductive Step where
  /-- The entry is put to the place. -/
  | put (place : Place) (entry : Entry)
  /-- Nothing more is done. -/
  | stuck

/-- Steps are taken up to the first that cannot be. Noted are the entries that have been put to
their places, and whether these are all. -/
inductive Settles : FileTree → List Step → List (Place × Entry) → Bool → FileTree → Prop where
  | done (t : FileTree) : Settles t [] [] true t
  | stuck (t : FileTree) (steps : List Step) : Settles t (.stuck :: steps) [] false t
  | blocked {t : FileTree} {place : Place} {entry : Entry} {steps : List Step} :
    ¬ t.Admits place entry → Settles t (.put place entry :: steps) [] false t
  | put {t t' : FileTree} {place : Place} {entry : Entry} {steps : List Step}
      {puts : List (Place × Entry)} {complete : Bool} :
    t.Admits place entry →
    Settles (t.record place entry) steps puts complete t' →
    Settles t (.put place entry :: steps) ((place, entry) :: puts) complete t'

/-- What is put last to a place, if anything is. -/
def lastPut : List (Place × Entry) → Place → Option Entry
  | [], _ => none
  | (place, entry) :: puts, other =>
    (lastPut puts other).or (if other = place then some entry else none)

theorem mem_of_lastPut {puts : List (Place × Entry)} (h : lastPut puts place = some entry) :
    (place, entry) ∈ puts := by
  induction puts with
  | nil => cases h
  | cons first puts ih =>
    rw [lastPut, Option.or_eq_some_iff] at h
    rcases h with h | ⟨_, h⟩
    · exact List.mem_cons_of_mem _ (ih h)
    · rw [Option.ite_none_right_eq_some] at h
      obtain ⟨rfl, hEntry⟩ := h
      cases hEntry
      exact List.mem_cons_self

namespace Settles

variable {steps more : List Step} {puts puts' : List (Place × Entry)} {complete complete' : Bool}

theorem mem_of_mem (h : Settles t steps puts complete t') (hMem : (place, entry) ∈ puts) :
    .put place entry ∈ steps := by
  induction h with
  | done => cases hMem
  | stuck => cases hMem
  | blocked => cases hMem
  | put _ _ ih =>
    rcases List.mem_cons.mp hMem with hEq | hMem
    · cases hEq
      exact List.mem_cons_self
    · exact List.mem_cons_of_mem _ (ih hMem)

theorem grows (h : Settles t steps puts complete t') : Grows t t' := by
  induction h with
  | done t => exact .refl t
  | stuck t => exact .refl t
  | blocked => exact .refl _
  | put hAdmits _ ih => exact hAdmits.grows_record.trans ih

theorem keeps (h : Settles t steps puts complete t') : Keeps t t' := by
  induction h with
  | done t => exact .refl t
  | stuck t => exact .refl t
  | blocked => exact .refl _
  | put hAdmits _ ih => exact hAdmits.keeps_record.trans ih

theorem lookup?_eq (h : Settles t steps puts complete t') (place : Place) :
    t'.lookup? place = (lastPut puts place).or (t.lookup? place) := by
  induction h with
  | done => rfl
  | stuck => rfl
  | blocked => rfl
  | @put _ _ put entry _ _ _ hAdmits _ ih =>
    rw [ih, lastPut, Option.or_assoc]
    congr 1
    by_cases hPlace : place = put
    · subst hPlace
      rw [hAdmits.lookup?_record_self, if_pos rfl, Option.some_or]
    · rw [lookup?_record_of_ne _ _ hPlace, if_neg hPlace, Option.none_or]

/-- What has been put to a place tells of which kind it is in the end. -/
theorem exists_lookup?_of_mem (h : Settles t steps puts complete t')
    (hMem : (place, entry) ∈ puts) :
    ∃ found, t'.lookup? place = some found ∧ found.isDirectory = entry.isDirectory := by
  induction h with
  | done => cases hMem
  | stuck => cases hMem
  | blocked => cases hMem
  | put hAdmits hRest ih =>
    rcases List.mem_cons.mp hMem with hEq | hMem
    · cases hEq
      exact hRest.keeps _ _ hAdmits.lookup?_record_self
    · exact ih hMem

/-- What has been put to a place could be put there at first. -/
theorem admits_of_mem (h : Settles t steps puts complete t') (hMem : (place, entry) ∈ puts) :
    t.Admits place entry := by
  intro found hFound
  obtain ⟨last, hLast, hKind⟩ := h.exists_lookup?_of_mem hMem
  obtain ⟨last', hLast', hKind'⟩ := h.keeps place found hFound
  rw [hLast] at hLast'
  cases hLast'
  exact hKind'.symm.trans hKind

theorem isDirectory_eq_of_mem {entry' : Entry} (h : Settles t steps puts complete t')
    (hMem : (place, entry) ∈ puts) (hMem' : (place, entry') ∈ puts) :
    entry.isDirectory = entry'.isDirectory := by
  obtain ⟨last, hLast, hKind⟩ := h.exists_lookup?_of_mem hMem
  obtain ⟨last', hLast', hKind'⟩ := h.exists_lookup?_of_mem hMem'
  rw [hLast] at hLast'
  cases hLast'
  exact hKind.symm.trans hKind'

/-- In a tree that keeps what was there and has room for what was put, the same steps put the
same entries and come as far. -/
theorem again (h : Settles t steps puts complete t') (hKeeps : Keeps t u)
    (hAdmits : ∀ place entry, (place, entry) ∈ puts → u.Admits place entry) :
    ∃ u', Settles u steps puts complete u' := by
  induction h generalizing u with
  | done => exact ⟨u, .done u⟩
  | stuck => exact ⟨u, .stuck u _⟩
  | blocked hBlocked => exact ⟨u, .blocked (hKeeps.not_admits hBlocked)⟩
  | @put t t' first firstEntry _ _ _ hFirst hRest ih =>
    have hFirst' : u.Admits first firstEntry := hAdmits _ _ List.mem_cons_self
    obtain ⟨u', hSettles⟩ := ih (hKeeps.record hFirst hFirst') <| by
      intro place entry hMem
      by_cases hPlace : place = first
      · -- Both entries are put to this place, so they are of the same kind.
        subst hPlace
        refine (admits_of_some hFirst'.lookup?_record_self).mpr ?_
        exact (admits_of_some hFirst.lookup?_record_self).mp (hRest.admits_of_mem hMem)
      · intro found hFound
        rw [lookup?_record_of_ne u firstEntry hPlace] at hFound
        exact hAdmits place entry (List.mem_cons_of_mem _ hMem) found hFound
    exact ⟨u', .put hFirst' hSettles⟩

theorem unique {u' : FileTree} (h : Settles t steps puts complete t')
    (h' : Settles t steps puts' complete' u') :
    puts = puts' ∧ complete = complete' ∧ t' = u' := by
  induction h generalizing puts' with
  | done =>
    cases h'
    exact ⟨rfl, rfl, rfl⟩
  | stuck =>
    cases h'
    exact ⟨rfl, rfl, rfl⟩
  | blocked hBlocked =>
    cases h' with
    | blocked => exact ⟨rfl, rfl, rfl⟩
    | put hAdmits => exact absurd hAdmits hBlocked
  | put hAdmits _ ih =>
    cases h' with
    | blocked hBlocked => exact absurd hAdmits hBlocked
    | put _ hRest =>
      obtain ⟨rfl, hComplete, hTree⟩ := ih hRest
      exact ⟨rfl, hComplete, hTree⟩

theorem append (h : Settles t steps puts true t') (h' : Settles t' more puts' complete u) :
    Settles t (steps ++ more) (puts ++ puts') complete u := by
  generalize hAll : true = all at h
  induction h with
  | done => exact h'
  | stuck => cases hAll
  | blocked => cases hAll
  | put hAdmits _ ih => exact .put hAdmits (ih h' hAll)

theorem append_of_stopped (h : Settles t steps puts false t') (more : List Step) :
    Settles t (steps ++ more) puts false t' := by
  generalize hAll : false = all at h
  induction h with
  | done => cases hAll
  | stuck => exact .stuck _ _
  | blocked hBlocked => exact .blocked hBlocked
  | put hAdmits _ ih => exact .put hAdmits (ih hAll)

end Settles

/-! ## Changes that carry out steps -/

/-- The change carries out the steps: it succeeds just if all of them can be taken. -/
def CarriesOut {ε α : Type} (change : EStateM ε FileTree α) (t : FileTree) (steps : List Step) :
    Prop :=
  (∃ a t' puts, change t = .ok a t' ∧ Settles t steps puts true t') ∨
    ∃ e t' puts, change t = .error e t' ∧ Settles t steps puts false t'

namespace CarriesOut

variable {ε α β : Type} {steps more : List Step}

theorem congr {change change' : EStateM ε FileTree α} (h : CarriesOut change' t steps)
    (hEq : change t = change' t) : CarriesOut change t steps := by
  unfold CarriesOut
  rw [hEq]
  exact h

theorem bind {first : EStateM ε FileTree α} {second : α → EStateM ε FileTree β}
    (h : CarriesOut first t steps)
    (h' : ∀ a t' puts, Settles t steps puts true t' → CarriesOut (second a) t' more) :
    CarriesOut (first >>= second) t (steps ++ more) := by
  rcases h with ⟨a, t', puts, hFirst, hSettles⟩ | ⟨e, t', puts, hFirst, hSettles⟩
  · rcases h' a t' puts hSettles with
      ⟨b, u, puts', hSecond, hMore⟩ | ⟨e, u, puts', hSecond, hMore⟩
    · exact .inl ⟨b, u, _, bind_apply_eq_ok_iff.mpr ⟨a, t', hFirst, hSecond⟩,
        hSettles.append hMore⟩
    · exact .inr ⟨e, u, _, bind_apply_eq_error_iff.mpr (.inr ⟨a, t', hFirst, hSecond⟩),
        hSettles.append hMore⟩
  · exact .inr ⟨e, t', _, bind_apply_eq_error_iff.mpr (.inl hFirst),
      hSettles.append_of_stopped more⟩

/-- Steps that change nothing can be taken first. -/
theorem prepend {change : EStateM ε FileTree α} {puts : List (Place × Entry)}
    (h : CarriesOut change t more) (hSettles : Settles t steps puts true t) :
    CarriesOut change t (steps ++ more) := by
  rcases h with ⟨a, u, puts', hChange, hMore⟩ | ⟨e, u, puts', hChange, hMore⟩
  · exact .inl ⟨a, u, _, hChange, hSettles.append hMore⟩
  · exact .inr ⟨e, u, _, hChange, hSettles.append hMore⟩

/-- A step that cannot be taken is as good as the end. -/
theorem stuck {change : EStateM ε FileTree α} (h : CarriesOut change t [.put place entry])
    (hAdmits : ¬ t.Admits place entry) : CarriesOut change t [.stuck] := by
  rcases h with ⟨a, t', puts, hChange, hSettles⟩ | ⟨e, t', puts, hChange, hSettles⟩
  · cases hSettles with
    | put hPut => exact absurd hPut hAdmits
  · cases hSettles with
    | blocked => exact .inr ⟨e, t, [], hChange, .stuck t []⟩
    | put hPut => exact absurd hPut hAdmits

end CarriesOut

end FileTree

end CToGo.Files
