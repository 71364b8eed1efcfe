import CToGo.Proofs.Files.Places

/-!
# What changes of file trees leave as it is

Directories never go away, so that a path goes on to lead where it leads. Making directories
leaves every file as it is, whether it succeeds or not, and writing changes one file.

* `file?`: the contents of the file at a place.
* `Grows`: all directories are still there.
* `OnlyAddsDirectories`: so are all files, and there are no others.
* `onlyAddsDirectories_makeDirs`: making directories does nothing else.
* `write_cases`: what can become of writing a file.
-/

namespace CToGo.Files

namespace FileTree

/-! ## Files -/

/-- The contents of the file at a place. -/
def file? (t : FileTree) (place : Place) : Option ByteArray :=
  match t.lookup? place with
  | some (.file contents) => some contents
  | _ => none

theorem file?_eq_some {t : FileTree} {place : Place} {contents : ByteArray} :
    t.file? place = some contents ↔ t.lookup? place = some (.file contents) := by
  unfold file?
  split <;> simp_all

theorem ne_nil_of_lookup?_ne {t : FileTree} {place : Place}
    (h : t.lookup? place ≠ some .directory) : place ≠ [] := by
  rintro rfl
  exact h rfl

theorem file?_insert_self (t : FileTree) {place : Place} (contents : ByteArray)
    (h : place ≠ []) : (t.insert place (.file contents)).file? place = some contents :=
  file?_eq_some.mpr (lookup?_insert_self t _ h)

theorem file?_insert_of_ne (t : FileTree) {place other : Place} (entry : Entry)
    (h : other ≠ place) : (t.insert place entry).file? other = t.file? other := by
  rw [file?, lookup?_insert_of_ne t entry h, file?]

/-! ## Directories that stay -/

/-- The second tree has all directories of the first one. -/
structure Grows (t t' : FileTree) : Prop where
  current : t'.current = t.current
  directory : ∀ place, t.lookup? place = some .directory → t'.lookup? place = some .directory

namespace Grows

variable {t t' t'' : FileTree}

theorem refl (t : FileTree) : Grows t t := ⟨rfl, fun _ h => h⟩

theorem trans (h : Grows t t') (h' : Grows t' t'') : Grows t t'' :=
  ⟨h'.current.trans h.current, fun place hPlace => h'.directory place (h.directory place hPlace)⟩

theorem insert {place : Place} (entry : Entry) (h : t.lookup? place ≠ some .directory) :
    Grows t (t.insert place entry) := by
  refine ⟨rfl, ?_⟩
  intro other hOther
  have hNe : other ≠ place := fun hEq => h (hEq ▸ hOther)
  rw [lookup?_insert_of_ne t entry hNe, hOther]

theorem origin_eq (h : Grows t t') (path : String) : t'.origin path = t.origin path := by
  rw [origin, origin, h.current]

theorem placeOf_eq (h : Grows t t') (path : String) : t'.placeOf path = t.placeOf path := by
  rw [placeOf, placeOf, h.origin_eq]

theorem follow (h : Grows t t') {place found : Place} {names : List String}
    (hFollow : t.follow place names = .ok found) : t'.follow place names = .ok found := by
  fun_induction FileTree.follow t place names with
  | case1 place => exact hFollow
  | case2 => cases hFollow
  | case3 => cases hFollow
  | case4 => cases hFollow
  | case5 place name rest hHere hShort ih =>
    rw [FileTree.follow, h.directory place hHere]
    simp only [if_neg hShort]
    exact ih hFollow

theorem locate (h : Grows t t') {path : String} {place : Place}
    (hLocate : t.locate path = .ok place) : t'.locate path = .ok place := by
  unfold FileTree.locate followFrom at hLocate ⊢
  split at hLocate
  · cases hLocate
  · rw [h.origin_eq]
    exact h.follow hLocate

end Grows

theorem eq_foldl_of_follow {t : FileTree} {place found : Place} {names : List String}
    (h : t.follow place names = .ok found) : found = names.foldl descend place := by
  fun_induction FileTree.follow t place names with
  | case1 place =>
    cases h
    rfl
  | case2 => cases h
  | case3 => cases h
  | case4 => cases h
  | case5 place name rest hHere hShort ih => exact ih h

theorem eq_placeOf_of_locate {t : FileTree} {path : String} {place : Place}
    (h : t.locate path = .ok place) : place = t.placeOf path := by
  unfold locate followFrom at h
  split at h
  · cases h
  · exact eq_foldl_of_follow h

theorem read_eq_ok_iff {t : FileTree} {path : String} {place : Place}
    (h : t.locate path = .ok place) {contents : ByteArray} :
    t.read path = .ok contents ↔ t.file? place = some contents := by
  have hRead : t.read path = match t.lookup? place with
      | some (.file contents) => .ok contents
      | some .directory => .error .isDirectory
      | none => .error .notFound := by
    simp only [read, find, h, bind, Except.bind]
    rcases t.lookup? place with _ | _ | _ <;> rfl
  rw [hRead, file?_eq_some]
  split <;> simp_all

/-! ## Making directories -/

/-- The second tree has the same files as the first one, and all its directories. -/
structure OnlyAddsDirectories (t t' : FileTree) : Prop extends Grows t t' where
  file?_eq : ∀ place, t'.file? place = t.file? place

/-- What a change leaves behind, whether it succeeds or not. -/
def after {ε α : Type} : EStateM.Result ε FileTree α → FileTree
  | .ok _ t => t
  | .error _ t => t

namespace OnlyAddsDirectories

variable {t t' t'' : FileTree}

theorem refl (t : FileTree) : OnlyAddsDirectories t t := ⟨.refl t, fun _ => rfl⟩

theorem trans (h : OnlyAddsDirectories t t') (h' : OnlyAddsDirectories t' t'') :
    OnlyAddsDirectories t t'' :=
  ⟨h.toGrows.trans h'.toGrows, fun place => (h'.file?_eq place).trans (h.file?_eq place)⟩

theorem makeDir (origin : Place) (names : List String) (t : FileTree) :
    OnlyAddsDirectories t (after (makeDir origin names t)) := by
  unfold FileTree.makeDir
  split
  · exact .refl t
  · rename_i place _
    split
    · exact .refl t
    · rename_i hNone
      have hPlace : t.lookup? place ≠ some .directory := by simp [hNone]
      refine ⟨.insert _ hPlace, ?_⟩
      intro other
      by_cases hOther : other = place
      · subst hOther
        rw [file?, after, lookup?_insert_self t _ (ne_nil_of_lookup?_ne hPlace), file?, hNone]
      · exact file?_insert_of_ne t _ hOther

theorem ensureDir (origin : Place) (names : List String) (t : FileTree) :
    OnlyAddsDirectories t (after (ensureDir origin names t)) := by
  have hMake := makeDir origin names t
  unfold FileTree.ensureDir
  split
  · rename_i hEq
    rwa [hEq] at hMake
  · split
    · exact .refl t
    · exact .refl t

theorem makeDirsRev (origin : Place) (names : List String) (t : FileTree) :
    OnlyAddsDirectories t (after (makeDirsRev origin names t)) := by
  induction names generalizing t with
  | nil => exact .refl t
  | cons name above ih =>
    have hEnsure (t : FileTree) := ensureDir origin (name :: above).reverse t
    unfold FileTree.makeDirsRev
    dsimp only
    split
    · -- The directory above is made first, and it stays when the other one cannot be made.
      have hAbove := ih t
      split
      · rename_i hEq
        rw [hEq] at hAbove
        exact hAbove.trans (hEnsure _)
      · rename_i hEq
        rwa [hEq] at hAbove
    · exact hEnsure t

theorem makeDirs (path : String) (t : FileTree) :
    OnlyAddsDirectories t (after (makeDirs path t)) := by
  unfold FileTree.makeDirs
  split
  · exact .refl t
  · split
    · exact .refl t
    · exact makeDirsRev _ _ t

end OnlyAddsDirectories

/-! ## Writing -/

/-- A file is written where the path leads to, or else nothing changes. -/
theorem write_cases {path : String} (hPath : ¬ endsWithSlash path) (contents : ByteArray)
    (t : FileTree) :
    (∃ place, t.locate path = .ok place ∧ t.lookup? place ≠ some .directory ∧
      write path contents t = .ok () (t.insert place (.file contents))) ∨
    ∃ e, write path contents t = .error e t := by
  have hFollow : t.followFrom path (components (withoutSlash path)) = t.locate path := by
    rw [withoutSlash_eq_self hPath, locate]
  cases hLocate : t.locate path with
  | error e =>
    rw [hLocate] at hFollow
    refine .inr ⟨e, ?_⟩
    simp only [write, hFollow]
    exact if_neg hPath
  | ok place =>
    rw [hLocate] at hFollow
    simp only [write, hFollow, if_neg hPath]
    by_cases hPlace : t.lookup? place = some .directory
    · exact .inr ⟨.isDirectory, if_pos hPlace⟩
    · exact .inl ⟨place, rfl, hPlace, if_neg hPlace⟩

end FileTree

end CToGo.Files
