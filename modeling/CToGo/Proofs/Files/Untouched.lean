import CToGo.Proofs.Files.Making

/-!
# Directories that a change leaves as they are

What is read below a directory depends on nothing but the entries there, once the path leads
into the directory. So a change that leaves these as they are makes no difference to what is
read, whatever it does elsewhere.

* `SameBelow`: nothing at a place or below it has changed.
* `SameBelow.of_settles`: steps that change nothing there.
* `Opens`: a path leads into a directory.
* `SameBelow.read_eq`, `SameBelow.entriesUnder_eq`: **what is read below it stays the same.**
-/

namespace CToGo.Files

namespace FileTree

variable {t t' u : FileTree} {place : Place} {entry : Entry}

/-! ## Directories that stay as they are -/

/-- Nothing at the place or below it has changed. -/
structure SameBelow (root : Place) (t t' : FileTree) : Prop extends Grows t t' where
  entries : t'.entries.filter (root.isPrefixOf ·.1) = t.entries.filter (root.isPrefixOf ·.1)

namespace SameBelow

variable {root : Place}

theorem refl (root : Place) (t : FileTree) : SameBelow root t t := ⟨.refl t, rfl⟩

theorem trans (h : SameBelow root t t') (h' : SameBelow root t' u) : SameBelow root t u :=
  ⟨h.toGrows.trans h'.toGrows, h'.entries.trans h.entries⟩

theorem insert (h : t.lookup? place ≠ some .directory) (hPlace : ¬ root <+: place)
    (entry : Entry) : SameBelow root t (t.insert place entry) := by
  have hRoot : ¬ root.isPrefixOf place := fun hEq => hPlace (List.isPrefixOf_iff_prefix.mp hEq)
  refine ⟨.insert entry h, ?_⟩
  simp only [FileTree.insert, List.filter_cons, if_neg hRoot, List.filter_filter]
  refine List.filter_congr fun found _ => ?_
  by_cases hFound : found.1 = place
  · simp [hFound, hRoot]
  · simp [hFound]

theorem lookup?_eq (h : SameBelow root t t') (hPlace : root <+: place) :
    t'.lookup? place = t.lookup? place := by
  have hLookup (entries : List (Place × Entry)) :
      (entries.filter (root.isPrefixOf ·.1)).lookup place = entries.lookup place := by
    have hRoot : root.isPrefixOf place := List.isPrefixOf_iff_prefix.mpr hPlace
    induction entries with
    | nil => rfl
    | cons found entries ih => grind
  rw [lookup?, lookup?, ← hLookup t'.entries, h.entries, hLookup]

/-- Steps that put nothing but directories that are there below a place leave it as it is. -/
theorem of_settles {steps : List Step} {puts : List (Place × Entry)} {complete : Bool}
    (h : Settles t steps puts complete t')
    (hSteps : ∀ place entry, .put place entry ∈ steps → root <+: place →
      entry = .directory ∧ t.lookup? place = some .directory) : SameBelow root t t' := by
  induction h with
  | done t => exact .refl root t
  | stuck t => exact .refl root t
  | blocked => exact .refl root _
  | @put t t' first firstEntry _ _ _ hAdmits _ ih =>
    have hFirst : SameBelow root t (t.record first firstEntry) := by
      rcases hAdmits.cases with ⟨_, _, hRecord⟩ | ⟨hNot, hRecord⟩
      · rw [hRecord]
        exact .refl root t
      · rw [hRecord]
        exact .insert hNot (fun hRoot => hNot (hSteps _ _ List.mem_cons_self hRoot).2) _
    refine hFirst.trans (ih fun place entry hMem hPlace => ?_)
    obtain ⟨hEntry, hLookup⟩ := hSteps place entry (List.mem_cons_of_mem _ hMem) hPlace
    exact ⟨hEntry, hFirst.directory place hLookup⟩

end SameBelow

/-! ## Paths into a directory -/

theorem foldl_descend_front (base : String) (place : Place) :
    (front base).foldl descend place = (components base).foldl descend place := by
  unfold front
  split
  · rename_i hBase
    rw [hBase]
    rfl
  · split
    · rename_i hSlash
      obtain ⟨before, rfl⟩ := eq_append_slash hSlash
      rw [components_slash, List.dropLast_concat, List.foldl_append]
      rfl
    · rfl

/-- Names after the path are looked for in a directory. -/
structure Opens (t : FileTree) (base : String) : Prop where
  follow : t.follow (t.origin base) (front base) = .ok (t.placeOf base)
  directory : t.lookup? (t.placeOf base) = some .directory

theorem locate_foldl_join {names : List String} (hNil : names ≠ [])
    (h : ∀ name ∈ names, IsName name) (base : String) (t : FileTree) :
    t.locate (names.foldl join base) =
      t.followFrom (names.foldl join base) (front base ++ names) := by
  rw [locate, components_foldl_join hNil h]

/-- A name leads somewhere only in a directory. -/
theorem directory_of_follow_concat {names : List String} {name : String} {found : Place}
    (h : t.follow place (names ++ [name]) = .ok found) :
    ∃ above, t.follow place names = .ok above ∧ t.lookup? above = some .directory := by
  induction names generalizing place with
  | nil => exact ⟨place, rfl, (follow_cons_eq_ok h).1⟩
  | cons first names ih =>
    obtain ⟨hPlace, hShort, hRest⟩ := follow_cons_eq_ok h
    rw [follow_cons hPlace hShort]
    exact ih hRest

theorem opens_of_locate {base name : String} (hName : IsName name)
    (h : t.locate (join base name) = .ok place) : t.Opens base := by
  have hNames : ∀ n ∈ [name], IsName n := List.forall_mem_singleton.mpr hName
  have hLocate := locate_foldl_join (List.cons_ne_nil name []) hNames base t
  rw [followFrom, t.origin_foldl_join hNames, List.foldl_cons, List.foldl_nil, h] at hLocate
  split at hLocate
  · cases hLocate
  · obtain ⟨above, hAbove, hDirectory⟩ := directory_of_follow_concat hLocate.symm
    have hEq : above = t.placeOf base :=
      (eq_foldl_of_follow hAbove).trans (foldl_descend_front base _)
    exact ⟨hEq ▸ hAbove, hEq ▸ hDirectory⟩

theorem exists_of_isDirectory {path : String} (h : t.isDirectory path) :
    ∃ found, t.locate path = .ok found ∧ t.lookup? found = some .directory := by
  unfold isDirectory at h
  split at h
  · rename_i hFind
    obtain ⟨found, hLocate, hEntry⟩ := bind_eq_ok.mp hFind
    refine ⟨found, hLocate, ?_⟩
    split at hEntry
    · cases hEntry
      assumption
    · cases hEntry
  · cases h

/-! ## Reading below a directory -/

theorem prefix_of_below? {root : Place} {way : List String} (h : below? root place = some way) :
    root <+: place := by
  unfold below? at h
  split at h
  · rename_i hBoth
    exact List.isPrefixOf_iff_prefix.mp hBoth.1
  · cases h

namespace SameBelow

variable {root : Place} {names : List String}

theorem follow_eq (h : SameBelow root t t') (hPlace : root <+: place)
    (hNames : ∀ name ∈ names, IsName name) : t'.follow place names = t.follow place names := by
  induction names generalizing place with
  | nil => rfl
  | cons name names ih =>
    obtain ⟨hName, hNames⟩ := List.forall_mem_cons.mp hNames
    have hNext := ih (hPlace.trans (List.prefix_append place [name])) hNames
    rw [follow, h.lookup?_eq hPlace, follow, descend_of_isName hName, hNext]

theorem filterMap_eq {β : Type} (h : SameBelow root t t') {f : Place × Entry → Option β}
    (hf : ∀ found, f found ≠ none → root <+: found.1) :
    t'.entries.filterMap f = t.entries.filterMap f := by
  have hEntries (entries : List (Place × Entry)) :
      (entries.filter (root.isPrefixOf ·.1)).filterMap f = entries.filterMap f := by
    rw [List.filterMap_filter]
    refine List.filterMap_congr fun found _ => ?_
    split
    · rfl
    · rename_i hNot
      by_contra hSome
      exact hNot (List.isPrefixOf_iff_prefix.mpr (hf found (Ne.symm hSome)))
  rw [← hEntries t'.entries, h.entries, hEntries]

section

variable {base : String} (h : SameBelow (t.placeOf base) t t') (hOpens : t.Opens base)
  (hNil : names ≠ []) (hNames : ∀ name ∈ names, IsName name)

include h hOpens hNil hNames

theorem locate_eq : t'.locate (names.foldl join base) = t.locate (names.foldl join base) := by
  have hFollow := h.follow hOpens.follow
  rw [locate_foldl_join hNil hNames, locate_foldl_join hNil hNames, followFrom, followFrom,
    h.origin_eq, t.origin_foldl_join hNames, follow_append hFollow, follow_append hOpens.follow,
    h.follow_eq (List.prefix_refl _) hNames]

theorem find_eq : t'.find (names.foldl join base) = t.find (names.foldl join base) := by
  have hLocate := h.locate_eq hOpens hNil hNames
  cases hPlace : t.locate (names.foldl join base) with
  | error e =>
    rw [hPlace] at hLocate
    simp only [find, hPlace, hLocate, bind, Except.bind]
  | ok place =>
    have hBelow : t.placeOf base <+: place := by
      rw [eq_placeOf_of_locate hPlace, placeOf_foldl_join t hNames]
      exact List.prefix_append _ _
    rw [hPlace] at hLocate
    simp only [find, hPlace, hLocate, bind, Except.bind, h.lookup?_eq hBelow]

theorem read_eq : t'.read (names.foldl join base) = t.read (names.foldl join base) := by
  rw [read, read, h.find_eq hOpens hNil hNames]

theorem isDirectory_eq :
    t'.isDirectory (names.foldl join base) = t.isDirectory (names.foldl join base) := by
  rw [isDirectory, isDirectory, h.find_eq hOpens hNil hNames]

theorem entriesUnder_eq :
    t'.entriesUnder (names.foldl join base) = t.entriesUnder (names.foldl join base) := by
  have hLocate := h.locate_eq hOpens hNil hNames
  cases hPlace : t.locate (names.foldl join base) with
  | error e =>
    rw [hPlace] at hLocate
    simp only [entriesUnder, hPlace, hLocate]
  | ok place =>
    have hBelow : t.placeOf base <+: place := by
      rw [eq_placeOf_of_locate hPlace, placeOf_foldl_join t hNames]
      exact List.prefix_append _ _
    rw [hPlace] at hLocate
    simp only [entriesUnder, hPlace, hLocate]
    rw [h.filterMap_eq]
    rintro ⟨other, entry⟩ hOther
    cases hWay : below? place other with
    | none =>
      rw [hWay] at hOther
      exact absurd rfl hOther
    | some way => exact hBelow.trans (prefix_of_below? hWay)

end

end SameBelow

end FileTree

end CToGo.Files
