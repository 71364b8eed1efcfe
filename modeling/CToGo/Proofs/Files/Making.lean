import CToGo.Proofs.Files.Settling
import CToGo.Proofs.Files.Steps

/-!
# Making directories step by step

To make a directory it is tried first to make it alone, and only if there is nothing to make it
in, what is above it is made first. All the same this comes down to going the whole way from
where the path begins: each directory on the way is put to its place, and a file in the way, or
a name that is too long, is the end of it.

* `waySteps`: the steps on the way to a directory.
* `carriesOut_makeDirs`: **making directories goes the whole way.**
* `carriesOut_write`: writing a file is one more step.
-/

namespace CToGo.Files

namespace FileTree

variable {t t' : FileTree} {place found : Place} {name : String} {names : List String}

/-! ## Following components -/

theorem follow_cons (h : t.lookup? place = some .directory)
    (hShort : ¬ maxNameBytes < name.utf8ByteSize) (names : List String) :
    t.follow place (name :: names) = t.follow (descend place name) names := by
  rw [follow, h]
  exact if_neg hShort

theorem follow_cons_of_long (h : t.lookup? place = some .directory)
    (hLong : maxNameBytes < name.utf8ByteSize) (names : List String) :
    t.follow place (name :: names) = .error .nameTooLong := by
  rw [follow, h]
  exact if_pos hLong

theorem follow_cons_eq_ok (h : t.follow place (name :: names) = .ok found) :
    t.lookup? place = some .directory ∧ ¬ maxNameBytes < name.utf8ByteSize ∧
      t.follow (descend place name) names = .ok found := by
  rw [follow] at h
  split at h
  · cases h
  · cases h
  · rename_i hPlace
    split at h
    · cases h
    · exact ⟨hPlace, by assumption, h⟩

theorem follow_of_none (h : t.lookup? place = none) (hNil : names ≠ []) :
    t.follow place names = .error .notFound := by
  obtain ⟨name, names, rfl⟩ := List.exists_cons_of_ne_nil hNil
  rw [follow, h]

theorem follow_of_file {contents : ByteArray} (h : t.lookup? place = some (.file contents))
    (hNil : names ≠ []) : t.follow place names = .error .notDirectory := by
  obtain ⟨name, names, rfl⟩ := List.exists_cons_of_ne_nil hNil
  rw [follow, h]

theorem follow_append (h : t.follow place names = .ok found) (more : List String) :
    t.follow place (names ++ more) = t.follow found more := by
  induction names generalizing place with
  | nil =>
    cases h
    rfl
  | cons name names ih =>
    obtain ⟨hPlace, hShort, hRest⟩ := follow_cons_eq_ok h
    rw [List.cons_append, follow_cons hPlace hShort]
    exact ih hRest

theorem lookup?_of_follow (h : t.follow place names = .ok found)
    (hFound : t.lookup? found = some .directory) : t.lookup? place = some .directory := by
  cases names with
  | nil =>
    cases h
    exact hFound
  | cons name names => exact (follow_cons_eq_ok h).1

/-- Components that lead nowhere make no difference on the way to a directory. -/
theorem follow_of_filter
    (h : t.follow place (names.filter fun c => c ≠ "" ∧ c ≠ ".") = .ok found)
    (hFound : t.lookup? found = some .directory) : t.follow place names = .ok found := by
  induction names generalizing place with
  | nil => exact h
  | cons name names ih =>
    have hHere := lookup?_of_follow h hFound
    by_cases hEmpty : name = "" ∨ name = "."
    · rw [List.filter_cons_of_neg (by rcases hEmpty with rfl | rfl <;> decide)] at h
      have hShort : ¬ maxNameBytes < name.utf8ByteSize := by
        rcases hEmpty with rfl | rfl <;> decide
      rw [follow_cons hHere hShort, descend, if_pos hEmpty]
      exact ih h
    · rw [List.filter_cons_of_pos (by simpa using hEmpty)] at h
      obtain ⟨_, hShort, hRest⟩ := follow_cons_eq_ok h
      rw [follow_cons hHere hShort]
      exact ih hRest

/-! ## The way to a directory -/

/-- The steps on the way that components lead. -/
def waySteps (place : Place) : List String → List Step
  | [] => []
  | name :: names =>
    (if maxNameBytes < name.utf8ByteSize then .stuck else .put (descend place name) .directory)
      :: waySteps (descend place name) names

theorem waySteps_cons (h : ¬ maxNameBytes < name.utf8ByteSize) :
    waySteps place (name :: names) =
      .put (descend place name) .directory :: waySteps (descend place name) names := by
  rw [waySteps, if_neg h]

theorem waySteps_cons_of_long (h : maxNameBytes < name.utf8ByteSize) :
    waySteps place (name :: names) = .stuck :: waySteps (descend place name) names := by
  rw [waySteps, if_pos h]

theorem waySteps_append (place : Place) (names more : List String) :
    waySteps place (names ++ more) =
      waySteps place names ++ waySteps (names.foldl descend place) more := by
  induction names generalizing place with
  | nil => rfl
  | cons name names ih => rw [List.cons_append, waySteps, ih, waySteps, List.foldl_cons]; rfl

/-- The places on the way from a place that components lead. -/
def wayPlaces (place : Place) (names : List String) : List Place := names.scanl descend place

theorem wayPlaces_cons (place : Place) (name : String) (names : List String) :
    wayPlaces place (name :: names) = place :: wayPlaces (descend place name) names :=
  List.scanl_cons

theorem mem_wayPlaces_of_put {entry : Entry} (h : .put found entry ∈ waySteps place names) :
    entry = .directory ∧ found ∈ wayPlaces place names := by
  induction names generalizing place with
  | nil => cases h
  | cons name names ih =>
    rw [wayPlaces_cons]
    rcases List.mem_cons.mp h with hEq | hMem
    · split at hEq
      · cases hEq
      · cases hEq
        refine ⟨rfl, List.mem_cons_of_mem _ ?_⟩
        cases names <;> simp [wayPlaces]
    · obtain ⟨hEntry, hFound⟩ := ih hMem
      exact ⟨hEntry, List.mem_cons_of_mem _ hFound⟩

/-- Names after a component lead to places below the one that it leads to. -/
theorem prefix_of_put {entry : Entry} (hNames : ∀ name ∈ names, IsName name)
    (h : .put found entry ∈ waySteps place (name :: names)) : descend place name <+: found := by
  induction names generalizing place name with
  | nil =>
    rw [waySteps, waySteps, List.mem_singleton] at h
    split at h
    · cases h
    · cases h
      exact List.prefix_refl _
  | cons next names ih =>
    obtain ⟨hNext, hRest⟩ := List.forall_mem_cons.mp hNames
    rw [waySteps, List.mem_cons] at h
    rcases h with hEq | hMem
    · split at hEq
      · cases hEq
      · cases hEq
        exact List.prefix_refl _
    · refine List.IsPrefix.trans ?_ (ih hRest hMem)
      rw [descend_of_isName hNext]
      exact List.prefix_append _ _

theorem mem_wayPlaces_append {passed : Place} (h : passed ∈ wayPlaces place names)
    (more : List String) : passed ∈ wayPlaces place (names ++ more) := by
  induction names generalizing place with
  | nil =>
    obtain rfl := List.mem_singleton.mp h
    cases more <;> simp [wayPlaces]
  | cons name names ih =>
    rw [wayPlaces_cons, List.mem_cons] at h
    rw [List.cons_append, wayPlaces_cons, List.mem_cons]
    exact h.imp_right ih

/-- All places on the way to a directory are directories. -/
theorem directory_of_mem_wayPlaces {passed : Place} (h : t.follow place names = .ok found)
    (hFound : t.lookup? found = some .directory)
    (hMem : passed ∈ wayPlaces place (names.filter fun c => c ≠ "" ∧ c ≠ ".")) :
    t.lookup? passed = some .directory := by
  induction names generalizing place with
  | nil =>
    cases h
    rwa [List.mem_singleton.mp hMem]
  | cons name names ih =>
    obtain ⟨hPlace, _, hRest⟩ := follow_cons_eq_ok h
    by_cases hEmpty : name = "" ∨ name = "."
    · rw [List.filter_cons_of_neg (by rcases hEmpty with rfl | rfl <;> decide)] at hMem
      rw [descend, if_pos hEmpty] at hRest
      exact ih hRest hMem
    · rw [List.filter_cons_of_pos (by simpa using hEmpty), wayPlaces_cons] at hMem
      rcases List.mem_cons.mp hMem with rfl | hMem
      · exact hPlace
      · exact ih hRest hMem

/-- A way that never leads up passes only what is above its end. -/
theorem prefix_of_mem_wayPlaces {passed : Place} (hUp : ".." ∉ names)
    (hMem : passed ∈ wayPlaces place names) : passed <+: names.foldl descend place := by
  have hDown {names : List String} (hUp : ".." ∉ names) (place : Place) :
      place <+: names.foldl descend place := by
    induction names generalizing place with
    | nil => exact List.prefix_refl place
    | cons name names ih =>
      obtain ⟨hName, hNames⟩ := not_or.mp (mt List.mem_cons.mpr hUp)
      refine List.IsPrefix.trans ?_ (ih hNames (descend place name))
      rw [descend, if_neg (Ne.symm hName)]
      split
      · exact List.prefix_refl place
      · exact List.prefix_append place [name]
  induction names generalizing place with
  | nil =>
    rw [List.mem_singleton.mp hMem]
    exact List.prefix_refl place
  | cons name names ih =>
    rw [wayPlaces_cons] at hMem
    rcases List.mem_cons.mp hMem with rfl | hMem
    · exact hDown hUp passed
    · exact ih (fun hIn => hUp (List.mem_cons_of_mem _ hIn)) hMem

/-- A way that has been gone leads to a directory and through nothing else. -/
theorem way_of_settles {puts : List (Place × Entry)}
    (h : Settles t (waySteps place names) puts true t')
    (hPlace : t.lookup? place = some .directory) :
    t'.follow place names = .ok (names.foldl descend place) ∧
      t'.lookup? (names.foldl descend place) = some .directory ∧
      ∀ passed ∈ wayPlaces place names, t'.lookup? passed = some .directory := by
  induction names generalizing t place puts with
  | nil =>
    cases h
    exact ⟨rfl, hPlace, fun _ hMem => List.mem_singleton.mp hMem ▸ hPlace⟩
  | cons name names ih =>
    have hPlace' := h.grows.directory place hPlace
    by_cases hLong : maxNameBytes < name.utf8ByteSize
    · rw [waySteps_cons_of_long hLong] at h
      cases h
    · rw [waySteps_cons hLong] at h
      cases h with
      | put hAdmits hRest =>
        obtain ⟨hFollow, hFound, hPassed⟩ := ih hRest hAdmits.lookup?_record_self
        rw [follow_cons hPlace' hLong, List.foldl_cons, wayPlaces_cons]
        exact ⟨hFollow, hFound, List.forall_mem_cons.mpr ⟨hPlace', hPassed⟩⟩

/-- The way is all there, or ends where something can be made, or at something in the way. -/
theorem way_cases (hPlace : t.lookup? place = some .directory) (names : List String)
    (name : String) :
    (∃ found puts, t.follow place names = .ok found ∧ t.lookup? found = some .directory ∧
      Settles t (waySteps place names) puts true t) ∨
    t.follow place (names ++ [name]) = .error .notFound ∨
    ∃ e puts, e ≠ .notFound ∧ t.follow place (names ++ [name]) = .error e ∧
      Settles t (waySteps place names) puts false t := by
  induction names generalizing place with
  | nil => exact .inl ⟨place, [], rfl, hPlace, .done t⟩
  | cons first names ih =>
    have hNil : names ++ [name] ≠ [] := List.append_ne_nil_of_right_ne_nil _ (List.cons_ne_nil _ _)
    by_cases hLong : maxNameBytes < first.utf8ByteSize
    · refine .inr (.inr ⟨.nameTooLong, [], by decide, follow_cons_of_long hPlace hLong _, ?_⟩)
      rw [waySteps_cons_of_long hLong]
      exact .stuck t _
    · simp only [List.cons_append, follow_cons hPlace hLong, waySteps_cons hLong]
      cases hNext : t.lookup? (descend place first) with
      | none => exact .inr (.inl (follow_of_none hNext hNil))
      | some next =>
        cases next with
        | file contents =>
          refine .inr (.inr ⟨.notDirectory, [], by decide, follow_of_file hNext hNil, .blocked ?_⟩)
          rw [admits_of_some hNext]
          exact Bool.false_ne_true
        | directory =>
          have hAdmits : t.Admits (descend place first) .directory :=
            (admits_of_some hNext).mpr rfl
          have hSame : t.record (descend place first) .directory = t := record_of_directory hNext
          rcases ih hNext with ⟨found, puts, hFollow, hFound, hSettles⟩ | hNone |
            ⟨e, puts, hError, hFollow, hSettles⟩
          · exact .inl ⟨found, _, hFollow, hFound, .put hAdmits (by rwa [hSame])⟩
          · exact .inr (.inl hNone)
          · exact .inr (.inr ⟨e, _, hError, hFollow, .put hAdmits (by rwa [hSame])⟩)

/-! ## Making directories -/

theorem follow_singleton (h : t.lookup? place = some .directory)
    (hShort : ¬ maxNameBytes < name.utf8ByteSize) :
    t.follow place [name] = .ok (descend place name) := by
  rw [follow_cons h hShort, follow]

/-- In a directory that is there, one directory is made in one step. -/
theorem carriesOut_ensureDir (hFollow : t.follow place names = .ok found)
    (hFound : t.lookup? found = some .directory) (name : String) :
    CarriesOut (ensureDir place (names ++ [name])) t (waySteps found [name]) := by
  have hName := follow_append hFollow [name]
  by_cases hLong : maxNameBytes < name.utf8ByteSize
  · rw [follow_cons_of_long hFound hLong] at hName
    rw [waySteps_cons_of_long hLong]
    refine .inr ⟨.nameTooLong, t, [], ?_, .stuck t _⟩
    simp only [ensureDir, makeDir, leadsToDirectory, hName]
    rfl
  · rw [follow_singleton hFound hLong] at hName
    rw [waySteps_cons hLong]
    cases hNew : t.lookup? (descend found name) with
    | none =>
      refine .inl ⟨(), t.insert (descend found name) .directory,
        [(descend found name, .directory)], ?_, .put (admits_of_none hNew) ?_⟩
      · simp only [ensureDir, makeDir, hName, hNew]
      · rw [record_of_ne (by simp [hNew])]
        exact .done _
    | some old =>
      cases old with
      | file contents =>
        refine .inr ⟨.alreadyExists, t, [], ?_, .blocked ?_⟩
        · simp only [ensureDir, makeDir, leadsToDirectory, hName, hNew]
          rfl
        · rw [admits_of_some hNew]
          exact Bool.false_ne_true
      | directory =>
        refine .inl ⟨(), t, [(descend found name, .directory)], ?_,
          .put ((admits_of_some hNew).mpr rfl) ?_⟩
        · simp only [ensureDir, makeDir, leadsToDirectory, hName, hNew]
          rfl
        · rw [record_of_directory hNew]
          exact .done t

theorem ensureDir_eq_error {e : FileError} (h : t.follow place names = .error e) :
    ensureDir place names t = .error e t := by
  simp only [ensureDir, makeDir, leadsToDirectory, h]
  rfl

theorem follow_of_ensureDir (h : ensureDir place names t = .error .notFound t') :
    t.follow place names = .error .notFound := by
  simp only [ensureDir, makeDir] at h
  cases hFollow : t.follow place names with
  | error e =>
    simp only [leadsToDirectory, hFollow] at h
    cases h
    rfl
  | ok found =>
    rw [hFollow] at h
    cases hFound : t.lookup? found <;> simp only [hFound] at h
    · cases h
    · split at h <;> cases h

theorem makeDirsRev_of_missing {above : List String}
    (h : ensureDir place (above.reverse ++ [name]) t = .error .notFound t) :
    makeDirsRev place (name :: above) t =
      (makeDirsRev place above >>= fun _ => ensureDir place (above.reverse ++ [name])) t := by
  simp only [makeDirsRev, List.reverse_cons, h, bind, EStateM.bind]
  cases makeDirsRev place above t <;> rfl

theorem makeDirsRev_of_tried {above : List String}
    (h : t.follow place (above.reverse ++ [name]) ≠ .error .notFound) :
    makeDirsRev place (name :: above) t = ensureDir place (above.reverse ++ [name]) t := by
  rw [makeDirsRev, List.reverse_cons]
  dsimp only
  split
  · rename_i hMissing
    exact absurd (follow_of_ensureDir hMissing) h
  · rfl

theorem carriesOut_makeDirsRev (h : t.lookup? place = some .directory) (names : List String) :
    CarriesOut (makeDirsRev place names) t (waySteps place names.reverse) := by
  induction names with
  | nil => exact .inl ⟨(), t, [], rfl, .done t⟩
  | cons name above ih =>
    rw [List.reverse_cons, waySteps_append]
    rcases way_cases h above.reverse name with ⟨found, puts, hFollow, hFound, hSettles⟩ | hNone |
      ⟨e, puts, hError, hFollow, hSettles⟩
    · -- All that is above is there.
      have hEnsure := carriesOut_ensureDir hFollow hFound name
      rw [eq_foldl_of_follow hFollow] at hEnsure
      refine (hEnsure.prepend hSettles).congr (makeDirsRev_of_tried ?_)
      rw [follow_append hFollow]
      by_cases hLong : maxNameBytes < name.utf8ByteSize
      · rw [follow_cons_of_long hFound hLong]
        simp
      · rw [follow_singleton hFound hLong]
        simp
    · -- What is above is made first, and then leads to a directory.
      refine CarriesOut.congr (ih.bind ?_) (makeDirsRev_of_missing (ensureDir_eq_error hNone))
      intro _ t' puts hSettles
      obtain ⟨hFollow, hFound, _⟩ := way_of_settles hSettles h
      exact carriesOut_ensureDir hFollow hFound name
    · -- Nothing can be made beyond what is in the way.
      have hTried : makeDirsRev place (name :: above) t = .error e t := by
        rw [makeDirsRev_of_tried (by rw [hFollow]; exact fun hEq => hError (Except.error.inj hEq)),
          ensureDir_eq_error hFollow]
      exact .inr ⟨e, t, puts, hTried, hSettles.append_of_stopped _⟩

/-- Nothing can be made from a place where there is no directory. -/
theorem makeDirsRev_of_not_directory (h : t.lookup? place ≠ some .directory)
    (hNil : names ≠ []) : ∃ e, makeDirsRev place names t = .error e t := by
  induction names with
  | nil => exact absurd rfl hNil
  | cons name above ih =>
    have hWay : above.reverse ++ [name] ≠ [] :=
      List.append_ne_nil_of_right_ne_nil _ (List.cons_ne_nil _ _)
    cases hPlace : t.lookup? place with
    | none =>
      have hEnsure := ensureDir_eq_error (follow_of_none hPlace hWay)
      have hMake := makeDirsRev_of_missing hEnsure
      by_cases hAbove : above = []
      · subst hAbove
        exact ⟨.notFound, hMake.trans hEnsure⟩
      · obtain ⟨e, hError⟩ := ih hAbove
        exact ⟨e, hMake.trans (bind_apply_eq_error_iff.mpr (.inl hError))⟩
    | some entry =>
      cases entry with
      | directory => exact absurd hPlace h
      | file contents =>
        have hFollow := follow_of_file hPlace hWay
        refine ⟨.notDirectory, ?_⟩
        rw [makeDirsRev_of_tried (by simp [hFollow]), ensureDir_eq_error hFollow]

theorem makeDirs_of_no_origin {path : String} (hPath : path ≠ "") (hNil : steps path ≠ [])
    (h : t.lookup? (t.origin path) ≠ some .directory) :
    ∃ e, makeDirs path t = .error e t := by
  have hEmpty : ¬ path.isEmpty := mt String.isEmpty_iff.mp hPath
  cases hFault : pathFault? path with
  | some e => exact ⟨e, by simp only [makeDirs, if_neg hEmpty, hFault]⟩
  | none =>
    obtain ⟨e, hError⟩ := makeDirsRev_of_not_directory h (List.reverse_ne_nil_iff.mpr hNil)
    refine ⟨e, ?_⟩
    simp only [makeDirs, if_neg hEmpty, hFault]
    exact hError

/-- The steps of making the directory that a path leads to. -/
def dirSteps (t : FileTree) (path : String) : List Step :=
  if (pathFault? path).isSome then [.stuck] else waySteps (t.origin path) (steps path)

theorem carriesOut_makeDirs {path : String} (hPath : path ≠ "")
    (h : t.lookup? (t.origin path) = some .directory) :
    CarriesOut (makeDirs path) t (t.dirSteps path) := by
  have hEmpty : ¬ path.isEmpty := mt String.isEmpty_iff.mp hPath
  unfold dirSteps
  cases hFault : pathFault? path with
  | some e =>
    refine .inr ⟨e, t, [], ?_, .stuck t []⟩
    simp only [makeDirs, if_neg hEmpty, hFault]
  | none =>
    have hMake := carriesOut_makeDirsRev h (steps path).reverse
    rw [List.reverse_reverse] at hMake
    refine hMake.congr ?_
    simp only [makeDirs, if_neg hEmpty, hFault]
    rfl

/-- A directory that has been made is there, and so are those on the way. -/
theorem way_of_dirSteps {path : String} {puts : List (Place × Entry)}
    (h : Settles t (t.dirSteps path) puts true t')
    (hOrigin : t.lookup? (t.origin path) = some .directory) :
    t'.follow (t'.origin path) (components path) = .ok (t'.placeOf path) ∧
      t'.lookup? (t'.placeOf path) = some .directory ∧
      ∀ passed ∈ wayPlaces (t'.origin path) (steps path), t'.lookup? passed = some .directory := by
  have hGrows := h.grows
  unfold dirSteps at h
  split at h
  · cases h
  · obtain ⟨hSteps, hFound, hPassed⟩ := way_of_settles h hOrigin
    have hFollow := follow_of_filter hSteps hFound
    rw [← hGrows.origin_eq, t'.foldl_descend_steps] at hFollow hFound
    rw [← hGrows.origin_eq] at hPassed
    exact ⟨hFollow, hFound, hPassed⟩

/-! ## Writing files -/

/-- The step of writing a file in a directory. -/
def fileStep (place : Place) (contents : ByteArray) : Step :=
  if place.getLast?.any fun name => decide (maxNameBytes < name.utf8ByteSize) then .stuck
  else .put place (.file contents)

theorem fileStep_concat (found : Place) (name : String) (contents : ByteArray) :
    fileStep (found ++ [name]) contents =
      if maxNameBytes < name.utf8ByteSize then .stuck
      else .put (found ++ [name]) (.file contents) := by
  simp only [fileStep, List.getLast?_concat, Option.any_some, decide_eq_true_eq]

/-- In a directory that is there, a file is written in one step. -/
theorem carriesOut_write {base : String} (hName : IsName name)
    (hBase : components (join base name) = components base ++ [name])
    (hFault : pathFault? (join base name) = none)
    (hFollow : t.follow (t.origin (join base name)) (components base) = .ok found)
    (hFound : t.lookup? found = some .directory) (contents : ByteArray) :
    CarriesOut (write (join base name) contents) t [fileStep (found ++ [name]) contents] := by
  have hSlash := not_endsWithSlash_join hName base
  have hLocate : t.followFrom (join base name) (components (withoutSlash (join base name))) =
      t.follow found [name] := by
    rw [withoutSlash_eq_self hSlash, followFrom, hFault, hBase]
    exact follow_append hFollow [name]
  rw [fileStep_concat]
  by_cases hLong : maxNameBytes < name.utf8ByteSize
  · rw [follow_cons_of_long hFound hLong] at hLocate
    rw [if_pos hLong]
    refine .inr ⟨.nameTooLong, t, [], ?_, .stuck t []⟩
    simp only [write, if_neg hSlash, hLocate]
  · rw [follow_singleton hFound hLong, descend_of_isName hName] at hLocate
    rw [if_neg hLong]
    by_cases hPlace : t.lookup? (found ++ [name]) = some .directory
    · refine .inr ⟨.isDirectory, t, [], ?_, .blocked ?_⟩
      · simp only [write, if_neg hSlash, hLocate, if_pos hPlace]
      · rw [admits_of_some hPlace]
        exact Bool.false_ne_true.symm
    · refine .inl ⟨(), t.insert (found ++ [name]) (.file contents),
        [(found ++ [name], .file contents)], ?_, .put ?_ ?_⟩
      · simp only [write, if_neg hSlash, hLocate, if_neg hPlace]
      · intro old hOld
        cases old with
        | file _ => rfl
        | directory => exact absurd hOld hPlace
      · rw [record_of_ne hPlace]
        exact .done _

end FileTree

end CToGo.Files
