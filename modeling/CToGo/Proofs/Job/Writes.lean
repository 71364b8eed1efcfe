import CToGo.Proofs.Files.Interleaving
import CToGo.Proofs.Job.Resolution

/-!
# What jobs write, step by step

To write a result the way to the output root is gone, then the way to the directory of the
result, and then the file is written. Which steps these are can be told from the names alone.
Two jobs put something to the same place only on the way to the output root, and there both put
a directory.

* `Directories.writeSteps`: the steps of writing a result.
* `carriesOut_write`, `carriesOut_forM_write`: results are written by these steps.
* `Belongs`: where a job puts entries.
* `eq_directory_of_belongs`: **no two jobs are in each other's way.**
-/

namespace CToGo.Job

open Files (FileTree Place Entry IsName components join steps)
open Files.FileTree (Grows Step CarriesOut wayPlaces fileStep)

variable {d : Directories} {job : String} {t t' u : FileTree}

/-! ## The steps of a result -/

/-- The places on the way to the output root. -/
def Directories.outputWay (d : Directories) (t : FileTree) : List Place :=
  wayPlaces (t.origin d.outputRoot) (steps d.outputRoot)

/-- The step of writing a result to a path. No file can be written where the way to the output
root leads through. -/
def Directories.resultStep (d : Directories) (t : FileTree) (path : String)
    (contents : ByteArray) : Step :=
  if (FileTree.pathFault? path).isSome ∨ t.placeOf path ∈ d.outputWay t then .stuck
  else fileStep (t.placeOf path) contents

/-- The steps of writing a result of a job. -/
def Directories.writeSteps (d : Directories) (t : FileTree) (job : String) (a : Artifact) :
    List Step :=
  match resolve d.outputRoot job a.name with
  | .error _ => [.stuck]
  | .ok path => t.dirSteps (Files.parent path) ++ [d.resultStep t path a.contents]

theorem resultStep_of_grows (h : Grows t u) (path : String) (contents : ByteArray) :
    d.resultStep u path contents = d.resultStep t path contents := by
  rw [Directories.resultStep, Directories.outputWay, h.origin_eq, h.placeOf_eq]
  rfl

theorem writeSteps_of_grows (h : Grows t u) (job : String) (a : Artifact) :
    d.writeSteps u job a = d.writeSteps t job a := by
  simp only [Directories.writeSteps, FileTree.dirSteps, h.origin_eq, resultStep_of_grows h]

/-- A path of a result is that of its directory with the name of its file after it. -/
theorem exists_parent {root artifact path : String} (hJob : IsName job)
    (h : resolve root job artifact = .ok path) :
    ∃ names name, (∀ n ∈ job :: names, IsName n) ∧ IsName name ∧
      path = join ((job :: names).foldl join root) name ∧
      Files.parent path = (job :: names).foldl join root := by
  obtain ⟨hNames, rfl⟩ := resolve_eq_ok h
  obtain ⟨names, name, hEq⟩ :=
    (List.eq_nil_or_concat (components artifact)).resolve_left (Files.components_ne_nil artifact)
  rw [hEq, List.concat_eq_append] at hNames ⊢
  have hName := hNames name (by simp)
  have hInit : ∀ n ∈ job :: names, IsName n :=
    List.forall_mem_cons.mpr ⟨hJob, fun n hn => hNames n (by simp [hn])⟩
  have hPath : (names ++ [name]).foldl join (join root job) =
      join ((job :: names).foldl join root) name := by
    rw [List.foldl_append]
    rfl
  refine ⟨names, name, hInit, hName, hPath, ?_⟩
  rw [hPath, Files.parent_join_foldl (List.cons_ne_nil job names) hInit hName]

/-! ## Writing results -/

theorem carriesOut_change {context : FileError → StoreError} {α : Type}
    {c : FileTree.Change α} {L : List Step} (h : CarriesOut c t L) :
    CarriesOut (Directories.change context c) t L := by
  rcases h with ⟨a, t', puts, hChange, hSettles⟩ | ⟨e, t', puts, hChange, hSettles⟩
  · exact .inl ⟨a, t', puts, by simp only [Directories.change, hChange], hSettles⟩
  · exact .inr ⟨context e, t', puts, by simp only [Directories.change, hChange], hSettles⟩

/-- A file is not written to a path that leads nowhere, nor where a directory stands. -/
theorem carriesOut_resultStep {path : String} {contents : ByteArray}
    (h : FileTree.pathFault? path = none →
      CarriesOut (FileTree.write path contents) t [fileStep (t.placeOf path) contents])
    (hSlash : ¬ Files.endsWithSlash path)
    (hWay : ∀ passed ∈ d.outputWay t, t.lookup? passed = some .directory) :
    CarriesOut (FileTree.write path contents) t [d.resultStep t path contents] := by
  unfold Directories.resultStep
  cases hFault : FileTree.pathFault? path with
  | some e =>
    refine .inr ⟨e, t, [], ?_, .stuck t []⟩
    simp only [FileTree.write, if_neg hSlash, FileTree.followFrom, hFault]
  | none =>
    by_cases hPlace : t.placeOf path ∈ d.outputWay t
    · rw [if_pos (.inr hPlace)]
      have hStep := h hFault
      unfold fileStep at hStep
      split at hStep
      · exact hStep
      · refine hStep.stuck ?_
        rw [Files.FileTree.admits_of_some (hWay _ hPlace)]
        exact Bool.false_ne_true.symm
    · rw [if_neg (not_or.mpr ⟨by simp, hPlace⟩)]
      exact h hFault

/-- Writing a result takes its steps. -/
theorem carriesOut_write (hJob : IsName job)
    (hOrigin : t.lookup? (t.origin d.outputRoot) = some .directory) (a : Artifact) :
    CarriesOut (write d.store job a) t (d.writeSteps t job a) := by
  unfold Directories.writeSteps
  cases hPath : resolve d.outputRoot job a.name with
  | error e =>
    refine .inr ⟨e, t, [], ?_, .stuck t []⟩
    simp only [write, Directories.store, Directories.put, hPath]
    rfl
  | ok path =>
    have hSlash := not_endsWithSlash_of_resolve hPath
    obtain ⟨names, name, hNames, hName, rfl, hParent⟩ := exists_parent hJob hPath
    have hNil : job :: names ≠ [] := List.cons_ne_nil job names
    have hStart (t : FileTree) := t.origin_foldl_join hNames d.outputRoot
    rw [← hStart] at hOrigin
    have hWrite : write d.store job a =
        Directories.change (.creating ((job :: names).foldl join d.outputRoot))
          (FileTree.makeDirs ((job :: names).foldl join d.outputRoot)) >>= fun _ =>
        Directories.change (.writing (join ((job :: names).foldl join d.outputRoot) name))
          (FileTree.write (join ((job :: names).foldl join d.outputRoot) name) a.contents) := by
      simp only [write, Directories.store, Directories.put, hPath, hParent]
    have hMake := FileTree.carriesOut_makeDirs
      (Files.foldl_join_ne_empty hNil hNames d.outputRoot) hOrigin
    dsimp only
    rw [hWrite, hParent]
    refine (carriesOut_change hMake).bind ?_
    intro _ t' puts hSettles
    obtain ⟨hFollow, hFound, hPassed⟩ := FileTree.way_of_dirSteps hSettles hOrigin
    rw [← resultStep_of_grows hSettles.grows]
    refine carriesOut_change (carriesOut_resultStep ?_ hSlash ?_)
    · intro hFault
      rw [t'.placeOf_join hName]
      refine FileTree.carriesOut_write hName
        (Files.components_join_foldl hNil hNames hName d.outputRoot) hFault ?_ hFound a.contents
      rw [FileTree.origin, Files.isAbsolute_join hName]
      exact hFollow
    · intro passed hMem
      refine hPassed passed ?_
      rw [hStart, Files.steps_foldl_join hNames]
      exact FileTree.mem_wayPlaces_append hMem _

/-- Results are written one after the other. -/
theorem carriesOut_forM_write (hJob : IsName job)
    (hOrigin : t.lookup? (t.origin d.outputRoot) = some .directory) (hGrows : Grows t u)
    (outputs : List Artifact) : CarriesOut (outputs.forM (write d.store job)) u
      (outputs.flatMap (d.writeSteps t job)) := by
  induction outputs generalizing u with
  | nil => exact .inl ⟨(), u, [], rfl, .done u⟩
  | cons a outputs ih =>
    have hOrigin' : u.lookup? (u.origin d.outputRoot) = some .directory := by
      rw [hGrows.origin_eq]
      exact hGrows.directory _ hOrigin
    rw [List.flatMap_cons, ← writeSteps_of_grows hGrows]
    refine (carriesOut_write hJob hOrigin' a).bind ?_
    intro _ u' puts hSettles
    exact ih (hGrows.trans hSettles.grows)

/-! ## Places that two jobs write to -/

/-- An entry that a job puts somewhere is a directory on the way to the output root, or stands in
the directory of the job. -/
inductive Belongs (d : Directories) (t : FileTree) (job : String) (place : Place) (entry : Entry) :
    Prop where
  | way : place ∈ d.outputWay t → entry = .directory → Belongs d t job place entry
  | below : t.placeOf d.outputRoot ++ [job] <+: place →
    (entry = .directory ∨ place ∉ d.outputWay t) → Belongs d t job place entry

section

variable {place : Place} {entry : Entry} {names : List String}

theorem belongs_of_mem_dirSteps (hNames : ∀ n ∈ job :: names, IsName n)
    (h : .put place entry ∈ t.dirSteps ((job :: names).foldl join d.outputRoot)) :
    Belongs d t job place entry := by
  obtain ⟨hJob, hRest⟩ := List.forall_mem_cons.mp hNames
  unfold FileTree.dirSteps at h
  split at h
  · simp at h
  · rw [Files.steps_foldl_join hNames, t.origin_foldl_join hNames, FileTree.waySteps_append,
      List.mem_append, t.foldl_descend_steps] at h
    rcases h with hWay | hBelow
    · obtain ⟨hEntry, hPlace⟩ := FileTree.mem_wayPlaces_of_put hWay
      exact .way hPlace hEntry
    · have hPrefix := FileTree.prefix_of_put hRest hBelow
      rw [FileTree.descend_of_isName hJob] at hPrefix
      exact .below hPrefix (.inl (FileTree.mem_wayPlaces_of_put hBelow).1)

theorem belongs_of_resultStep {path : String} {contents : ByteArray}
    (hPath : t.placeOf path = t.placeOf d.outputRoot ++ job :: names)
    (h : .put place entry = d.resultStep t path contents) : Belongs d t job place entry := by
  unfold Directories.resultStep fileStep at h
  split at h
  · cases h
  · rename_i hWay
    split at h
    · cases h
    · cases h
      refine .below ?_ (.inr (not_or.mp hWay).2)
      rw [hPath, List.prefix_append_right_inj]
      exact List.cons_prefix_cons.mpr ⟨rfl, List.nil_prefix⟩

theorem belongs_of_mem (hJob : IsName job) {a : Artifact}
    (h : .put place entry ∈ d.writeSteps t job a) : Belongs d t job place entry := by
  unfold Directories.writeSteps at h
  cases hPath : resolve d.outputRoot job a.name with
  | error e =>
    rw [hPath] at h
    simp at h
  | ok path =>
    have hPlace := (inside_of_resolve hJob hPath).placeOf_eq t
    obtain ⟨names, name, hNames, _, rfl, hParent⟩ := exists_parent hJob hPath
    rw [hPath] at h
    dsimp only at h
    rw [hParent, List.mem_append, List.mem_singleton] at h
    rcases h with hDir | hFile
    · exact belongs_of_mem_dirSteps hNames hDir
    · exact belongs_of_resultStep hPlace hFile

end

/-- Two jobs put something to the same place only if both put a directory there. -/
theorem eq_directory_of_belongs {job' : String} (hNe : job ≠ job') {place : Place}
    {entry entry' : Entry} (h : Belongs d t job place entry)
    (h' : Belongs d t job' place entry') : entry = .directory ∧ entry' = .directory := by
  cases h with
  | way hWay hEntry =>
    cases h' with
    | way _ hEntry' => exact ⟨hEntry, hEntry'⟩
    | below _ hEntry' => exact ⟨hEntry, hEntry'.resolve_right (not_not_intro hWay)⟩
  | below hPrefix hEntry =>
    cases h' with
    | way hWay hEntry' => exact ⟨hEntry.resolve_right (not_not_intro hWay), hEntry'⟩
    | below hPrefix' _ =>
      -- The directories of the two jobs have no place in common.
      have hSame := List.prefix_of_prefix_length_le hPrefix hPrefix' (by simp)
      rw [List.prefix_append_right_inj, List.cons_prefix_cons] at hSame
      exact absurd hSame.1 hNe

end CToGo.Job
