import CToGo.Proofs.Job.Writes

/-!
# Jobs that are not affected by others

What a job reads is the same in each tree in which nothing has changed below the input root.
Then so are its results, and the steps by which they are written are those that can be told
from the tree as it was at first.

* `Alike`: an inquiry that is answered in the same way in two states.
* `alike_results`: **the results of a job in two trees that agree below the input root.**
* `jobSteps`: the steps of a job.
* `carriesOut_perform`: **a job takes these steps whatever has become of the rest of the tree.**
-/

namespace CToGo.Job

open Files (FileTree Place IsName components join)
open Files.FileTree (Grows Step Settles CarriesOut SameBelow)

/-! ## Inquiries -/

section

variable {σ ε ε' α β : Type} {s s' : σ}

/-- The answer is the same in both states, and each of them stays as it is. -/
def Alike (inquiry : EStateM ε σ α) (s s' : σ) : Prop :=
  (∃ a, inquiry s = .ok a s ∧ inquiry s' = .ok a s') ∨
    ∃ e, inquiry s = .error e s ∧ inquiry s' = .error e s'

namespace Alike

theorem pure (a : α) (s s' : σ) : Alike (pure a : EStateM ε σ α) s s' := .inl ⟨a, rfl, rfl⟩

theorem throw (e : ε) (s s' : σ) : Alike (throw e : EStateM ε σ α) s s' := .inr ⟨e, rfl, rfl⟩

theorem bind {x : EStateM ε σ α} {f : α → EStateM ε σ β} (h : Alike x s s')
    (h' : ∀ a, Alike (f a) s s') : Alike (x >>= f) s s' := by
  rcases h with ⟨a, hx, hx'⟩ | ⟨e, hx, hx'⟩
  · rcases h' a with ⟨b, hf, hf'⟩ | ⟨e, hf, hf'⟩
    · exact .inl ⟨b, bind_apply_eq_ok_iff.mpr ⟨a, s, hx, hf⟩,
        bind_apply_eq_ok_iff.mpr ⟨a, s', hx', hf'⟩⟩
    · exact .inr ⟨e, bind_apply_eq_error_iff.mpr (.inr ⟨a, s, hx, hf⟩),
        bind_apply_eq_error_iff.mpr (.inr ⟨a, s', hx', hf'⟩)⟩
  · exact .inr ⟨e, bind_apply_eq_error_iff.mpr (.inl hx),
      bind_apply_eq_error_iff.mpr (.inl hx')⟩

theorem mapM {f : α → EStateM ε σ β} (h : ∀ a, Alike (f a) s s') (as : List α) :
    Alike (as.mapM f) s s' := by
  induction as with
  | nil => exact .pure [] s s'
  | cons a as ih =>
    rw [List.mapM_cons]
    exact (h a).bind fun b => ih.bind fun bs => .pure (b :: bs) s s'

theorem adaptExcept {x : EStateM ε σ α} (h : Alike x s s') (f : ε → ε') :
    Alike (EStateM.adaptExcept f x) s s' := by
  rcases h with ⟨a, hx, hx'⟩ | ⟨e, hx, hx'⟩
  · exact .inl ⟨a, adaptExcept_apply_eq_ok_iff.mpr hx, adaptExcept_apply_eq_ok_iff.mpr hx'⟩
  · exact .inr ⟨f e, adaptExcept_apply_eq_error_iff.mpr ⟨e, hx, rfl⟩,
      adaptExcept_apply_eq_error_iff.mpr ⟨e, hx', rfl⟩⟩

end Alike

end

variable {config : Config} {d : Directories} {job : String} {t u : FileTree}

theorem alike_inquire {α : Type} {question : FileTree → Except StoreError α}
    (h : question u = question t) : Alike (Directories.inquire question) t u := by
  cases hAnswer : question t with
  | ok a => exact .inl ⟨a, by simp only [Directories.inquire, hAnswer],
      by simp only [Directories.inquire, h, hAnswer]⟩
  | error e => exact .inr ⟨e, by simp only [Directories.inquire, hAnswer],
      by simp only [Directories.inquire, h, hAnswer]⟩

/-! ## Results -/

section

variable (h : SameBelow (t.placeOf d.inputRoot) t u) (hOpens : t.Opens d.inputRoot)
  (hJob : IsName job)

include h hOpens hJob

theorem list_eq : d.list job u = d.list job t := by
  have hNames : ∀ name ∈ [job], IsName name := List.forall_mem_singleton.mpr hJob
  have hDirectory := h.isDirectory_eq hOpens (List.cons_ne_nil job []) hNames
  have hEntries := h.entriesUnder_eq hOpens (List.cons_ne_nil job []) hNames
  rw [List.foldl_cons, List.foldl_nil] at hDirectory hEntries
  simp only [Directories.list, FileTree.tooDeep?, FileTree.filesUnder, hDirectory, hEntries]

theorem get_eq (artifact : String) : d.get job artifact u = d.get job artifact t := by
  cases hPath : resolve d.inputRoot job artifact with
  | error e => simp only [Directories.get, hPath, bind, Except.bind]
  | ok path =>
    obtain ⟨hNames, rfl⟩ := resolve_eq_ok hPath
    have hRead := h.read_eq hOpens (List.cons_ne_nil job _)
      (List.forall_mem_cons.mpr ⟨hJob, hNames⟩)
    rw [List.foldl_cons] at hRead
    simp only [Directories.get, hPath, bind, Except.bind, hRead]

/-- The same results, or the same failure, as long as nothing changes below the input root. -/
theorem alike_results (config : Config) : Alike (results config d.store job) t u := by
  have hArtifacts : Alike (artifacts d.store job) t u := by
    refine (alike_inquire (list_eq h hOpens hJob)).bind fun names => ?_
    refine .mapM (fun name => ?_) names
    exact (alike_inquire (get_eq h hOpens hJob name)).bind fun contents => .pure _ t u
  refine (hArtifacts.adaptExcept _).bind fun all => ?_
  dsimp only
  split
  · exact .pure _ t u
  · exact .throw _ t u

end

/-! ## The steps of a job -/

/-- The steps of a job, as they can be told from a tree. -/
def jobSteps (config : Config) (d : Directories) (t : FileTree) (job : String) : List Step :=
  match results config d.store job t with
  | .ok outputs _ => outputs.flatMap (d.writeSteps t job)
  | .error _ _ => [.stuck]

theorem carriesOut_adaptExcept {ε ε' α : Type} {x : EStateM ε FileTree α} {L : List Step}
    (h : CarriesOut x t L) (f : ε → ε') : CarriesOut (EStateM.adaptExcept f x) t L := by
  rcases h with ⟨a, t', puts, hx, hSettles⟩ | ⟨e, t', puts, hx, hSettles⟩
  · exact .inl ⟨a, t', puts, adaptExcept_apply_eq_ok_iff.mpr hx, hSettles⟩
  · exact .inr ⟨f e, t', puts, adaptExcept_apply_eq_error_iff.mpr ⟨e, hx, rfl⟩, hSettles⟩

/-- A job takes the same steps in each tree that is the same below the input root. -/
theorem carriesOut_perform (config : Config) (h : SameBelow (t.placeOf d.inputRoot) t u)
    (hOpens : t.Opens d.inputRoot)
    (hOrigin : t.lookup? (t.origin d.outputRoot) = some .directory) (hJob : IsName job) :
    CarriesOut (perform config d.store job) u (jobSteps config d t job) := by
  unfold jobSteps
  rcases alike_results h hOpens hJob config with ⟨outputs, hFirst, hHere⟩ | ⟨e, hFirst, hHere⟩
  · rw [hFirst]
    have hWrites := carriesOut_adaptExcept
      (carriesOut_forM_write hJob hOrigin h.toGrows outputs) JobError.store
    refine hWrites.congr ?_
    simp only [perform, bind, EStateM.bind, hHere]
  · rw [hFirst]
    exact .inr ⟨e, u, [], bind_apply_eq_error_iff.mpr (.inl hHere), .stuck u []⟩

/-- An entry that a job puts somewhere belongs there. -/
theorem belongs_of_mem_jobSteps (hJob : IsName job) {place : Place} {entry : Files.Entry}
    (h : .put place entry ∈ jobSteps config d t job) : Belongs d t job place entry := by
  unfold jobSteps at h
  split at h
  · obtain ⟨a, _, hMem⟩ := List.mem_flatMap.mp h
    exact belongs_of_mem hJob hMem
  · simp at h

/-! ## Jobs that change nothing -/

theorem list_of_not_opens (hJob : IsName job) (h : ¬ t.Opens d.inputRoot) :
    d.list job t = .error (.noArtifacts job d.inputRoot) := by
  have hDirectory : ¬ t.isDirectory (join d.inputRoot job) := by
    intro hIs
    obtain ⟨place, hPlace, _⟩ := FileTree.exists_of_isDirectory hIs
    exact h (FileTree.opens_of_locate hJob hPlace)
  simp only [Directories.list, if_neg hDirectory]

/-- Where no job can be found, nothing changes. -/
theorem after_perform_of_not_opens (config : Config) (hJob : IsName job)
    (h : ¬ t.Opens d.inputRoot) :
    Files.FileTree.after (perform config d.store job t) = t := by
  have hList := list_of_not_opens hJob h
  simp only [perform, results, artifacts, Directories.store, Directories.inquire, bind,
    EStateM.bind, EStateM.adaptExcept, hList]
  rfl

theorem write_of_no_origin (hJob : IsName job)
    (h : t.lookup? (t.origin d.outputRoot) ≠ some .directory) (a : Artifact) :
    ∃ e, write d.store job a t = .error e t := by
  cases hPath : resolve d.outputRoot job a.name with
  | error e =>
    refine ⟨e, ?_⟩
    simp only [write, Directories.store, Directories.put, hPath]
    rfl
  | ok path =>
    obtain ⟨names, name, hNames, _, rfl, hParent⟩ := exists_parent hJob hPath
    have hNil : job :: names ≠ [] := List.cons_ne_nil job names
    obtain ⟨e, hError⟩ := FileTree.makeDirs_of_no_origin
      (Files.foldl_join_ne_empty hNil hNames d.outputRoot)
      (by rw [Files.steps_foldl_join hNames]; exact List.append_ne_nil_of_right_ne_nil _ hNil)
      (by rwa [t.origin_foldl_join hNames])
    refine ⟨.creating ((job :: names).foldl join d.outputRoot) e, ?_⟩
    rw [write_eq hPath, hParent, hError]

/-- Where no result can be written, nothing changes. -/
theorem after_perform_of_no_origin (config : Config) (hJob : IsName job)
    (h : t.lookup? (t.origin d.outputRoot) ≠ some .directory) :
    Files.FileTree.after (perform config d.store job t) = t := by
  rcases perform_cases config d.store job t with
    ⟨outputs, s₁, s', written, hYields, hVisits, hEq⟩ | ⟨e, s', hFaults, hEq⟩ |
    ⟨outputs, s₁, e, s', hYields, hStops, hEq⟩
  · obtain rfl := eq_of_yields hYields
    rw [hEq]
    cases hVisits with
    | nil => rfl
    | cons hWrite _ =>
      obtain ⟨e, hError⟩ := write_of_no_origin hJob h _
      rw [hError] at hWrite
      cases hWrite
  · rw [hEq, eq_of_faults hFaults]
    rfl
  · obtain rfl := eq_of_yields hYields
    rw [hEq]
    cases hStops with
    | here hWrite =>
      obtain ⟨e, hError⟩ := write_of_no_origin hJob h _
      rw [hError] at hWrite
      cases hWrite
      rfl
    | later hWrite _ =>
      obtain ⟨e, hError⟩ := write_of_no_origin hJob h _
      rw [hError] at hWrite
      cases hWrite

end CToGo.Job
