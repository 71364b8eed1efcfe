import CToGo.Proofs.Files.Changes
import CToGo.Proofs.Job.Protocol

/-!
# What jobs leave in directories

The results of a job are written one after the other to the places of their names. Where two
of them have the same name, the last one stays. The targets of sources come last, so that
nothing is lost of them, but an artifact that is passed on is lost if its name is that of a
target; and results that were written before another one could not be are left behind.

* `Written`: a tree after some results were written.
* `lastWritten`: which of them stays at a place.
* `nacked_job_leaves_written_results`: **which files a failed job has changed.**
-/

namespace CToGo.Job

open Files (FileTree Place IsName components join)
open Files.FileTree (Grows OnlyAddsDirectories)

/-! ## Places of results -/

theorem isName_of_mem_components {artifact component : String}
    (hPlain : (components artifact).all isPlainComponent) (h : component ∈ components artifact) :
    IsName component := by
  have hComponent := List.all_eq_true.mp hPlain component h
  simp only [isPlainComponent, Bool.and_eq_true, bne_iff_ne] at hComponent
  obtain ⟨⟨hEmpty, hHere⟩, hUp⟩ := hComponent
  exact ⟨Files.not_mem_of_mem_components h, hEmpty, hHere, hUp⟩

theorem resolve_eq_ok {root job artifact path : String} (h : resolve root job artifact = .ok path) :
    (∀ name ∈ components artifact, IsName name) ∧
      path = (components artifact).foldl join (join root job) := by
  by_cases hPlain : (components artifact).all isPlainComponent
  · simp only [resolve, if_pos hPlain] at h
    cases h
    exact ⟨fun _ => isName_of_mem_components hPlain, rfl⟩
  · simp only [resolve, if_neg hPlain] at h
    cases h

theorem not_endsWithSlash_of_resolve {root job artifact path : String}
    (h : resolve root job artifact = .ok path) : ¬ Files.endsWithSlash path := by
  obtain ⟨hNames, rfl⟩ := resolve_eq_ok h
  rcases List.eq_nil_or_concat (components artifact) with hNil | ⟨above, name, hEq⟩
  · exact absurd hNil (Files.components_ne_nil artifact)
  · rw [hEq, List.concat_eq_append] at hNames ⊢
    rw [List.foldl_append, List.foldl_cons, List.foldl_nil]
    exact Files.not_endsWithSlash_join (hNames name (by simp)) _

/-- The place of the result with the given name. -/
def Directories.outputPlace (d : Directories) (job : String) (t : FileTree) (name : String) :
    Place :=
  t.placeOf (join d.outputRoot job) ++ components name

variable {d : Directories} {job : String} {t t' t'' : FileTree}

theorem placeOf_eq_outputPlace {artifact path : String}
    (h : resolve d.outputRoot job artifact = .ok path) (t : FileTree) :
    t.placeOf path = d.outputPlace job t artifact := by
  obtain ⟨hNames, rfl⟩ := resolve_eq_ok h
  exact t.placeOf_foldl_join hNames _

theorem outputPlace_injective (d : Directories) (job : String) (t : FileTree) :
    Function.Injective (d.outputPlace job t) := by
  intro name other h
  exact Files.components_injective (List.append_cancel_left h)

theorem outputPlace_of_grows (h : Grows t t') : d.outputPlace job t' = d.outputPlace job t := by
  funext name
  rw [Directories.outputPlace, Directories.outputPlace, h.placeOf_eq]

/-! ## Written results -/

/-- What is written last to a place, if anything is. -/
def lastWritten (place : String → Place) (outputs : List Artifact) (p : Place) :
    Option ByteArray :=
  ((outputs.filter (place ·.name = p)).getLast?).map (·.contents)

theorem lastWritten_append (place : String → Place) (first second : List Artifact) (p : Place) :
    lastWritten place (first ++ second) p =
      (lastWritten place second p).or (lastWritten place first p) := by
  simp only [lastWritten, List.filter_append, List.getLast?_append, Option.map_or]

/-- The second tree is the first one after some results were written: all of them can be
found, and each file is the one that was written last to its place or the one that it was. -/
structure Written (d : Directories) (job : String) (outputs : List Artifact) (t t' : FileTree) :
    Prop where
  grows : Grows t t'
  found : ∀ a ∈ outputs, ∃ path, resolve d.outputRoot job a.name = .ok path ∧
    t'.locate path = .ok (d.outputPlace job t a.name)
  file?_eq : ∀ p, t'.file? p = (lastWritten (d.outputPlace job t) outputs p).or (t.file? p)

namespace Written

theorem of_onlyAddsDirectories (h : OnlyAddsDirectories t t') : Written d job [] t t' :=
  ⟨h.toGrows, by simp, h.file?_eq⟩

theorem append {first second : List Artifact} (h : Written d job first t t')
    (h' : Written d job second t' t'') : Written d job (first ++ second) t t'' := by
  have hPlace : d.outputPlace job t' = d.outputPlace job t := outputPlace_of_grows h.grows
  refine ⟨h.grows.trans h'.grows, ?_, ?_⟩
  · intro a ha
    rcases List.mem_append.mp ha with ha | ha
    · -- Directories stay, so a path goes on to lead where it led.
      obtain ⟨path, hPath, hFound⟩ := h.found a ha
      exact ⟨path, hPath, h'.grows.locate hFound⟩
    · rw [← hPlace]
      exact h'.found a ha
  · intro p
    rw [h'.file?_eq, h.file?_eq, hPlace, lastWritten_append, Option.or_assoc]

end Written

theorem written_singleton {a : Artifact} {path : String}
    (hPath : resolve d.outputRoot job a.name = .ok path) {place : Place}
    (hPlace : t.locate path = .ok place) (hEntry : t.lookup? place ≠ some .directory) :
    Written d job [a] t (t.insert place (.file a.contents)) := by
  have hGrows := Grows.insert (.file a.contents) hEntry
  have hEq : place = d.outputPlace job t a.name :=
    (Files.FileTree.eq_placeOf_of_locate hPlace).trans (placeOf_eq_outputPlace hPath t)
  refine ⟨hGrows, ?_, ?_⟩
  · intro b hb
    obtain rfl := List.mem_singleton.mp hb
    exact ⟨path, hPath, hEq ▸ hGrows.locate hPlace⟩
  · intro p
    by_cases hp : p = place
    · subst hp
      rw [Files.FileTree.file?_insert_self t _ (Files.FileTree.ne_nil_of_lookup?_ne hEntry)]
      simp [lastWritten, ← hEq]
    · rw [Files.FileTree.file?_insert_of_ne t _ hp]
      simp [lastWritten, ← hEq, Ne.symm hp]

theorem write_eq {a : Artifact} {path : String}
    (hPath : resolve d.outputRoot job a.name = .ok path) :
    write d.store job a t =
      match FileTree.makeDirs (Files.parent path) t with
      | .error e t' => .error (.creating (Files.parent path) e) t'
      | .ok _ t' =>
        match FileTree.write path a.contents t' with
        | .error e t'' => .error (.writing path e) t''
        | .ok _ t'' => .ok () t'' := by
  simp only [write, Directories.store, Directories.put, hPath, bind, EStateM.bind,
    Directories.change]
  cases FileTree.makeDirs (Files.parent path) t with
  | error e t' => rfl
  | ok _ t' => cases hWrite : FileTree.write path a.contents t' <;> simp only [hWrite]

/-- A result is written, or else nothing is but directories. -/
theorem write_cases (d : Directories) (job : String) (a : Artifact) (t : FileTree) :
    (∃ t', write d.store job a t = .ok () t' ∧ Written d job [a] t t') ∨
      ∃ e t', write d.store job a t = .error e t' ∧ OnlyAddsDirectories t t' := by
  cases hPath : resolve d.outputRoot job a.name with
  | error e =>
    refine .inr ⟨e, t, ?_, .refl t⟩
    simp only [write, Directories.store, Directories.put, hPath]
    rfl
  | ok path =>
    have hAdds := OnlyAddsDirectories.makeDirs (Files.parent path) t
    rw [write_eq hPath]
    cases hDirs : FileTree.makeDirs (Files.parent path) t with
    | error e t₁ =>
      rw [hDirs] at hAdds
      exact .inr ⟨_, t₁, rfl, hAdds⟩
    | ok _ t₁ =>
      rw [hDirs] at hAdds
      rcases FileTree.write_cases (not_endsWithSlash_of_resolve hPath) a.contents t₁ with
        ⟨place, hPlace, hEntry, hWrite⟩ | ⟨e, hWrite⟩
      · refine .inl ⟨t₁.insert place (.file a.contents), by simp only [hWrite], ?_⟩
        exact (Written.of_onlyAddsDirectories hAdds).append
          (written_singleton hPath hPlace hEntry)
      · exact .inr ⟨.writing path e, t₁, by simp only [hWrite], hAdds⟩

theorem written_of_write {a : Artifact} {answer : Unit}
    (h : write d.store job a t = .ok answer t') : Written d job [a] t t' := by
  rcases write_cases d job a t with ⟨t'', hEq, hWritten⟩ | ⟨e, t'', hEq, _⟩
  · rw [h] at hEq
    cases hEq
    exact hWritten
  · rw [h] at hEq
    cases hEq

theorem onlyAddsDirectories_of_write {a : Artifact} {e : StoreError}
    (h : write d.store job a t = .error e t') : OnlyAddsDirectories t t' := by
  rcases write_cases d job a t with ⟨t'', hEq, _⟩ | ⟨e, t'', hEq, hAdds⟩
  · rw [h] at hEq
    cases hEq
  · rw [h] at hEq
    cases hEq
    exact hAdds

theorem written_of_visits {outputs : List Artifact} {answers : List Unit}
    (h : Visits (write d.store job) outputs t answers t') : Written d job outputs t t' := by
  induction h with
  | nil t => exact .of_onlyAddsDirectories (.refl t)
  | cons hWrite _ ih => exact (written_of_write hWrite).append ih

theorem written_of_stops {outputs : List Artifact} {e : StoreError}
    (h : Stops (write d.store job) outputs t e t') :
    ∃ written failed rest, outputs = written ++ failed :: rest ∧ Written d job written t t' := by
  induction h with
  | here hWrite =>
    exact ⟨[], _, _, rfl, .of_onlyAddsDirectories (onlyAddsDirectories_of_write hWrite)⟩
  | later hWrite _ ih =>
    obtain ⟨written, failed, rest, rfl, hRest⟩ := ih
    exact ⟨_ :: written, failed, rest, rfl, (written_of_write hWrite).append hRest⟩

/-! ## Artifacts that are read -/

theorem answer_inquire {α : Type} (question : FileTree → Except StoreError α) (t : FileTree) :
    Store.answer (Directories.inquire question) t = question t := by
  rw [Store.answer, Directories.inquire]
  cases question t <;> rfl

theorem list_store (d : Directories) (job : String) (t : FileTree) :
    d.store.list job t = d.list job t := answer_inquire _ t

theorem get_store (d : Directories) (job artifact : String) (t : FileTree) :
    d.store.get job artifact t = d.get job artifact t := answer_inquire _ t

theorem artifact_eq (d : Directories) (job name : String) (t : FileTree) :
    artifact d.store job name t =
      match d.get job name t with
      | .ok contents => .ok ⟨name, contents⟩ t
      | .error e => .error e t := by
  simp only [artifact, Directories.store, Directories.inquire, bind, EStateM.bind]
  cases d.get job name t <;> rfl

theorem artifact_eq_ok {name : String} {a : Artifact}
    (h : artifact d.store job name t = .ok a t') :
    t' = t ∧ a.name = name ∧ d.get job name t = .ok a.contents := by
  rw [artifact_eq] at h
  split at h
  · cases h
    exact ⟨rfl, rfl, by assumption⟩
  · cases h

theorem artifact_eq_error {name : String} {e : StoreError}
    (h : artifact d.store job name t = .error e t') : t' = t := by
  rw [artifact_eq] at h
  split at h
  · cases h
  · cases h
    rfl

theorem enumerate_eq_ok {names : List String} (h : d.store.enumerate job t = .ok names t') :
    t' = t ∧ d.list job t = .ok names := by
  simp only [Directories.store, Directories.inquire] at h
  split at h
  · cases h
    exact ⟨rfl, by assumption⟩
  · cases h

theorem enumerate_eq_error {e : StoreError} (h : d.store.enumerate job t = .error e t') :
    t' = t := by
  simp only [Directories.store, Directories.inquire] at h
  split at h
  · cases h
  · cases h
    rfl

/-- Reading artifacts changes nothing. -/
theorem fetched_of_visits {names : List String} {all : List Artifact}
    (h : Visits (artifact d.store job) names t all t') :
    t' = t ∧ all.map (·.name) = names ∧ ∀ a ∈ all, d.get job a.name t = .ok a.contents := by
  induction h with
  | nil t => exact ⟨rfl, rfl, by simp⟩
  | cons hFetch _ ih =>
    obtain ⟨rfl, rfl, hGet⟩ := artifact_eq_ok hFetch
    obtain ⟨rfl, hNames, hAll⟩ := ih
    exact ⟨rfl, by rw [List.map_cons, hNames], List.forall_mem_cons.mpr ⟨hGet, hAll⟩⟩

theorem eq_of_stops_fetching {names : List String} {e : StoreError}
    (h : Stops (artifact d.store job) names t e t') : t' = t := by
  induction h with
  | here hFetch => exact artifact_eq_error hFetch
  | later hFetch _ ih =>
    obtain ⟨rfl, _, _⟩ := artifact_eq_ok hFetch
    exact ih

theorem eq_of_faults {config : Config} {e : JobError StoreError}
    (h : Faults config d.store job t e t') : t' = t := by
  cases h with
  | enumerating hNames => exact enumerate_eq_error hNames
  | fetching hNames hStops =>
    obtain ⟨rfl, _⟩ := enumerate_eq_ok hNames
    exact eq_of_stops_fetching hStops
  | compiling hNames hVisits _ _ _ =>
    obtain ⟨rfl, _⟩ := enumerate_eq_ok hNames
    exact (fetched_of_visits hVisits).1

theorem eq_of_yields {config : Config} {outputs : List Artifact}
    (h : Yields config d.store job t outputs t') : t' = t := by
  cases h with
  | intro hNames hVisits _ =>
    obtain ⟨rfl, _⟩ := enumerate_eq_ok hNames
    exact (fetched_of_visits hVisits).1

/-! ## Known listings -/

/-- What stands below a directory is listed as it stands if it stands in order. -/
theorem entriesUnder_of_pairwise {path : String} (root : Place)
    {entries : List (String × Files.Entry)} (hRoot : t.locate path = .ok root)
    (hEntries : (t.entries.filterMap fun (place, entry) =>
      (FileTree.below? root place).map fun way => ("/".intercalate way, entry)) = entries)
    (hSorted : entries.Pairwise fun a b => decide (a.1 ≤ b.1)) :
    t.entriesUnder path = entries := by
  simp only [FileTree.entriesUnder, hRoot]
  rw [hEntries, List.mergeSort_of_pairwise hSorted]

/-- A job asks for its artifacts once, so that their names can as well be given. -/
theorem perform_of_list {config : Config} {names : List String} (h : d.list job t = .ok names) :
    perform config d.store job t =
      perform config { d.store with enumerate := fun _ => pure names } job t := by
  simp only [perform, results, artifacts, Directories.store, Directories.inquire, bind,
    EStateM.bind, EStateM.adaptExcept, h]
  rfl

theorem process_of_list {ρ : Type} {config : Config} {reporter : Reporter ρ} {r : ρ}
    {names : List String} (h : d.list job t = .ok names) :
    Worker.process ⟨config, d.store, reporter⟩ job ⟨t, r⟩ =
      Worker.process ⟨config, { d.store with enumerate := fun _ => pure names }, reporter⟩
        job ⟨t, r⟩ := by
  simp only [Worker.process, Worker.publish_eq]
  rw [perform_of_list h]

/-! ## Failed jobs -/

/-- A failed job changes no file unless results were written before one could not be. Then each
file is the one that was written last to its place, and all others are what they were; so no
file has changed just if each of those results was there before. -/
theorem nacked_job_leaves_written_results {ρ : Type} (config : Config) (d : Directories)
    (reporter : Reporter ρ) (job : String) (files : FileTree) (r : ρ)
    (h : (Worker.process ⟨config, d.store, reporter⟩ job ⟨files, r⟩).1 = .nack) :
    let files' := (Worker.process ⟨config, d.store, reporter⟩ job ⟨files, r⟩).2.store
    (files' = files ∧ ∃ e, Faults config d.store job files e files) ∨
    ∃ written failed rest,
      Yields config d.store job files (written ++ failed :: rest) files ∧
      (∀ p, files'.file? p =
        (lastWritten (d.outputPlace job files) written p).or (files.file? p)) ∧
      ((∀ p, files'.file? p = files.file? p) ↔
        ∀ p contents, lastWritten (d.outputPlace job files) written p = some contents →
          files.file? p = some contents) := by
  obtain ⟨final, files', hEnds, hProcess⟩ := process_ends config d.store job files
  rw [hProcess reporter r] at h ⊢
  cases hEnds with
  | done _ _ => cases h
  | fault hFaults =>
    obtain rfl := eq_of_faults hFaults
    exact .inl ⟨rfl, _, hFaults⟩
  | unwritten hYields hStops =>
    have hSame := eq_of_yields hYields
    rw [hSame] at hYields hStops
    obtain ⟨written, failed, rest, rfl, hWritten⟩ := written_of_stops hStops
    refine .inr ⟨written, failed, rest, hYields, hWritten.file?_eq, ?_⟩
    simp only [hWritten.file?_eq]
    refine forall_congr' fun p => ?_
    cases lastWritten (d.outputPlace job files) written p with
    | none => simp
    | some contents => simp [eq_comm]

/-- A job with a source, and with an artifact below a directory that has the name of its
target. -/
def blocked : FileTree where
  current := []
  entries := [(["jobs"], .directory), (["jobs", "j"], .directory),
    (["jobs", "j", "x.c"], .file "int main() { }".toUTF8),
    (["jobs", "j", "x.go"], .directory),
    (["jobs", "j", "x.go", "y.txt"], .file "kept".toUTF8)]

theorem list_blocked : Directories.list ⟨"jobs", "remixed"⟩ "j" blocked =
    .ok ["x.c", "x.go/y.txt"] := by
  have hEntries : blocked.entriesUnder (join "jobs" "j") =
      [("x.c", .file "int main() { }".toUTF8), ("x.go", .directory),
        ("x.go/y.txt", .file "kept".toUTF8)] :=
    entriesUnder_of_pairwise ["jobs", "j"] (by decide) (by decide)
      (by decide)
  simp only [Directories.list, FileTree.tooDeep?, FileTree.filesUnder, hEntries]
  decide

theorem process_blocked :
    let after := Worker.process ⟨{}, Directories.store ⟨"jobs", "remixed"⟩, .lines⟩ "j"
      ⟨blocked, ""⟩
    after.1 = .nack ∧
      after.2.store.file? ["remixed", "j", "x.go", "y.txt"] = some "kept".toUTF8 := by
  dsimp only
  rw [process_of_list list_blocked]
  decide +kernel

/-- A job that fails can leave a result behind. -/
theorem nacked_job_leaves_result :
    let after := Worker.process ⟨{}, Directories.store ⟨"jobs", "remixed"⟩, .lines⟩ "j"
      ⟨blocked, ""⟩
    after.1 = .nack ∧ blocked.file? ["remixed", "j", "x.go", "y.txt"] = none ∧
      after.2.store.file? ["remixed", "j", "x.go", "y.txt"] = some "kept".toUTF8 :=
  ⟨process_blocked.1, by decide +kernel, process_blocked.2⟩

theorem nacked_job_leaves_written_results_blocked :
    let d : Directories := ⟨"jobs", "remixed"⟩
    (Worker.process ⟨{}, d.store, .lines⟩ "j" ⟨blocked, ""⟩).1 = .nack ∧
      ∃ written failed rest, written ≠ [] ∧
        Yields {} d.store "j" blocked (written ++ failed :: rest) blocked := by
  intro d
  obtain ⟨hNack, hNew⟩ := process_blocked
  have hOld : blocked.file? ["remixed", "j", "x.go", "y.txt"] = none := by decide +kernel
  refine ⟨hNack, ?_⟩
  rcases nacked_job_leaves_written_results {} d .lines "j" blocked "" hNack with
    ⟨hSame, _⟩ | ⟨written, failed, rest, hYields, hFiles, _⟩
  · rw [hSame, hOld] at hNew
    cases hNew
  · refine ⟨written, failed, rest, ?_, hYields⟩
    rintro rfl
    rw [hFiles, hOld] at hNew
    cases hNew

end CToGo.Job
