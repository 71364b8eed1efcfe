import CToGo.Proofs.Files.Steps
import CToGo.Proofs.Job.Outputs

/-!
# The paths of artifacts

The name of a job is checked when it is delivered, and the name of an artifact when its path is
asked for. Together the two checks say of each path where it leads: into the directory of the
job, by exactly the names that the artifact consists of. No name that consists of proper names
is refused, and no two artifacts, of one job or of two, share a path or a place.

* `isName_of_decode`: the name of a job is one component.
* `Inside`: a path below the directory of a job.
* `resolve_inside`: **all artifacts that have paths, and what these are.**
-/

namespace CToGo.Job

open Files (FileTree IsName components join steps)

/-! ## Names of jobs -/

theorem isName_of_isValidId {id : String} (h : isValidId id) : IsName id := by
  simp only [isValidId, Bool.and_eq_true, bne_iff_ne, Bool.not_eq_true', List.any_eq_false,
    Bool.or_eq_true, beq_iff_eq, not_or] at h
  obtain ⟨⟨⟨hEmpty, hHere⟩, hUp⟩, hText⟩ := h
  exact ⟨fun hSlash => (hText '/' hSlash).1 rfl, hEmpty, hHere, hUp⟩

theorem isName_of_decode {body : String} {d : Delivery} (h : Delivery.decode body = .ok d) :
    IsName d.id := by
  unfold Delivery.decode at h
  split at h
  · cases h
  · split at h
    · rename_i hValid
      cases h
      exact isName_of_isValidId hValid
    · cases h

/-! ## Names of artifacts -/

theorem isPlainComponent_of_isName {name : String} (h : IsName name) : isPlainComponent name := by
  simp [isPlainComponent, h.ne_empty, h.ne_here, h.ne_up]

theorem resolve_intercalate {names : List String} (hNil : names ≠ [])
    (h : ∀ name ∈ names, IsName name) (root job : String) :
    resolve root job ("/".intercalate names) = .ok (names.foldl join (join root job)) := by
  have hPlain : names.all isPlainComponent :=
    List.all_eq_true.mpr fun name hName => isPlainComponent_of_isName (h name hName)
  simp only [resolve, Files.components_intercalate hNil h, if_pos hPlain]

/-- The path is that of a job's directory with some names after it, and leads by them to a
place strictly inside that directory, whatever files there are. -/
structure Inside (root job : String) (names : List String) (path : String) : Prop where
  isName_job : IsName job
  names_ne_nil : names ≠ []
  isName : ∀ name ∈ names, IsName name
  text : path = join root job ++ "/" ++ "/".intercalate names
  isAbsolute_eq : Files.isAbsolute path = Files.isAbsolute root
  steps_eq : steps path = steps root ++ job :: names
  placeOf_eq : ∀ t : FileTree, t.placeOf path = t.placeOf root ++ job :: names
  below : ∀ t : FileTree,
    FileTree.below? (t.placeOf (join root job)) (t.placeOf path) = some names

theorem inside_foldl_join {job : String} (hJob : IsName job) {names : List String}
    (hNil : names ≠ []) (h : ∀ name ∈ names, IsName name) (root : String) :
    Inside root job names (names.foldl join (join root job)) := by
  have hAll : ∀ name ∈ job :: names, IsName name := List.forall_mem_cons.mpr ⟨hJob, h⟩
  refine ⟨hJob, hNil, h, Files.foldl_join_eq hJob hNil h root,
    Files.isAbsolute_foldl_join hAll root, Files.steps_foldl_join hAll root,
    fun t => t.placeOf_foldl_join hAll root, ?_⟩
  intro t
  rw [t.placeOf_foldl_join h, FileTree.below?]
  simp [hNil]

theorem inside_of_resolve {root job artifact path : String} (hJob : IsName job)
    (h : resolve root job artifact = .ok path) : Inside root job (components artifact) path := by
  obtain ⟨hNames, rfl⟩ := resolve_eq_ok h
  exact inside_foldl_join hJob (Files.components_ne_nil artifact) hNames root

/-- Places tell the job and the artifact whose paths lead there. -/
theorem eq_of_placeOf_eq {root job job' path path' : String} {names names' : List String}
    (h : Inside root job names path) (h' : Inside root job' names' path') {t : FileTree}
    (hEq : t.placeOf path = t.placeOf path') : job = job' ∧ names = names' := by
  rw [h.placeOf_eq, h'.placeOf_eq] at hEq
  exact List.cons_eq_cons.mp (List.append_cancel_left hEq)

/-- The artifacts of a delivered job that have paths are those whose names consist of proper
names, parted by slashes; these names lead from the root through the directory of the job to
a place strictly inside it, and other artifacts and other jobs lead to other places. -/
theorem resolve_inside (root : String) {body : String} {d : Delivery}
    (hBody : Delivery.decode body = .ok d) :
    (∀ artifact path, resolve root d.id artifact = .ok path →
      ∃ names, artifact = "/".intercalate names ∧ Inside root d.id names path) ∧
    (∀ names, names ≠ [] → (∀ name ∈ names, IsName name) →
      ∃ path, resolve root d.id ("/".intercalate names) = .ok path) ∧
    ∀ body' d' artifact artifact' path path', Delivery.decode body' = .ok d' →
      resolve root d.id artifact = .ok path → resolve root d'.id artifact' = .ok path' →
      (d.id, artifact) ≠ (d'.id, artifact') →
      path ≠ path' ∧ ∀ t : FileTree, t.placeOf path ≠ t.placeOf path' := by
  have hJob := isName_of_decode hBody
  refine ⟨?_, ?_, ?_⟩
  · intro artifact path hPath
    have hInside := inside_of_resolve hJob hPath
    exact ⟨components artifact, (Files.intercalate_components artifact).symm, hInside⟩
  · intro names hNil hNames
    exact ⟨_, resolve_intercalate hNil hNames root d.id⟩
  · intro body' d' artifact artifact' path path' hBody' hPath hPath' hNe
    have hPlaces (t : FileTree) : t.placeOf path ≠ t.placeOf path' := by
      intro hEq
      obtain ⟨hIds, hNames⟩ := eq_of_placeOf_eq (inside_of_resolve hJob hPath)
        (inside_of_resolve (isName_of_decode hBody') hPath') hEq
      exact hNe (Prod.ext hIds (Files.components_injective hNames))
    exact ⟨fun hEq => hPlaces default (by rw [hEq]), hPlaces⟩

theorem resolve_inside_dotted :
    let d : Delivery := ⟨"..."⟩
    Delivery.decode "\x7b\"id\":\"...\"\x7d" = .ok d ∧
    resolve "out/../in/" "..." "a/.c/d" = .ok "out/../in/.../a/.c/d" ∧
    Inside "out/../in/" "..." ["a", ".c", "d"] "out/../in/.../a/.c/d" ∧
    ["a/", "/a", "a//b", "./a", "a/..", "", "."].all
      fun artifact => (resolve "out/../in/" "..." artifact).toOption.isNone := by
  intro d
  have hBody : Delivery.decode "\x7b\"id\":\"...\"\x7d" = .ok d := by decide +kernel
  have hPath : resolve "out/../in/" "..." "a/.c/d" = .ok "out/../in/.../a/.c/d" := by
    decide +kernel
  obtain ⟨names, hArtifact, hInside⟩ := (resolve_inside "out/../in/" hBody).1 _ _ hPath
  have hNames : names = ["a", ".c", "d"] := by
    rw [← Files.components_intercalate hInside.names_ne_nil hInside.isName, ← hArtifact]
    decide +kernel
  exact ⟨hBody, hPath, hNames ▸ hInside, by decide +kernel⟩

end CToGo.Job
