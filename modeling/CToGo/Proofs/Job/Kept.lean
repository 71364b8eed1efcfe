import CToGo.Proofs.Job.Names
import CToGo.Proofs.Job.Outputs

/-!
# What accepted jobs keep

The output directory of an accepted job holds the target of every source. It holds every
other artifact as it was, except that a target takes the place of an artifact of the same
name.

* `Artifacts`: the artifacts of a job, as they are read.
* `CompilesTo`: the text that a source is compiled to.
* `Directories.Holds`: the output directory holds a result.
* `acked_job_keeps_artifacts`: **of which artifacts an accepted job keeps the contents.**
-/

namespace CToGo.Job

open Files (FileTree Place)

variable {config : Config} {d : Directories} {job : String} {t t' : FileTree}

/-! ## The last of some results -/

section

variable {place : String → Place} {outputs : List Artifact}

theorem exists_lastWritten (hPlace : Function.Injective place) {a : Artifact}
    (ha : a ∈ outputs) :
    ∃ b ∈ outputs, b.name = a.name ∧
      lastWritten place outputs (place a.name) = some b.contents := by
  have hMem : a ∈ outputs.filter (place ·.name = place a.name) :=
    List.mem_filter.mpr ⟨ha, decide_eq_true rfl⟩
  have hLast := List.getLast?_eq_getLast_of_ne_nil (List.ne_nil_of_mem hMem)
  obtain ⟨hOutput, hName⟩ := List.mem_filter.mp (List.mem_of_getLast? hLast)
  refine ⟨_, hOutput, hPlace (of_decide_eq_true hName), ?_⟩
  rw [lastWritten, hLast, Option.map_some]

/-- If the results of a name all have the same contents, so has the last one. -/
theorem lastWritten_eq_some (hPlace : Function.Injective place) {a : Artifact}
    (ha : a ∈ outputs) (hSame : ∀ b ∈ outputs, b.name = a.name → b.contents = a.contents) :
    lastWritten place outputs (place a.name) = some a.contents := by
  obtain ⟨b, hb, hName, hLast⟩ := exists_lastWritten hPlace ha
  rw [hLast, hSame b hb hName]

theorem lastWritten_eq_none (hPlace : Function.Injective place) {name : String}
    (h : ∀ a ∈ outputs, a.name ≠ name) : lastWritten place outputs (place name) = none := by
  rw [lastWritten, List.filter_eq_nil_iff.mpr, List.getLast?_nil, Option.map_none]
  intro a ha hName
  exact h a ha (hPlace (of_decide_eq_true hName))

end

/-! ## Results that are there -/

/-- The output directory holds a result. -/
def Directories.Holds (d : Directories) (job : String) (t : FileTree) (name : String)
    (contents : ByteArray) : Prop :=
  ∃ path, resolve d.outputRoot job name = .ok path ∧ t.read path = .ok contents

theorem Written.holds_iff {outputs : List Artifact} (h : Written d job outputs t t')
    {a : Artifact} (ha : a ∈ outputs) {contents : ByteArray} :
    d.Holds job t' a.name contents ↔
      lastWritten (d.outputPlace job t) outputs (d.outputPlace job t a.name) = some contents := by
  obtain ⟨path, hPath, hFound⟩ := h.found a ha
  have hHolds : d.Holds job t' a.name contents ↔ t'.read path = .ok contents := by
    constructor
    · rintro ⟨other, hOther, hRead⟩
      rw [hPath] at hOther
      cases hOther
      exact hRead
    · exact fun hRead => ⟨path, hPath, hRead⟩
  obtain ⟨_, _, _, hLast⟩ := exists_lastWritten (outputPlace_injective d job t) ha
  rw [hHolds, Files.FileTree.read_eq_ok_iff hFound, h.file?_eq, hLast, Option.some_or]

/-! ## Accepted jobs -/

/-- The artifacts of a job, in the order in which a store lists them and with the contents that
it gives them. -/
structure Artifacts {σ ε : Type} (store : Store σ ε) (job : String) (s : σ)
    (all : List Artifact) : Prop where
  listed : store.list job s = .ok (all.map (·.name))
  read : ∀ a ∈ all, store.get job a.name s = .ok a.contents

/-- The text that a source is compiled to. -/
def CompilesTo (a : Artifact) (output : String) : Prop :=
  ∃ source, String.fromUTF8? a.contents = some source ∧
    compile Rule.standard a.name source = .ok output

theorem Artifacts.eq_of_name_eq {all : List Artifact} (h : Artifacts d.store job t all)
    {a b : Artifact} (ha : a ∈ all) (hb : b ∈ all) (hName : a.name = b.name) : a = b := by
  have hRead := h.read a ha
  rw [hName, h.read b hb] at hRead
  cases a
  cases b
  cases hName
  cases hRead
  rfl

theorem CompilesTo.unique {a : Artifact} {output output' : String} (h : CompilesTo a output)
    (h' : CompilesTo a output') : output = output' := by
  obtain ⟨source, hSource, hCompile⟩ := h
  obtain ⟨source', hSource', hCompile'⟩ := h'
  rw [hSource] at hSource'
  cases hSource'
  rw [hCompile] at hCompile'
  cases hCompile'
  rfl

theorem compileArtifact_eq_ok {ε : Type} {a target : Artifact}
    (h : compileArtifact config a = (.ok target : Except (JobError ε) _)) :
    ∃ output, CompilesTo a output ∧ target = ⟨config.targetName a.name, output.toUTF8⟩ := by
  unfold compileArtifact at h
  split at h
  · cases h
  · rename_i source hSource
    split at h
    · cases h
    · rename_i output hOutput
      cases h
      exact ⟨output, ⟨source, hSource, hOutput⟩, rfl⟩

/-- The results of a job are the artifacts that are no sources, and the targets of those that
are. -/
structure Results (config : Config) (all others targets : List Artifact) : Prop where
  mem_others : ∀ a, a ∈ others ↔ a ∈ all ∧ ¬ config.isSource a.name
  target_of_source : ∀ a ∈ all, config.isSource a.name →
    ∃ output, CompilesTo a output ∧ ⟨config.targetName a.name, output.toUTF8⟩ ∈ targets
  source_of_target : ∀ b ∈ targets, ∃ a ∈ all, config.isSource a.name ∧
    ∃ output, CompilesTo a output ∧ b = ⟨config.targetName a.name, output.toUTF8⟩

theorem results_of_yields {outputs : List Artifact}
    (h : Yields config d.store job t outputs t') :
    ∃ all others targets, Artifacts d.store job t all ∧ Results config all others targets ∧
      outputs = others ++ targets := by
  cases h with
  | intro hNames hVisits hTargets =>
    obtain ⟨rfl, hList⟩ := enumerate_eq_ok hNames
    obtain ⟨rfl, rfl, hRead⟩ := fetched_of_visits hVisits
    have hListed := (list_store d job _).trans hList
    have hAll := Artifacts.mk hListed fun a ha => (get_store d job a.name _).trans (hRead a ha)
    refine ⟨_, _, _, hAll, ⟨?_, ?_, ?_⟩, rfl⟩
    · intro a
      simp [List.mem_filter]
    · intro a ha hSource
      obtain ⟨b, hb, hCompile⟩ :=
        exists_right_of_forall₂ hTargets (List.mem_filter.mpr ⟨ha, hSource⟩)
      obtain ⟨output, hOutput, rfl⟩ := compileArtifact_eq_ok hCompile
      exact ⟨output, hOutput, hb⟩
    · intro b hb
      obtain ⟨a, ha, hCompile⟩ := exists_left_of_forall₂ hTargets hb
      obtain ⟨ha, hSource⟩ := List.mem_filter.mp ha
      exact ⟨a, ha, hSource, compileArtifact_eq_ok hCompile⟩

section

variable {place : String → Place} {all others targets : List Artifact}

/-- A target stays, since nothing else is written to its place after it. -/
theorem lastWritten_target (hPlace : Function.Injective place) (hAll : Artifacts d.store job t all)
    (hResults : Results config all others targets) {a : Artifact} (ha : a ∈ all)
    (hSource : config.isSource a.name) {output : String} (hOutput : CompilesTo a output) :
    lastWritten place (others ++ targets) (place (config.targetName a.name)) =
      some output.toUTF8 := by
  obtain ⟨_, hCompiled, hTarget⟩ := hResults.target_of_source a ha hSource
  rw [hCompiled.unique hOutput] at hTarget
  have hLast := lastWritten_eq_some hPlace hTarget <| by
    intro b hb hName
    -- Another target of this name comes from a source of the same name, which is the same one.
    obtain ⟨a', ha', hSource', _, hOutput', rfl⟩ := hResults.source_of_target b hb
    obtain rfl := hAll.eq_of_name_eq ha' ha (targetName_injective hSource' hSource hName)
    rw [hOutput'.unique hOutput]
  rw [lastWritten_append, hLast, Option.some_or]

/-- An artifact that is no source stays unless a target has its name. -/
theorem lastWritten_other (hPlace : Function.Injective place) (hAll : Artifacts d.store job t all)
    (hResults : Results config all others targets) {a : Artifact} (ha : a ∈ all)
    (hOther : ¬ config.isSource a.name) (hFree : ∀ b ∈ targets, b.name ≠ a.name) :
    lastWritten place (others ++ targets) (place a.name) = some a.contents := by
  have hMem : a ∈ others := (hResults.mem_others a).mpr ⟨ha, hOther⟩
  have hLast := lastWritten_eq_some hPlace hMem <| by
    intro b hb hName
    rw [hAll.eq_of_name_eq ((hResults.mem_others b).mp hb).1 ha hName]
  rw [lastWritten_append, lastWritten_eq_none hPlace hFree, Option.none_or, hLast]

end

theorem acked_job_keeps_artifacts {ρ : Type} (config : Config) (d : Directories)
    (reporter : Reporter ρ) (job : String) (files : FileTree) (r : ρ)
    (h : (Worker.process ⟨config, d.store, reporter⟩ job ⟨files, r⟩).1 = .ack) :
    let files' := (Worker.process ⟨config, d.store, reporter⟩ job ⟨files, r⟩).2.store
    ∃ all, Artifacts d.store job files all ∧
      (∀ a ∈ all, config.isSource a.name → ∃ output, CompilesTo a output ∧
        d.Holds job files' (config.targetName a.name) output.toUTF8) ∧
      (∀ a ∈ all, ¬ config.isSource a.name → (d.Holds job files' a.name a.contents ↔
        ∀ b ∈ all, config.isSource b.name → config.targetName b.name = a.name →
          ∀ output, CompilesTo b output → output.toUTF8 = a.contents)) := by
  obtain ⟨final, files', hEnds, hProcess⟩ := process_ends config d.store job files
  rw [hProcess reporter r] at h ⊢
  cases hEnds with
  | fault _ => cases h
  | unwritten _ _ => cases h
  | done hYields hVisits =>
    obtain ⟨all, others, targets, hAll, hResults, rfl⟩ := results_of_yields hYields
    have hSame := eq_of_yields hYields
    rw [hSame] at hVisits
    have hWritten := written_of_visits hVisits
    have hPlace := outputPlace_injective d job files
    refine ⟨all, hAll, ?_, ?_⟩
    · intro a ha hSource
      obtain ⟨output, hOutput, hTarget⟩ := hResults.target_of_source a ha hSource
      refine ⟨output, hOutput, (hWritten.holds_iff (List.mem_append_right _ hTarget)).mpr ?_⟩
      exact lastWritten_target hPlace hAll hResults ha hSource hOutput
    · intro a ha hOther
      have hMem := List.mem_append_left targets ((hResults.mem_others a).mpr ⟨ha, hOther⟩)
      rw [hWritten.holds_iff hMem]
      constructor
      · intro hLast b hb hSource hName output hOutput
        rw [← hName, lastWritten_target hPlace hAll hResults hb hSource hOutput] at hLast
        exact Option.some.inj hLast
      · intro hAgree
        by_cases hFree : ∀ b ∈ targets, b.name ≠ a.name
        · exact lastWritten_other hPlace hAll hResults ha hOther hFree
        · -- A target has taken the place of the artifact, with the same contents.
          simp only [not_forall, not_not] at hFree
          obtain ⟨_, hTarget, hName⟩ := hFree
          obtain ⟨b, hb, hSource, output, hOutput, rfl⟩ := hResults.source_of_target _ hTarget
          rw [← hAgree b hb hSource hName output hOutput, ← hName]
          exact lastWritten_target hPlace hAll hResults hb hSource hOutput

/-- A job with a source, and with an artifact that has the name of its target. -/
def clashing : FileTree where
  current := []
  entries := [(["jobs"], .directory), (["jobs", "j"], .directory),
    (["jobs", "j", "a.c"], .file "int main() { }".toUTF8),
    (["jobs", "j", "a.go"], .file "original go".toUTF8)]

theorem list_clashing : Directories.list ⟨"jobs", "remixed"⟩ "j" clashing =
    .ok ["a.c", "a.go"] := by
  have hEntries : clashing.entriesUnder (Files.join "jobs" "j") =
      [("a.c", .file "int main() { }".toUTF8), ("a.go", .file "original go".toUTF8)] :=
    entriesUnder_of_pairwise ["jobs", "j"] (by decide) (by decide)
      (by decide)
  simp only [Directories.list, FileTree.tooDeep?, FileTree.filesUnder, hEntries]
  decide

theorem process_clashing :
    let after := Worker.process ⟨{}, Directories.store ⟨"jobs", "remixed"⟩, .lines⟩ "j"
      ⟨clashing, ""⟩
    after.1 = .ack ∧
      (after.2.store.read "remixed/j/a.go").toOption ≠ some "original go".toUTF8 := by
  dsimp only
  rw [process_of_list list_clashing]
  decide +kernel

/-- An accepted job can lose an artifact. -/
theorem acked_job_loses_artifact :
    let config : Config := {}
    let d : Directories := ⟨"jobs", "remixed"⟩
    let after := Worker.process ⟨config, d.store, .lines⟩ "j" ⟨clashing, ""⟩
    after.1 = .ack ∧ ¬ config.isSource "a.go" ∧
      (d.store.get "j" "a.go" clashing).toOption = some "original go".toUTF8 ∧
      ¬ d.Holds "j" after.2.store "a.go" "original go".toUTF8 := by
  intro config d after
  obtain ⟨hAck, hRead⟩ := process_clashing
  refine ⟨hAck, by decide +kernel, by decide +kernel, ?_⟩
  rintro ⟨path, hPath, hHeld⟩
  have hOutput : resolve d.outputRoot "j" "a.go" = .ok "remixed/j/a.go" := by decide +kernel
  obtain rfl := Except.ok.inj (hOutput.symm.trans hPath)
  exact hRead (congrArg Except.toOption hHeld)

theorem acked_job_keeps_artifacts_clashing :
    let d : Directories := ⟨"jobs", "remixed"⟩
    let after := Worker.process ⟨{}, d.store, .lines⟩ "j" ⟨clashing, ""⟩
    after.1 = .ack ∧ ∃ output, CompilesTo ⟨"a.c", "int main() { }".toUTF8⟩ output ∧
      d.Holds "j" after.2.store "a.go" output.toUTF8 := by
  intro d after
  have hAck : after.1 = .ack := process_clashing.1
  refine ⟨hAck, ?_⟩
  obtain ⟨all, hAll, hSources, _⟩ := acked_job_keeps_artifacts {} d .lines "j" clashing "" hAck
  have hNames : all.map (·.name) = ["a.c", "a.go"] :=
    Except.ok.inj (hAll.listed.symm.trans ((list_store d "j" clashing).trans list_clashing))
  have hMem : "a.c" ∈ all.map (·.name) := by simp [hNames]
  obtain ⟨⟨name, contents⟩, ha, rfl⟩ := List.mem_map.mp hMem
  have hContents : d.store.get "j" "a.c" clashing = .ok "int main() { }".toUTF8 :=
    eq_ok_of_toOption (by decide +kernel)
  obtain rfl := Except.ok.inj ((hAll.read _ ha).symm.trans hContents)
  exact hSources _ ha (by decide +kernel)

end CToGo.Job
