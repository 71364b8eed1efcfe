import CToGo.Job.Worker
import CToGo.Proofs.Success

/-!
# The course of a job

What happens while a job is performed, said of any store: which requests are made of it, in
which order, and which of them the job ends with. A job first enumerates its artifacts, then
fetches each of them, then compiles the sources among them, and only then writes.

* `Visits`, `Stops`: a request for each item of a list, up to the first that fails.
* `Yields`: all artifacts are fetched and all sources compiled.
* `Faults`: the first of these steps that fails.
* `perform_cases`: what can become of a job.
* `perform_of_faults`: a job that fails before it writes would fail in the same way whatever
  became of its results.
-/

namespace CToGo.Job

variable {σ ε α β : Type} {s s' : σ}

/-! ## One request after the other -/

/-- The same is done for every item of a list, and nothing fails. -/
inductive Visits (f : α → EStateM ε σ β) : List α → σ → List β → σ → Prop where
  | nil (s : σ) : Visits f [] s [] s
  | cons {a : α} {as : List α} {b : β} {bs : List β} {s s₁ s' : σ} :
    f a s = .ok b s₁ → Visits f as s₁ bs s' → Visits f (a :: as) s (b :: bs) s'

/-- The same is done for the items of a list up to the first for which it fails. -/
inductive Stops (f : α → EStateM ε σ β) : List α → σ → ε → σ → Prop where
  | here {a : α} {as : List α} {e : ε} {s s' : σ} :
    f a s = .error e s' → Stops f (a :: as) s e s'
  | later {a : α} {as : List α} {b : β} {e : ε} {s s₁ s' : σ} :
    f a s = .ok b s₁ → Stops f as s₁ e s' → Stops f (a :: as) s e s'

theorem mapM_eq_ok_iff {f : α → EStateM ε σ β} {as : List α} {bs : List β} :
    as.mapM f s = .ok bs s' ↔ Visits f as s bs s' := by
  constructor
  · intro h
    induction as generalizing s bs with
    | nil =>
      cases h
      exact .nil _
    | cons a as ih =>
      rw [List.mapM_cons] at h
      obtain ⟨b, s₁, ha, h⟩ := bind_apply_eq_ok_iff.mp h
      obtain ⟨bs', s₂, has, hEq⟩ := bind_apply_eq_ok_iff.mp h
      cases hEq
      exact .cons ha (ih has)
  · intro h
    induction h with
    | nil s => rfl
    | cons ha _ ih =>
      rw [List.mapM_cons]
      exact bind_apply_eq_ok_iff.mpr ⟨_, _, ha, bind_apply_eq_ok_iff.mpr ⟨_, _, ih, rfl⟩⟩

theorem mapM_eq_error_iff {f : α → EStateM ε σ β} {as : List α} {e : ε} :
    as.mapM f s = .error e s' ↔ Stops f as s e s' := by
  constructor
  · intro h
    induction as generalizing s with
    | nil => cases h
    | cons a as ih =>
      rw [List.mapM_cons] at h
      rcases bind_apply_eq_error_iff.mp h with ha | ⟨b, s₁, ha, h⟩
      · exact .here ha
      · rcases bind_apply_eq_error_iff.mp h with has | ⟨_, _, _, hEq⟩
        · exact .later ha (ih has)
        · cases hEq
  · intro h
    induction h with
    | here ha =>
      rw [List.mapM_cons]
      exact bind_apply_eq_error_iff.mpr (.inl ha)
    | later ha _ ih =>
      rw [List.mapM_cons]
      exact bind_apply_eq_error_iff.mpr (.inr ⟨_, _, ha, bind_apply_eq_error_iff.mpr (.inl ih)⟩)

theorem visits_of_forM {f : α → EStateM ε σ Unit} {as : List α}
    (h : as.forM f s = .ok () s') : ∃ answers, Visits f as s answers s' := by
  induction as generalizing s with
  | nil =>
    cases h
    exact ⟨[], .nil _⟩
  | cons a as ih =>
    obtain ⟨b, s₁, ha, h⟩ := bind_apply_eq_ok_iff.mp h
    obtain ⟨answers, hVisits⟩ := ih h
    exact ⟨b :: answers, .cons ha hVisits⟩

theorem stops_of_forM {f : α → EStateM ε σ Unit} {as : List α} {e : ε}
    (h : as.forM f s = .error e s') : Stops f as s e s' := by
  induction as generalizing s with
  | nil => cases h
  | cons a as ih =>
    rcases bind_apply_eq_error_iff.mp h with ha | ⟨b, s₁, ha, h⟩
    · exact .here ha
    · exact .later ha (ih h)

theorem forM_of_visits {f : α → EStateM ε σ Unit} {as : List α} {answers : List Unit}
    (h : Visits f as s answers s') : as.forM f s = .ok () s' := by
  induction h with
  | nil s => rfl
  | cons ha _ ih => exact bind_apply_eq_ok_iff.mpr ⟨_, _, ha, ih⟩

theorem forM_of_stops {f : α → EStateM ε σ Unit} {as : List α} {e : ε}
    (h : Stops f as s e s') : as.forM f s = .error e s' := by
  induction h with
  | here ha => exact bind_apply_eq_error_iff.mpr (.inl ha)
  | later ha _ ih => exact bind_apply_eq_error_iff.mpr (.inr ⟨_, _, ha, ih⟩)

/-! ## Jobs -/

section

variable (config : Config) (store : Store σ ε) (job : String)

/-- All artifacts of a job are fetched and all sources among them compiled. -/
inductive Yields : σ → List Artifact → σ → Prop where
  | intro {s s₁ s' : σ} {names : List String} {all targets : List Artifact} :
    store.enumerate job s = .ok names s₁ →
    Visits (artifact store job) names s₁ all s' →
    List.Forall₂ (fun a target => compileArtifact config a = (.ok target : Except (JobError ε) _))
      (all.filter (config.isSource ·.name)) targets →
    Yields s (all.filter (!config.isSource ·.name) ++ targets) s'

/-- The first step of a job that fails before anything is written: its artifacts cannot be
enumerated, one of them cannot be fetched, or a source cannot be compiled. -/
inductive Faults : σ → JobError ε → σ → Prop where
  | enumerating {s s' : σ} {e : ε} :
    store.enumerate job s = .error e s' → Faults s (.store e) s'
  | fetching {s s₁ s' : σ} {names : List String} {e : ε} :
    store.enumerate job s = .ok names s₁ →
    Stops (artifact store job) names s₁ e s' →
    Faults s (.store e) s'
  | compiling {s s₁ s' : σ} {names : List String} {all before after : List Artifact}
      {a : Artifact} {e : JobError ε} :
    store.enumerate job s = .ok names s₁ →
    Visits (artifact store job) names s₁ all s' →
    all.filter (config.isSource ·.name) = before ++ a :: after →
    (∀ b ∈ before, ∃ target, compileArtifact config b = (.ok target : Except (JobError ε) _)) →
    compileArtifact config a = .error e →
    Faults s e s'

end

variable {config : Config} {store : Store σ ε} {job : String}

theorem artifacts_eq_ok_iff {all : List Artifact} : artifacts store job s = .ok all s' ↔
    ∃ names s₁, store.enumerate job s = .ok names s₁ ∧
      Visits (artifact store job) names s₁ all s' := by
  simp only [artifacts, bind_apply_eq_ok_iff, mapM_eq_ok_iff]

theorem artifacts_eq_error_iff {e : ε} : artifacts store job s = .error e s' ↔
    store.enumerate job s = .error e s' ∨ ∃ names s₁, store.enumerate job s = .ok names s₁ ∧
      Stops (artifact store job) names s₁ e s' := by
  simp only [artifacts, bind_apply_eq_error_iff, mapM_eq_error_iff]

theorem results_eq_error_iff {e : JobError ε} : results config store job s = .error e s' ↔
    Faults config store job s e s' := by
  simp only [results, bind_apply_eq_error_iff, adaptExcept_apply_eq_error_iff, adaptExcept_apply_eq_ok_iff,
    artifacts_eq_error_iff, artifacts_eq_ok_iff, List.partition_eq_filter_filter]
  constructor
  · rintro (⟨e, hNames | ⟨names, s₁, hNames, hStops⟩, rfl⟩ |
      ⟨all, s₁, ⟨names, s₂, hNames, hVisits⟩, h⟩)
    · exact .enumerating hNames
    · exact .fetching hNames hStops
    · cases hTargets : (all.filter (config.isSource ·.name)).mapM (compileArtifact config) with
      | ok targets =>
        rw [hTargets] at h
        cases h
      | error e =>
        rw [hTargets] at h
        cases h
        obtain ⟨before, a, after, hSources, hBefore, ha⟩ := mapM_eq_error hTargets
        exact .compiling hNames hVisits hSources hBefore ha
  · intro h
    cases h with
    | enumerating hNames => exact .inl ⟨_, .inl hNames, rfl⟩
    | fetching hNames hStops => exact .inl ⟨_, .inr ⟨_, _, hNames, hStops⟩, rfl⟩
    | compiling hNames hVisits hSources hBefore ha =>
      refine .inr ⟨_, _, ⟨_, _, hNames, hVisits⟩, ?_⟩
      rw [hSources, mapM_append_cons hBefore ha]
      rfl

theorem yields_of_results {outputs : List Artifact}
    (h : results config store job s = .ok outputs s') : Yields config store job s outputs s' := by
  simp only [results, bind_apply_eq_ok_iff, adaptExcept_apply_eq_ok_iff, artifacts_eq_ok_iff,
    List.partition_eq_filter_filter] at h
  obtain ⟨all, s₁, ⟨names, s₂, hNames, hVisits⟩, h⟩ := h
  cases hTargets : (all.filter (config.isSource ·.name)).mapM (compileArtifact config) with
  | ok targets =>
    rw [hTargets] at h
    cases h
    exact .intro hNames hVisits (forall₂_of_mapM hTargets)
  | error e =>
    rw [hTargets] at h
    cases h

theorem results_eq_ok_of_yields {outputs : List Artifact}
    (h : Yields config store job s outputs s') : results config store job s = .ok outputs s' := by
  simp only [results, bind_apply_eq_ok_iff, adaptExcept_apply_eq_ok_iff, artifacts_eq_ok_iff,
    List.partition_eq_filter_filter]
  cases h with
  | intro hNames hVisits hTargets =>
    refine ⟨_, _, ⟨_, _, hNames, hVisits⟩, ?_⟩
    rw [mapM_of_forall₂ hTargets]
    rfl

theorem perform_cases (config : Config) (store : Store σ ε) (job : String) (s : σ) :
    (∃ outputs s₁ s' answers, Yields config store job s outputs s₁ ∧
      Visits (write store job) outputs s₁ answers s' ∧
      perform config store job s = .ok () s') ∨
    (∃ e s', Faults config store job s e s' ∧ perform config store job s = .error e s') ∨
    ∃ outputs s₁ e s', Yields config store job s outputs s₁ ∧
      Stops (write store job) outputs s₁ e s' ∧
      perform config store job s = .error (.store e) s' := by
  cases h : perform config store job s with
  | ok _ s' =>
    obtain ⟨outputs, s₁, hResults, hWrite⟩ := bind_apply_eq_ok_iff.mp h
    obtain ⟨answers, hVisits⟩ := visits_of_forM (adaptExcept_apply_eq_ok_iff.mp hWrite)
    exact .inl ⟨outputs, s₁, s', answers, yields_of_results hResults, hVisits, rfl⟩
  | error e s' =>
    rcases bind_apply_eq_error_iff.mp h with hResults | ⟨outputs, s₁, hResults, hWrite⟩
    · exact .inr (.inl ⟨e, s', results_eq_error_iff.mp hResults, rfl⟩)
    · obtain ⟨e, hForM, rfl⟩ := adaptExcept_apply_eq_error_iff.mp hWrite
      exact .inr (.inr ⟨outputs, s₁, e, s', yields_of_results hResults, stops_of_forM hForM, rfl⟩)

theorem perform_of_faults {e : JobError ε} (h : Faults config store job s e s')
    (put : String → String → ByteArray → EStateM ε σ Unit) :
    perform config { store with put } job s = .error e s' := by
  have hFaults : Faults config { store with put } job s e s' := by
    cases h with
    | enumerating hNames => exact .enumerating hNames
    | fetching hNames hStops => exact .fetching hNames hStops
    | compiling hNames hVisits hSources hBefore ha =>
      exact .compiling hNames hVisits hSources hBefore ha
  exact bind_apply_eq_error_iff.mpr (.inl (results_eq_error_iff.mpr hFaults))

theorem perform_of_visits {outputs : List Artifact} {s₁ : σ} {answers : List Unit}
    (hYields : Yields config store job s outputs s₁)
    (hVisits : Visits (write store job) outputs s₁ answers s') :
    perform config store job s = .ok () s' :=
  bind_apply_eq_ok_iff.mpr ⟨outputs, s₁, results_eq_ok_of_yields hYields,
    adaptExcept_apply_eq_ok_iff.mpr (forM_of_visits hVisits)⟩

theorem perform_of_stops {outputs : List Artifact} {s₁ : σ} {e : ε}
    (hYields : Yields config store job s outputs s₁)
    (hStops : Stops (write store job) outputs s₁ e s') :
    perform config store job s = .error (.store e) s' :=
  bind_apply_eq_error_iff.mpr (.inr ⟨outputs, s₁, results_eq_ok_of_yields hYields,
    adaptExcept_apply_eq_error_iff.mpr ⟨e, forM_of_stops hStops, rfl⟩⟩)

end CToGo.Job
