import CToGo.Proofs.Job.Course
import CToGo.Proofs.Job.Lines

/-!
# What is told of deliveries

A worker answers a stream of deliveries by status messages. Of each delivery that names a job
it tells that the job is being processed and then how it ended; of any other delivery it tells
nothing. Messages that do not get through have no consequences.

* `Ends`: how a job ends, and what is told of that.
* `Answers`: how the jobs end that a list of deliveries names, one after the other.
* `messages`: everything that is told.
* `run_answers_every_delivery`: **a run tells all of it, in the order of the deliveries, and
  counts what it has told, whatever becomes of the messages.**
-/

namespace CToGo.Job

variable {σ ε ρ : Type}

/-! ## Reporters -/

/-- The state of a reporter after it was told a message, whether it failed or not. -/
def Reporter.tell (reporter : Reporter ρ) (r : ρ) (message : Status) : ρ :=
  match reporter.report message r with
  | .ok _ r' => r'
  | .error _ r' => r'

theorem Worker.publish_eq (w : Worker σ ρ ε) (message : Status) (s : Worker.State σ ρ) :
    w.publish message s = ⟨s.store, w.reporter.tell s.reporter message⟩ := by
  rw [Worker.publish, Reporter.tell]
  cases w.reporter.report message s.reporter <;> rfl

/-! ## Jobs -/

/-- What is told of a job when it is begun. -/
def Status.first (job : String) : Status := { id := job, progress := .processing }

/-- What becomes of a delivery, given what is told of its job when that ends. -/
def Status.outcome (final : Status) : Outcome := if final.progress = .done then .ack else .nack

section

variable (config : Config) (store : Store σ ε)

/-- How a job ends: with the message that is told then, and with the store in a new state. -/
inductive Ends (job : String) : σ → Status → σ → Prop where
  | done {s s₁ s' : σ} {outputs : List Artifact} {written : List Unit} :
    Yields config store job s outputs s₁ →
    Visits (write store job) outputs s₁ written s' →
    Ends job s { id := job, progress := .done } s'
  /-- Nothing has been written. -/
  | fault {s s' : σ} {e : JobError ε} :
    Faults config store job s e s' →
    Ends job s { id := job, progress := .failed, reason := e.message store.message } s'
  /-- All that could fail before the first result was written has succeeded. -/
  | unwritten {s s₁ s' : σ} {outputs : List Artifact} {e : ε} :
    Yields config store job s outputs s₁ →
    Stops (write store job) outputs s₁ e s' →
    Ends job s { id := job, progress := .failed, reason := store.message e } s'

/-- The outcome and the store are the same for all reporters. -/
theorem process_ends (job : String) (s : σ) :
    ∃ final s', Ends config store job s final s' ∧
      ∀ {ρ : Type} (reporter : Reporter ρ) (r : ρ),
        Worker.process ⟨config, store, reporter⟩ job ⟨s, r⟩ =
          (final.outcome, ⟨s', reporter.tell (reporter.tell r (.first job)) final⟩) := by
  rcases perform_cases config store job s with
    ⟨outputs, s₁, s', written, hYields, hVisits, hEq⟩ | ⟨e, s', hFaults, hEq⟩ |
    ⟨outputs, s₁, e, s', hYields, hStops, hEq⟩
  · refine ⟨_, s', .done hYields hVisits, ?_⟩
    intro ρ reporter r
    simp only [Worker.process, Worker.publish_eq, hEq]
    rfl
  · refine ⟨_, s', .fault hFaults, ?_⟩
    intro ρ reporter r
    simp only [Worker.process, Worker.publish_eq, hEq]
    rfl
  · refine ⟨_, s', .unwritten hYields hStops, ?_⟩
    intro ρ reporter r
    simp only [Worker.process, Worker.publish_eq, hEq]
    rfl

/-! ## Deliveries -/

/-- What a delivery leads to: the end of the job that it names, or nothing at all. -/
inductive Answer (body : String) : σ → Option Status → σ → Prop where
  | job {d : Delivery} {s s' : σ} {final : Status} :
    Delivery.decode body = .ok d →
    Ends config store d.id s final s' →
    Answer body s (some final) s'
  | refused {e : DeliveryError} {s : σ} :
    Delivery.decode body = .error e →
    Answer body s none s

/-- What deliveries lead to, one after the other. -/
inductive Answers : List String → σ → List (Option Status) → σ → Prop where
  | nil (s : σ) : Answers [] s [] s
  | cons {body : String} {bodies : List String} {s s₁ s' : σ} {final : Option Status}
      {ends : List (Option Status)} :
    Answer config store body s final s₁ →
    Answers bodies s₁ ends s' →
    Answers (body :: bodies) s (final :: ends) s'

end

section

variable {config : Config} {store : Store σ ε} {s s' : σ}

theorem Ends.id_eq {job : String} {final : Status} (h : Ends config store job s final s') :
    final.id = job := by
  cases h <;> rfl

theorem Answers.length_eq {bodies : List String} {ends : List (Option Status)}
    (h : Answers config store bodies s ends s') : ends.length = bodies.length := by
  induction h with
  | nil s => rfl
  | cons _ _ ih => rw [List.length_cons, List.length_cons, ih]

end

/-- What is told of a delivery. -/
def messagesOf : Option Status → List Status
  | some final => [.first final.id, final]
  | none => []

/-- Everything that is told, in the order in which it is. -/
def messages (ends : List (Option Status)) : List Status := ends.flatMap messagesOf

theorem messages_cons (final : Option Status) (ends : List (Option Status)) :
    messages (final :: ends) = messagesOf final ++ messages ends := List.flatMap_cons

/-- What becomes of a delivery. -/
def outcomeOf : Option Status → Outcome
  | some final => final.outcome
  | none => .nack

/-! ## Counts -/

theorem foldl_record (outcomes : List Outcome) (summary : Summary) :
    outcomes.foldl Summary.record summary =
      ⟨summary.acked + outcomes.count .ack, summary.nacked + outcomes.count .nack⟩ := by
  induction outcomes generalizing summary with
  | nil => rfl
  | cons outcome outcomes ih =>
    rw [List.foldl_cons, ih]
    cases outcome with
    | ack => simp [Summary.record, Nat.add_assoc, Nat.add_comm 1]
    | nack => simp [Summary.record, Nat.add_assoc, Nat.add_comm 1]

theorem count_ack_add_count_nack (outcomes : List Outcome) :
    outcomes.count .ack + outcomes.count .nack = outcomes.length := by
  induction outcomes with
  | nil => rfl
  | cons outcome outcomes ih =>
    cases outcome <;> simp <;> omega

/-- The summary with some more deliveries. -/
def Summary.recordAll (summary : Summary) (ends : List (Option Status)) : Summary :=
  ends.foldl (fun summary final => summary.record (outcomeOf final)) summary

theorem recordAll_cons (summary : Summary) (final : Option Status) (ends : List (Option Status)) :
    summary.recordAll (final :: ends) = (summary.record (outcomeOf final)).recordAll ends := rfl

theorem acked_recordAll (summary : Summary) (ends : List (Option Status)) :
    (summary.recordAll ends).acked =
      summary.acked + (messages ends).countP (·.progress = .done) := by
  induction ends generalizing summary with
  | nil => rfl
  | cons final ends ih =>
    have hFinal : (summary.record (outcomeOf final)).acked =
        summary.acked + (messagesOf final).countP (·.progress = .done) := by
      cases final with
      | none => rfl
      | some final =>
        by_cases h : final.progress = .done <;>
          simp [outcomeOf, Status.outcome, messagesOf, Status.first, Summary.record, h]
    rw [recordAll_cons, ih, hFinal, messages_cons, List.countP_append, Nat.add_assoc]

theorem acked_add_nacked_recordAll (summary : Summary) (ends : List (Option Status)) :
    (summary.recordAll ends).acked + (summary.recordAll ends).nacked =
      summary.acked + summary.nacked + ends.length := by
  have hOutcomes : summary.recordAll ends = (ends.map outcomeOf).foldl Summary.record summary :=
    List.foldl_map.symm
  have hCounts := count_ack_add_count_nack (ends.map outcomeOf)
  rw [List.length_map] at hCounts
  rw [hOutcomes, foldl_record]
  dsimp only
  omega

/-! ## Streams -/

section

variable (config : Config) (store : Store σ ε)

theorem deliver_answer (body : String) (s : σ) :
    ∃ final s', Answer config store body s final s' ∧
      ∀ {ρ : Type} (reporter : Reporter ρ) (r : ρ),
        Worker.deliver ⟨config, store, reporter⟩ body ⟨s, r⟩ =
          (outcomeOf final, ⟨s', (messagesOf final).foldl reporter.tell r⟩) := by
  cases hBody : Delivery.decode body with
  | error e =>
    refine ⟨none, s, .refused hBody, ?_⟩
    intro ρ reporter r
    simp only [Worker.deliver, hBody]
    rfl
  | ok d =>
    obtain ⟨final, s', hEnds, hProcess⟩ := process_ends config store d.id s
    refine ⟨some final, s', .job hBody hEnds, ?_⟩
    intro ρ reporter r
    simp only [Worker.deliver, hBody, hProcess, messagesOf, hEnds.id_eq]
    rfl

/-- The lines that are not blank. -/
def withoutBlank (lines : List String) : List String := lines.filter fun line => !isBlankText line

theorem runLines_answers (lines : List String) (s : σ) :
    ∃ ends s', Answers config store (withoutBlank lines) s ends s' ∧
      ∀ {ρ : Type} (reporter : Reporter ρ) (r : ρ) (summary : Summary),
        Worker.runLines ⟨config, store, reporter⟩ summary ⟨s, r⟩ (lines.map String.toUTF8) =
          (.ok (summary.recordAll ends), ⟨s', (messages ends).foldl reporter.tell r⟩) := by
  induction lines generalizing s with
  | nil => exact ⟨[], s, .nil s, fun _ _ _ => rfl⟩
  | cons line lines ih =>
    by_cases hBlank : isBlankText line
    · obtain ⟨ends, s', hAnswers, hRun⟩ := ih s
      refine ⟨ends, s', ?_, ?_⟩
      · rwa [withoutBlank, List.filter_cons_of_neg (by simp [hBlank])]
      · intro ρ reporter r summary
        simp only [List.map_cons, Worker.runLines, fromUTF8?_toUTF8, hBlank, if_true, hRun]
    · -- The end of the job and the state of the store are fixed here, before any reporter is.
      obtain ⟨final, s₁, hFirst, hDeliver⟩ := deliver_answer config store line s
      obtain ⟨ends, s', hAnswers, hRun⟩ := ih s₁
      refine ⟨final :: ends, s', ?_, ?_⟩
      · rw [withoutBlank, List.filter_cons_of_pos (by simp [hBlank])]
        exact .cons hFirst hAnswers
      · intro ρ reporter r summary
        simp only [List.map_cons, Worker.runLines, fromUTF8?_toUTF8, hBlank, hDeliver, hRun,
          messages_cons, List.foldl_append, recordAll_cons]
        rfl

/-- A run on the encoding of any text, with any store and any reporter. How the jobs end, the
counts and the state of the store are chosen before the reporter is; and a job that fails
before it writes does so whatever the store does with results. -/
theorem run_answers_every_delivery (text : String) (s : σ) :
    (∃ (ends : List (Option Status)) (s' : σ) (summary : Summary),
      Answers config store (withoutBlank (textLines text)) s ends s' ∧
      summary.acked = (messages ends).countP (·.progress = .done) ∧
      summary.acked + summary.nacked = (withoutBlank (textLines text)).length ∧
      ∀ {ρ : Type} (reporter : Reporter ρ) (r : ρ),
        Worker.run ⟨config, store, reporter⟩ text.toUTF8 ⟨s, r⟩ =
          (.ok summary, ⟨s', (messages ends).foldl reporter.tell r⟩)) ∧
    ∀ {job : String} {t t' : σ} {e : JobError ε}, Faults config store job t e t' →
      ∀ put, perform config { store with put } job t = .error e t' := by
  refine ⟨?_, fun hFaults put => perform_of_faults hFaults put⟩
  obtain ⟨ends, s', hAnswers, hRun⟩ := runLines_answers config store (textLines text) s
  refine ⟨ends, s', Summary.recordAll {} ends, hAnswers, ?_, ?_, ?_⟩
  · rw [acked_recordAll, Nat.zero_add]
  · rw [acked_add_nacked_recordAll, hAnswers.length_eq, Nat.zero_add, Nat.zero_add]
  · intro ρ reporter r
    rw [Worker.run, linesOf_toUTF8]
    exact hRun reporter r {}

end

end CToGo.Job
