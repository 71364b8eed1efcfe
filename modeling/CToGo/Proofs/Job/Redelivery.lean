import CToGo.Proofs.Job.Unaffected

/-!
# Deliveries in any order

A stream of deliveries can name the same jobs in another order, and each of them any number of
times. As long as what is written has no influence on what is read, none of this makes a
difference. Each delivery is answered as if it were the first one, and the files in the end
depend on nothing but which jobs were delivered. This holds of jobs that fail as well: they fail
at the same place again, and leave the same results behind.

* `Directories.Apart`, `Directories.apart_of_disjoint`: no job reads what another one writes.
* `Steady`: a course of jobs in which each of them ends as it would have ended first.
* `exists_steady`: **such a course is taken if the directories are apart.**
* `deliveredIds`: the jobs that a stream names.
* `run_depends_on_delivered_ids`: **the answers and the files depend on nothing else.**
-/

namespace CToGo.Job

open Files (FileTree Place Entry IsName steps)
open Files.FileTree (after CarriesOut Courses Reached SameBelow Settles Step)

variable {config : Config} {d : Directories} {job : String} {t u u' : FileTree}

/-! ## Outcomes of jobs -/

/-- What becomes of a delivery, given how its job was performed. -/
def outcomeOfResult {ε σ α : Type} : EStateM.Result ε σ α → Outcome
  | .ok _ _ => .ack
  | .error _ _ => .nack

theorem Ends.perform_eq {final : Status} (h : Ends config d.store job t final u) :
    outcomeOfResult (perform config d.store job t) = final.outcome ∧
      after (perform config d.store job t) = u := by
  cases h with
  | done hYields hVisits =>
    rw [perform_of_visits hYields hVisits]
    exact ⟨rfl, rfl⟩
  | fault hFaults =>
    rw [perform_of_faults hFaults d.store.put]
    exact ⟨rfl, rfl⟩
  | unwritten hYields hStops =>
    rw [perform_of_stops hYields hStops]
    exact ⟨rfl, rfl⟩

theorem fst_process {ρ : Type} (reporter : Reporter ρ) (job : String) (t : FileTree) (r : ρ) :
    (Worker.process ⟨config, d.store, reporter⟩ job ⟨t, r⟩).1 =
      outcomeOfResult (perform config d.store job t) := by
  simp only [Worker.process, Worker.publish_eq]
  cases perform config d.store job t <;> rfl

/-- What is done by a change that carries out steps can be told from their course. -/
theorem eq_of_settles {ε α : Type} {change : EStateM ε FileTree α} {L : List Step}
    {puts : List (Place × Entry)} {complete : Bool} (h : CarriesOut change t L)
    (hSettles : Settles t L puts complete u) :
    outcomeOfResult (change t) = (if complete then .ack else .nack) ∧
      after (change t) = u := by
  rcases h with ⟨a, t', puts', hChange, hHere⟩ | ⟨e, t', puts', hChange, hHere⟩
  · obtain ⟨_, rfl, rfl⟩ := hSettles.unique hHere
    rw [hChange]
    exact ⟨rfl, rfl⟩
  · obtain ⟨_, rfl, rfl⟩ := hSettles.unique hHere
    rw [hChange]
    exact ⟨rfl, rfl⟩

/-! ## Jobs one after the other -/

/-- Whatever jobs have been performed, the next one ends as it would have ended first; and the
tree tells nothing but which jobs they were. -/
structure Steady (config : Config) (d : Directories) (t : FileTree)
    (Leads : List String → FileTree → Prop) : Prop where
  start : Leads [] t
  step : ∀ {ids job u}, IsName job → Leads ids u →
    outcomeOfResult (perform config d.store job u) =
        outcomeOfResult (perform config d.store job t) ∧
      Leads (job :: ids) (after (perform config d.store job u))
  same : ∀ {ids ids' u u'}, Leads ids u → Leads ids' u' → (∀ id, id ∈ ids ↔ id ∈ ids') →
    ∀ place, u.lookup? place = u'.lookup? place

/-- Jobs that change nothing do not affect each other. -/
theorem steady_of_still (h : ∀ job, IsName job → after (perform config d.store job t) = t) :
    Steady config d t fun _ u => u = t where
  start := rfl
  step hJob hSame := by
    subst hSame
    exact ⟨rfl, h _ hJob⟩
  same hSame hSame' _ place := by rw [hSame, hSame']

/-! ## Directories that are apart -/

/-- What is written has no influence on what is read: neither root is inside the other one, and
on the way to the output root nothing has to be made in the input root. -/
structure Directories.Apart (d : Directories) (t : FileTree) : Prop where
  input_outside : ¬ t.placeOf d.outputRoot <+: t.placeOf d.inputRoot
  output_outside : ¬ t.placeOf d.inputRoot <+: t.placeOf d.outputRoot
  way : ∀ place ∈ d.outputWay t, t.placeOf d.inputRoot <+: place →
    t.lookup? place = some .directory

/-- Of two roots that are not inside each other the second condition holds if the output root is
there, or if the path to it never leads up. -/
theorem Directories.apart_of_disjoint
    (hInput : ¬ t.placeOf d.outputRoot <+: t.placeOf d.inputRoot)
    (hOutput : ¬ t.placeOf d.inputRoot <+: t.placeOf d.outputRoot)
    (h : t.isDirectory d.outputRoot ∨ ".." ∉ steps d.outputRoot) : d.Apart t := by
  refine ⟨hInput, hOutput, ?_⟩
  intro place hMem hPlace
  rcases h with hThere | hUp
  · obtain ⟨found, hLocate, hFound⟩ := FileTree.exists_of_isDirectory hThere
    unfold FileTree.locate FileTree.followFrom at hLocate
    split at hLocate
    · cases hLocate
    · exact FileTree.directory_of_mem_wayPlaces hLocate hFound hMem
  · have hAbove := FileTree.prefix_of_mem_wayPlaces hUp hMem
    rw [t.foldl_descend_steps] at hAbove
    exact absurd (hPlace.trans hAbove) hOutput

/-- One job, and no other one. -/
def alone : FileTree where
  current := []
  entries := [(["jobs"], .directory), (["jobs", "j"], .directory),
    (["jobs", "j", "a.txt"], .file "kept".toUTF8)]

/-- The same tree with the results of the job in `jobs/k/../../out`. -/
def joined : FileTree where
  current := []
  entries := (["out", "j", "a.txt"], .file "kept".toUTF8) :: (["out", "j"], .directory) ::
    (["out"], .directory) :: (["jobs", "k"], .directory) :: alone.entries

theorem list_alone :
    Directories.list ⟨"jobs", "jobs/k/../../out"⟩ "j" alone = .ok ["a.txt"] ∧
      Directories.list ⟨"jobs", "jobs/k/../../out"⟩ "k" joined = .ok [] := by
  have hAlone : alone.entriesUnder (Files.join "jobs" "j") =
      [("a.txt", .file "kept".toUTF8)] :=
    entriesUnder_of_pairwise ["jobs", "j"] (by decide) (by decide)
      (by decide)
  have hJoined : joined.entriesUnder (Files.join "jobs" "k") = [] :=
    entriesUnder_of_pairwise ["jobs", "k"] (by decide) (by decide)
      (by decide)
  simp only [Directories.list, FileTree.tooDeep?, FileTree.filesUnder, hAlone, hJoined]
  decide

/-- The second condition is needed: on the way to this output root, which is not inside the input
root, the directory of a job is made. So that job is found if another one was performed before,
and is not found if it is the first one. -/
theorem not_steady_of_way :
    let d : Directories := ⟨"jobs", "jobs/k/../../out"⟩
    ¬ alone.placeOf d.outputRoot <+: alone.placeOf d.inputRoot ∧
      ¬ alone.placeOf d.inputRoot <+: alone.placeOf d.outputRoot ∧
      ∀ Leads, ¬ Steady {} d alone Leads := by
  intro d
  refine ⟨by decide +kernel, by decide +kernel, ?_⟩
  intro Leads h
  have hFirst : IsName "j" := ⟨by decide, by decide, by decide, by decide⟩
  have hSecond : IsName "k" := ⟨by decide, by decide, by decide, by decide⟩
  have hJoined : after (perform {} d.store "j" alone) = joined := by
    rw [perform_of_list list_alone.1]
    decide +kernel
  obtain ⟨_, hNext⟩ := h.step hFirst h.start
  obtain ⟨hOutcome, _⟩ := h.step hSecond hNext
  rw [hJoined, perform_of_list list_alone.2] at hOutcome
  exact absurd hOutcome (by decide +kernel)

theorem Belongs.untouched (hApart : d.Apart t) {place : Place} {entry : Entry}
    (h : Belongs d t job place entry) (hPlace : t.placeOf d.inputRoot <+: place) :
    entry = .directory ∧ t.lookup? place = some .directory := by
  cases h with
  | way hWay hEntry => exact ⟨hEntry, hApart.way place hWay hPlace⟩
  | below hPrefix _ =>
    -- Both roots would be on the way to this place, and so one inside the other.
    have hOutput : t.placeOf d.outputRoot <+: place := (List.prefix_append _ _).trans hPrefix
    rcases List.prefix_or_prefix_of_prefix hPlace hOutput with hInside | hInside
    · exact absurd hInside hApart.output_outside
    · exact absurd hInside hApart.input_outside

section

variable (config : Config) (hOpens : t.Opens d.inputRoot)
  (hOrigin : t.lookup? (t.origin d.outputRoot) = some .directory)

include hOpens hOrigin

/-- The courses that jobs take as the first ones. -/
theorem exists_courses (hApart : d.Apart t) :
    ∃ puts complete, Courses (t.placeOf d.inputRoot) t
      (fun job : {id // IsName id} => jobSteps config d t job) puts complete := by
  have hSettles (job : {id // IsName id}) :
      ∃ puts complete t', Settles t (jobSteps config d t job) puts complete t' := by
    rcases carriesOut_perform config (.refl _ t) hOpens hOrigin job.2 with
      ⟨_, t', puts, _, hCourse⟩ | ⟨_, t', puts, _, hCourse⟩
    · exact ⟨puts, true, t', hCourse⟩
    · exact ⟨puts, false, t', hCourse⟩
  choose puts complete t' hCourse using hSettles
  have hBelongs (job : {id // IsName id}) {place : Place} {entry : Entry}
      (hMem : (place, entry) ∈ puts job) : Belongs d t job place entry :=
    belongs_of_mem_jobSteps job.2 ((hCourse job).mem_of_mem hMem)
  refine ⟨puts, complete, fun job => ⟨t' job, hCourse job⟩, ?_, ?_⟩
  · intro job job' hNe place entry entry' hMem hMem'
    obtain ⟨rfl, rfl⟩ := eq_directory_of_belongs (fun hEq => hNe (Subtype.ext hEq))
      (hBelongs job hMem) (hBelongs job' hMem')
    exact ⟨rfl, rfl⟩
  · intro job place entry hMem hPlace
    exact (belongs_of_mem_jobSteps job.2 hMem).untouched hApart hPlace

/-- Each job takes its course, whatever jobs were performed before. -/
theorem steady_reached {puts : {id // IsName id} → List (Place × Entry)}
    {complete : {id // IsName id} → Bool}
    (hCourses : Courses (t.placeOf d.inputRoot) t
      (fun job : {id // IsName id} => jobSteps config d t job) puts complete) :
    Steady config d t fun ids =>
      Reached (t.placeOf d.inputRoot) t puts fun job => job.1 ∈ ids where
  start := (Reached.refl _ t puts).congr fun job => by simp
  step {ids job u} hJob hReached := by
    have hPerform {u : FileTree} (hSame : SameBelow (t.placeOf d.inputRoot) t u) :
        CarriesOut (perform config d.store job) u (jobSteps config d t job) :=
      carriesOut_perform config hSame hOpens hOrigin hJob
    obtain ⟨t', hFirst⟩ := hCourses.settles ⟨job, hJob⟩
    obtain ⟨u', hHere, hNext⟩ := hReached.step hCourses ⟨job, hJob⟩
    obtain ⟨hOutcome, hAfter⟩ := eq_of_settles (hPerform hReached.same) hHere
    refine ⟨hOutcome.trans (eq_of_settles (hPerform (.refl _ t)) hFirst).1.symm, ?_⟩
    rw [hAfter]
    exact hNext.congr fun other => by rw [List.mem_cons, or_comm, Subtype.ext_iff]
  same hReached hReached' hSame := hReached.lookup?_eq hReached' fun job => hSame job

end

/-- Directories that are apart let each job end as it would have ended first. -/
theorem exists_steady (config : Config) (hApart : d.Apart t) :
    ∃ Leads, Steady config d t Leads := by
  by_cases hOpens : t.Opens d.inputRoot
  · by_cases hOrigin : t.lookup? (t.origin d.outputRoot) = some .directory
    · obtain ⟨puts, complete, hCourses⟩ := exists_courses config hOpens hOrigin hApart
      exact ⟨_, steady_reached config hOpens hOrigin hCourses⟩
    · exact ⟨_, steady_of_still fun _ hJob => after_perform_of_no_origin config hJob hOrigin⟩
  · exact ⟨_, steady_of_still fun _ hJob => after_perform_of_not_opens config hJob hOpens⟩

/-! ## Streams of deliveries -/

/-- The job that a delivery names. -/
def deliveredId? (body : String) : Option String := (Delivery.decode body).toOption.map (·.id)

/-- The jobs that a stream names, in the order of its lines. -/
def deliveredIds (text : String) : List String :=
  (withoutBlank (textLines text)).filterMap deliveredId?

/-- One delivery: what becomes of it, and what has been performed then. -/
theorem Steady.answer {Leads : List String → FileTree → Prop} (h : Steady config d t Leads)
    {body : String} {final : Option Status} {ids : List String}
    (hAnswer : Answer config d.store body u final u') (hLeads : Leads ids u) :
    (∀ {ρ : Type} (reporter : Reporter ρ) (r : ρ), outcomeOf final =
      (Worker.deliver ⟨config, d.store, reporter⟩ body ⟨t, r⟩).1) ∧
      Leads ((deliveredId? body).toList ++ ids) u' := by
  cases hAnswer with
  | refused hBody =>
    refine ⟨?_, ?_⟩
    · intro ρ reporter r
      simp only [Worker.deliver, hBody]
      rfl
    · rw [deliveredId?, hBody]
      exact hLeads
  | @job delivery _ _ _ hBody hEnds =>
    obtain ⟨hOutcome, rfl⟩ := hEnds.perform_eq
    obtain ⟨hFirst, hNext⟩ := h.step (isName_of_decode hBody) hLeads
    refine ⟨?_, ?_⟩
    · intro ρ reporter r
      simp only [Worker.deliver, hBody, fst_process]
      rw [← hFirst, hOutcome]
      rfl
    · rw [deliveredId?, hBody]
      exact hNext

/-- Deliveries one after the other. -/
theorem Steady.answers {Leads : List String → FileTree → Prop} (h : Steady config d t Leads)
    {bodies : List String} {ends : List (Option Status)} {ids : List String}
    (hAnswers : Answers config d.store bodies u ends u') (hLeads : Leads ids u) :
    (∀ {ρ : Type} (reporter : Reporter ρ) (r : ρ), ends.map outcomeOf =
      bodies.map fun body => (Worker.deliver ⟨config, d.store, reporter⟩ body ⟨t, r⟩).1) ∧
      ∃ ids', Leads ids' u' ∧ ∀ id, id ∈ ids' ↔ id ∈ ids ∨ id ∈ bodies.filterMap deliveredId? := by
  induction hAnswers generalizing ids with
  | nil u => exact ⟨fun _ _ => rfl, ids, hLeads, by simp⟩
  | @cons body bodies _ _ _ _ _ hAnswer _ ih =>
    obtain ⟨hFirst, hNext⟩ := h.answer hAnswer hLeads
    obtain ⟨hRest, ids', hLeads', hIds⟩ := ih hNext
    refine ⟨?_, ids', hLeads', ?_⟩
    · intro ρ reporter r
      rw [List.map_cons, List.map_cons, hFirst reporter r, hRest reporter r]
    · intro id
      rw [hIds, List.mem_append, List.filterMap_cons]
      cases deliveredId? body with
      | none => simp
      | some first => simp [or_assoc, or_left_comm]

theorem run_answers (config : Config) (d : Directories) (text : String) (t : FileTree) :
    ∃ ends t', Answers config d.store (withoutBlank (textLines text)) t ends t' ∧
      ∀ {ρ : Type} (reporter : Reporter ρ) (r : ρ),
        Worker.run ⟨config, d.store, reporter⟩ text.toUTF8 ⟨t, r⟩ =
          (.ok (Summary.recordAll {} ends), ⟨t', (messages ends).foldl reporter.tell r⟩) := by
  obtain ⟨ends, t', hAnswers, hLines⟩ := runLines_answers config d.store (textLines text) t
  refine ⟨ends, t', hAnswers, ?_⟩
  intro ρ reporter r
  rw [Worker.run, linesOf_toUTF8]
  exact hLines reporter r {}

/-- The same lines name the same jobs. -/
theorem mem_deliveredIds_congr {text text' : String}
    (h : ∀ line, line ∈ textLines text ↔ line ∈ textLines text') (id : String) :
    id ∈ deliveredIds text ↔ id ∈ deliveredIds text' := by
  simp only [deliveredIds, withoutBlank, List.mem_filterMap, List.mem_filter, h]

/-- Each delivery is answered as if it were the first one, and two streams that name the same
jobs lead to the same files. The jobs are the same if the lines are, in whatever order and
however often. -/
theorem run_depends_on_delivered_ids (config : Config) (d : Directories) (files : FileTree)
    (hApart : d.Apart files) :
    (∀ text : String, ∃ (ends : List (Option Status)) (files' : FileTree),
      Answers config d.store (withoutBlank (textLines text)) files ends files' ∧
      ∀ {ρ : Type} (reporter : Reporter ρ) (r : ρ),
        Worker.run ⟨config, d.store, reporter⟩ text.toUTF8 ⟨files, r⟩ =
          (.ok (Summary.recordAll {} ends), ⟨files', (messages ends).foldl reporter.tell r⟩) ∧
        ends.map outcomeOf = (withoutBlank (textLines text)).map fun line =>
          (Worker.deliver ⟨config, d.store, reporter⟩ line ⟨files, r⟩).1) ∧
    (∀ text text' : String, (∀ id, id ∈ deliveredIds text ↔ id ∈ deliveredIds text') →
      ∀ {ρ ρ' : Type} (reporter : Reporter ρ) (reporter' : Reporter ρ') (r : ρ) (r' : ρ')
        (place : Place),
        (Worker.run ⟨config, d.store, reporter⟩ text.toUTF8 ⟨files, r⟩).2.store.lookup? place =
          (Worker.run ⟨config, d.store, reporter'⟩ text'.toUTF8 ⟨files, r'⟩).2.store.lookup?
            place) ∧
    ∀ text text' : String, (∀ line, line ∈ textLines text ↔ line ∈ textLines text') →
      ∀ id, id ∈ deliveredIds text ↔ id ∈ deliveredIds text' := by
  obtain ⟨Leads, hSteady⟩ := exists_steady config hApart
  refine ⟨?_, ?_, fun _ _ => mem_deliveredIds_congr⟩
  · intro text
    obtain ⟨ends, files', hAnswers, hRun⟩ := run_answers config d text files
    obtain ⟨hOutcomes, _⟩ := hSteady.answers hAnswers hSteady.start
    exact ⟨ends, files', hAnswers, fun reporter r => ⟨hRun reporter r, hOutcomes reporter r⟩⟩
  · intro text text' hIds ρ ρ' reporter reporter' r r' place
    obtain ⟨ends, files', hAnswers, hRun⟩ := run_answers config d text files
    obtain ⟨ends', files'', hAnswers', hRun'⟩ := run_answers config d text' files
    obtain ⟨_, ids, hLeads, hMem⟩ := hSteady.answers hAnswers hSteady.start
    obtain ⟨_, ids', hLeads', hMem'⟩ := hSteady.answers hAnswers' hSteady.start
    rw [hRun reporter r, hRun' reporter' r']
    refine hSteady.same hLeads hLeads' ?_ place
    intro id
    rw [hMem, hMem']
    exact or_congr_right (hIds id)

/-- A job that fails after it has written a result, and another one. -/
def halfway : FileTree where
  current := []
  entries := blocked.entries ++
    [(["jobs", "k"], .directory), (["jobs", "k", "a.txt"], .file "kept".toUTF8)]

theorem list_halfway :
    Directories.list ⟨"jobs", "remixed"⟩ "j" halfway = .ok ["x.c", "x.go/y.txt"] ∧
      Directories.list ⟨"jobs", "remixed"⟩ "k" halfway = .ok ["a.txt"] := by
  have hFirst : halfway.entriesUnder (Files.join "jobs" "j") =
      [("x.c", .file "int main() { }".toUTF8), ("x.go", .directory),
        ("x.go/y.txt", .file "kept".toUTF8)] :=
    entriesUnder_of_pairwise ["jobs", "j"] (by decide) (by decide)
      (by decide)
  have hSecond : halfway.entriesUnder (Files.join "jobs" "k") =
      [("a.txt", .file "kept".toUTF8)] :=
    entriesUnder_of_pairwise ["jobs", "k"] (by decide) (by decide)
      (by decide)
  simp only [Directories.list, FileTree.tooDeep?, FileTree.filesUnder, hFirst, hSecond]
  decide

theorem run_depends_on_delivered_ids_halfway :
    let config : Config := {}
    let d : Directories := ⟨"jobs", "remixed"⟩
    let first := "\x7b\"id\":\"j\"\x7d"
    let second := "\x7b\"id\":\"k\"\x7d"
    let text := first ++ "\n" ++ second ++ "\n"
    let text' := second ++ "\n" ++ first ++ "\n" ++ first
    d.Apart halfway ∧
      (∃ ends files', Answers config d.store (withoutBlank (textLines text')) halfway ends files' ∧
        ends.map outcomeOf = [.ack, .nack, .nack]) ∧
      ∀ place,
        (Worker.run ⟨config, d.store, .lines⟩ text.toUTF8 ⟨halfway, ""⟩).2.store.lookup? place =
          (Worker.run ⟨config, d.store, .broken⟩ text'.toUTF8 ⟨halfway, ""⟩).2.store.lookup?
            place := by
  intro config d first second text text'
  have hApart : d.Apart halfway :=
    Directories.apart_of_disjoint (by decide +kernel) (by decide +kernel) (.inr (by decide +kernel))
  obtain ⟨hOutcomes, hFiles, _⟩ := run_depends_on_delivered_ids config d halfway hApart
  refine ⟨hApart, ?_, ?_⟩
  · obtain ⟨ends, files', hAnswers, hRun⟩ := hOutcomes text'
    refine ⟨ends, files', hAnswers, ?_⟩
    have hLines : withoutBlank (textLines text') = [second, first, first] := by decide +kernel
    have hFirst : Delivery.decode first = .ok ⟨"j"⟩ := by decide +kernel
    have hSecond : Delivery.decode second = .ok ⟨"k"⟩ := by decide +kernel
    rw [(hRun .lines "").2, hLines]
    simp only [List.map_cons, List.map_nil, Worker.deliver, hFirst, hSecond, d]
    rw [process_of_list list_halfway.1, process_of_list list_halfway.2]
    decide +kernel
  · intro place
    refine hFiles text text' ?_ .lines .broken "" "" place
    have hIds : deliveredIds text = ["j", "k"] := by decide +kernel
    have hIds' : deliveredIds text' = ["k", "j", "j"] := by decide +kernel
    intro id
    rw [hIds, hIds']
    simp [or_comm]

end CToGo.Job
