import CToGo.Proofs.Job.Kept

/-!
# Settling deliveries

A worker settles the lines of a stream one after the other, each by accepting or refusing it. A
line that names no job is refused, and nothing else becomes of it: the jobs that the other lines
name begin, go and end as they would without it. All this holds of the lines up to the first one
that is not the encoding of a text. That one ends the run, and no counts are given.

* `Settlement`: a delivery, what became of it, and the states around it.
* `Worker.settle`: the settlements of some deliveries.
* `settle_filter`: a delivery that names no job makes no difference to the others.
* `run_settles`: **a run settles every line before the first one that is no text.**
-/

namespace CToGo.Job

open Files (FileTree)

variable {σ ρ ε : Type}

/-! ## Lines -/

/-- Whether some bytes are the encoding of a text. -/
def isText (bytes : ByteArray) : Bool := (String.fromUTF8? bytes).isSome

/-- The texts of the lines before the first one that is not the encoding of a text. -/
def leadingTexts (lines : List ByteArray) : List String :=
  (lines.takeWhile isText).filterMap String.fromUTF8?

theorem leadingTexts_cons_of_none {line : ByteArray} (h : String.fromUTF8? line = none)
    (lines : List ByteArray) : leadingTexts (line :: lines) = [] := by
  rw [leadingTexts, List.takeWhile_cons_of_neg (by simp [isText, h]), List.filterMap_nil]

theorem leadingTexts_cons_of_some {line : ByteArray} {text : String}
    (h : String.fromUTF8? line = some text) (lines : List ByteArray) :
    leadingTexts (line :: lines) = text :: leadingTexts lines := by
  rw [leadingTexts, List.takeWhile_cons_of_pos (by simp [isText, h]),
    List.filterMap_cons_some h, leadingTexts]

/-- Whether a delivery is the message of a job. -/
def namesJob (body : String) : Bool := (Delivery.decode body).isOk

/-! ## Settlements -/

/-- A delivery, what became of it, and the states before and after that. -/
structure Settlement (σ ρ : Type) where
  body : String
  before : Worker.State σ ρ
  outcome : Outcome
  after : Worker.State σ ρ

/-- What becomes of deliveries, one after the other. -/
def Worker.settle (w : Worker σ ρ ε) : List String → Worker.State σ ρ → List (Settlement σ ρ)
  | [], _ => []
  | body :: bodies, s =>
    let result := w.deliver body s
    ⟨body, s, result.1, result.2⟩ :: w.settle bodies result.2

/-- The state that settlements lead to. -/
def reached (s : Worker.State σ ρ) (settled : List (Settlement σ ρ)) : Worker.State σ ρ :=
  settled.foldl (fun _ x => x.after) s

/-- How many deliveries were accepted and refused. -/
def summaryOf (settled : List (Settlement σ ρ)) : Summary where
  acked := (settled.map (·.outcome)).count .ack
  nacked := (settled.map (·.outcome)).count .nack

section

variable (w : Worker σ ρ ε)

theorem map_body_settle (bodies : List String) (s : Worker.State σ ρ) :
    (w.settle bodies s).map (·.body) = bodies := by
  induction bodies generalizing s with
  | nil => rfl
  | cons body bodies ih => exact congrArg (body :: ·) (ih _)

theorem deliver_of_not_namesJob {body : String} (h : ¬ namesJob body) (s : Worker.State σ ρ) :
    w.deliver body s = (.nack, s) := by
  cases hBody : Delivery.decode body with
  | error e => rw [Worker.deliver, hBody]
  | ok d => simp [namesJob, hBody, Except.isOk, Except.toBool] at h

/-- A delivery that names no job is refused and changes nothing. -/
theorem refused_of_mem_settle {bodies : List String} {s : Worker.State σ ρ} {x : Settlement σ ρ}
    (hx : x ∈ w.settle bodies s) (h : ¬ namesJob x.body) :
    x.outcome = .nack ∧ x.after = x.before := by
  induction bodies generalizing s with
  | nil => cases hx
  | cons body bodies ih =>
    rcases List.mem_cons.mp hx with hFirst | hMore
    · have hDeliver := deliver_of_not_namesJob w (congrArg Settlement.body hFirst ▸ h) s
      rw [hFirst]
      exact ⟨congrArg Prod.fst hDeliver, congrArg Prod.snd hDeliver⟩
    · exact ih hMore

/-- Without the deliveries that name no job, all others are settled in the same way, and they lead
to the same state. -/
theorem settle_filter (bodies : List String) (s : Worker.State σ ρ) :
    (w.settle bodies s).filter (namesJob ·.body) = w.settle (bodies.filter namesJob) s ∧
      reached s (w.settle bodies s) = reached s (w.settle (bodies.filter namesJob) s) := by
  induction bodies generalizing s with
  | nil => exact ⟨rfl, rfl⟩
  | cons body bodies ih =>
    by_cases hJob : namesJob body
    · obtain ⟨hOthers, hState⟩ := ih (w.deliver body s).2
      rw [List.filter_cons_of_pos hJob, Worker.settle, Worker.settle]
      refine ⟨?_, hState⟩
      rw [List.filter_cons_of_pos (by exact hJob), hOthers]
    · -- The next delivery is settled in the state in which this one was.
      obtain ⟨hOthers, hState⟩ := ih s
      rw [List.filter_cons_of_neg hJob, Worker.settle, deliver_of_not_namesJob w hJob s]
      refine ⟨?_, hState⟩
      rw [List.filter_cons_of_neg (by exact hJob), hOthers]

/-! ## Runs -/

theorem runLines_settles (lines : List ByteArray) (summary : Summary) (s : Worker.State σ ρ) :
    w.runLines summary s lines =
      (if lines.all isText then
        .ok (((w.settle (withoutBlank (leadingTexts lines)) s).map (·.outcome)).foldl
          Summary.record summary)
      else .error .notText, reached s (w.settle (withoutBlank (leadingTexts lines)) s)) := by
  induction lines generalizing summary s with
  | nil => rfl
  | cons line lines ih =>
    cases hText : String.fromUTF8? line with
    | none =>
      have hAll : (line :: lines).all isText = false := by simp [isText, hText]
      rw [leadingTexts_cons_of_none hText, hAll, Worker.runLines, hText]
      rfl
    | some body =>
      have hAll : (line :: lines).all isText = lines.all isText := by simp [isText, hText]
      rw [leadingTexts_cons_of_some hText, hAll, Worker.runLines, hText]
      by_cases hBlank : isBlankText body
      · have hSkip : withoutBlank (body :: leadingTexts lines) =
            withoutBlank (leadingTexts lines) := List.filter_cons_of_neg (by simp [hBlank])
        simp only [hBlank, if_true, hSkip, ih]
      · have hTake : withoutBlank (body :: leadingTexts lines) =
            body :: withoutBlank (leadingTexts lines) := List.filter_cons_of_pos (by simp [hBlank])
        simp only [hBlank, hTake, ih]
        rfl

end

/-- **Settled lines.** A run settles one after the other the lines of the stream that are not
blank, up to the first one that is not the encoding of a text. Each of them is counted once; one
that names no job is refused without a status message and without a change to the store; and the
others are settled, from the state before to the state after each, as if those that name no job
were absent. The counts are returned exactly if there is no line that is not the encoding of a
text. Such a line is not settled, it ends the run with an error, and what stands behind it is not
read. -/
theorem run_settles (w : Worker σ ρ ε) (stream : ByteArray) (s : Worker.State σ ρ) :
    let lines := linesOf stream
    let bodies := withoutBlank (leadingTexts lines)
    let settled := w.settle bodies s
    w.run stream s = (if lines.all isText then .ok (summaryOf settled) else .error .notText,
      reached s settled) ∧
    settled.map (·.body) = bodies ∧
    (summaryOf settled).acked + (summaryOf settled).nacked = bodies.length ∧
    (∀ x ∈ settled, ¬ namesJob x.body → x.outcome = .nack ∧ x.after = x.before) ∧
    settled.filter (namesJob ·.body) = w.settle (bodies.filter namesJob) s ∧
    reached s settled = reached s (w.settle (bodies.filter namesJob) s) := by
  intro lines bodies settled
  obtain ⟨hOthers, hState⟩ := settle_filter w bodies s
  have hBodies : settled.map (·.body) = bodies := map_body_settle w bodies s
  refine ⟨?_, hBodies, ?_, fun x hx => refused_of_mem_settle w hx, hOthers, hState⟩
  · rw [Worker.run, runLines_settles, foldl_record]
    simp only [Nat.zero_add]
    rfl
  · have hCounts := count_ack_add_count_nack (settled.map (·.outcome))
    rw [List.length_map] at hCounts
    rw [← hBodies, List.length_map]
    exact hCounts

/-- A line that is no message of a job, in front of one that is. -/
theorem run_settles_malformed :
    let w : Worker FileTree String := ⟨{}, Directories.store ⟨"jobs", "remixed"⟩, .lines⟩
    let s : Worker.State FileTree String := ⟨clashing, ""⟩
    let bodies := withoutBlank (leadingTexts (linesOf "zz\n \n\x7b\"id\":\"j\"\x7d".toUTF8))
    bodies = ["zz", "\x7b\"id\":\"j\"\x7d"] ∧
      ∃ x ∈ w.settle bodies s, ¬ namesJob x.body ∧ x.outcome = .nack ∧ x.after = x.before := by
  intro w s bodies
  have hBodies : bodies = ["zz", "\x7b\"id\":\"j\"\x7d"] := by
    simp only [bodies, linesOf, toList_eq_data_toList]
    rfl
  have hFirst : ⟨"zz", s, (w.deliver "zz" s).1, (w.deliver "zz" s).2⟩ ∈ w.settle bodies s := by
    rw [hBodies]
    exact List.mem_cons_self
  have hMalformed : ¬ namesJob "zz" := by decide +kernel
  obtain ⟨-, -, -, hRefused, -⟩ := run_settles w "zz\n \n\x7b\"id\":\"j\"\x7d".toUTF8 s
  exact ⟨hBodies, _, hFirst, hMalformed, hRefused _ hFirst hMalformed⟩

/-- Behind a line that is not the encoding of a text, a job that would be accepted is not even
begun, and nothing is counted. -/
theorem run_stops_before_job :
    let w : Worker FileTree String := ⟨{}, Directories.store ⟨"jobs", "remixed"⟩, .lines⟩
    let body := "\x7b\"id\":\"j\"\x7d"
    let stream : ByteArray := ⟨#[0xff, 0x0a] ++ body.toUTF8.data ++ #[0x0a]⟩
    linesOf stream = [⟨#[0xff]⟩, body.toUTF8] ∧
      w.run stream ⟨clashing, ""⟩ = (.error .notText, ⟨clashing, ""⟩) ∧
      (w.deliver body ⟨clashing, ""⟩).1 = .ack := by
  intro w body stream
  have hLines : linesOf stream = [⟨#[0xff]⟩, body.toUTF8] := by
    simp only [linesOf, toList_eq_data_toList]
    rfl
  have hBytes : String.fromUTF8? ⟨#[0xff]⟩ = none := rfl
  have hBody : Delivery.decode body = .ok ⟨"j"⟩ := by decide +kernel
  refine ⟨hLines, ?_, ?_⟩
  · rw [Worker.run, hLines]
    simp only [Worker.runLines, hBytes]
  · simp only [Worker.deliver, hBody]
    exact process_clashing.1

end CToGo.Job
