import CToGo.Compile
import CToGo.Job.Config
import CToGo.Job.Message
import CToGo.Job.Store
import CToGo.Source.Blank

/-!
# The worker

A worker takes deliveries, one per line, and processes the jobs that they name. Of a job all
sources are compiled before any result is written. Progress is reported as it is made; a
report that gets lost has no consequences.

* `results`: what a job yields, before anything is written.
* `process`: one job, with its status messages.
* `run`: a stream of deliveries.
-/

namespace CToGo.Job

/-! ## Reporters -/

/-- Something that status messages are told to, whose state is of type `ρ`. A report may
fail. -/
structure Reporter (ρ : Type) where
  report : Status → EStateM Unit ρ Unit

namespace Reporter

/-- Writes each message as a line. -/
def lines : Reporter String := ⟨fun s => modify (· ++ s.line)⟩

/-- Fails whatever it is told. -/
def broken : Reporter String := ⟨fun _ => throw ()⟩

end Reporter

/-! ## Jobs -/

/-- Why a job fails, where `ε` are the causes for which its store fails. -/
inductive JobError (ε : Type) where
  | store (cause : ε)
  /-- A source is not the encoding of a text. -/
  | notText (artifact : String)
  | source (cause : Diagnostic)
deriving DecidableEq, Inhabited, Repr

/-- What is told of a failed job, given what is told of its store. -/
def JobError.message {ε : Type} (storeMessage : ε → String) : JobError ε → String
  | store cause => storeMessage cause
  | notText artifact => artifact ++ ": source is not valid UTF-8"
  | source cause => cause.message

/-- A named result or artifact. -/
structure Artifact where
  name : String
  contents : ByteArray
deriving Inhabited

/-- The result of a source. -/
def compileArtifact {ε : Type} (config : Config) (a : Artifact) :
    Except (JobError ε) Artifact :=
  match String.fromUTF8? a.contents with
  | none => .error (.notText a.name)
  | some source =>
    match compile Rule.standard a.name source with
    | .error d => .error (.source d)
    | .ok output => .ok ⟨config.targetName a.name, output.toUTF8⟩

section

variable {σ ε : Type}

/-- An artifact of a job. -/
def artifact (store : Store σ ε) (job name : String) : EStateM ε σ Artifact :=
  return ⟨name, ← store.fetch job name⟩

/-- All artifacts of a job. -/
def artifacts (store : Store σ ε) (job : String) : EStateM ε σ (List Artifact) := do
  let names ← store.enumerate job
  names.mapM (artifact store job)

/-- What a job yields: first the artifacts that are no sources, as they are, and then the
targets of the sources. -/
def results (config : Config) (store : Store σ ε) (job : String) :
    EStateM (JobError ε) σ (List Artifact) := do
  let all ← EStateM.adaptExcept .store (artifacts store job)
  let (sources, others) := all.partition fun a => config.isSource a.name
  match sources.mapM (compileArtifact config) with
  | .ok targets => return others ++ targets
  | .error e => throw e

/-- Writes a result of a job. -/
def write (store : Store σ ε) (job : String) (a : Artifact) : EStateM ε σ Unit :=
  store.put job a.name a.contents

/-- Compiles a job and writes its results. -/
def perform (config : Config) (store : Store σ ε) (job : String) :
    EStateM (JobError ε) σ Unit := do
  let outputs ← results config store job
  EStateM.adaptExcept .store (outputs.forM (write store job))

end

/-! ## The worker -/

/-- What becomes of a delivery. -/
inductive Outcome where
  | ack | nack
deriving DecidableEq, Inhabited, Repr

/-- What a worker works with. -/
structure Worker (σ ρ : Type) (ε : Type := StoreError) where
  config : Config
  store : Store σ ε
  reporter : Reporter ρ

namespace Worker

variable {σ ρ ε : Type}

/-- What a worker changes: the state of its store and of its reporter. -/
structure State (σ ρ : Type) where
  store : σ
  reporter : ρ

/-- Tells a status message; whether it got through makes no difference. -/
def publish (w : Worker σ ρ ε) (message : Status) (s : State σ ρ) : State σ ρ :=
  match w.reporter.report message s.reporter with
  | .ok _ reporter => { s with reporter }
  | .error _ reporter => { s with reporter }

def process (w : Worker σ ρ ε) (job : String) (s : State σ ρ) : Outcome × State σ ρ :=
  let s := w.publish { id := job, progress := .processing } s
  match perform w.config w.store job s.store with
  | .ok _ store => (.ack, w.publish { id := job, progress := .done } { s with store })
  | .error e store =>
    let reason := e.message w.store.message
    (.nack, w.publish { id := job, progress := .failed, reason } { s with store })

/-- Processes the job that a delivery names; nothing is told of one that names none. -/
def deliver (w : Worker σ ρ ε) (body : String) (s : State σ ρ) : Outcome × State σ ρ :=
  match Delivery.decode body with
  | .ok d => w.process d.id s
  | .error _ => (.nack, s)

end Worker

/-! ## Streams of deliveries -/

/-- How many deliveries were accepted and refused. -/
structure Summary where
  acked : Nat := 0
  nacked : Nat := 0
deriving DecidableEq, Inhabited, Repr

/-- The summary with one more delivery. -/
def Summary.record (s : Summary) : Outcome → Summary
  | .ack => { s with acked := s.acked + 1 }
  | .nack => { s with nacked := s.nacked + 1 }

/-- A line without the carriage return at its end. -/
def withoutReturn (line : List UInt8) : List UInt8 :=
  if line.getLast? = some 13 then line.dropLast else line

/-- The lines of a stream. What follows the last line feed is a line unless it is empty, and
a carriage return before a line feed is part of neither line. -/
def linesOf (stream : ByteArray) : List ByteArray :=
  let pieces := stream.toList.splitOn 10
  let last := (pieces.getLast?.filter (· ≠ [])).toList
  (pieces.dropLast.map withoutReturn ++ last).map fun bytes => ⟨bytes.toArray⟩

/-- Whether there is nothing to be seen in a text. -/
def isBlankText (text : String) : Bool := text.toList.all Source.isBlank

namespace Worker

variable {σ ρ ε : Type}

/-- Takes the deliveries on some lines. A line that is not the encoding of a text ends the
run. -/
def runLines (w : Worker σ ρ ε) (summary : Summary) (s : State σ ρ) :
    List ByteArray → Except FileError Summary × State σ ρ
  | [] => (.ok summary, s)
  | line :: rest =>
    match String.fromUTF8? line with
    | none => (.error .notText, s)
    | some body =>
      if isBlankText body then w.runLines summary s rest
      else
        let (outcome, s) := w.deliver body s
        w.runLines (summary.record outcome) s rest

/-- Takes the deliveries of a stream. -/
def run (w : Worker σ ρ ε) (stream : ByteArray) (s : State σ ρ) :
    Except FileError Summary × State σ ρ :=
  w.runLines {} s (linesOf stream)

end Worker

end CToGo.Job
