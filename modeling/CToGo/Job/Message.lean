import CToGo.Json.Record

/-!
# Messages

A worker is told of jobs by deliveries and tells of their progress by status messages. Both
are JSON texts.

* `Delivery.decode`: the job that a delivery names.
* `Status.line`, `Status.read?`: the text of a status message, and back.
-/

namespace CToGo.Job

/-! ## Deliveries -/

/-- The name of a job. -/
structure Delivery where
  id : String
deriving DecidableEq, Inhabited, Repr

/-- Why a delivery is refused. -/
inductive DeliveryError where
  /-- It is not the text of a delivery. -/
  | malformed
  /-- It names something that cannot be the name of a directory. -/
  | invalidId (id : String)
deriving DecidableEq, Inhabited, Repr

def DeliveryError.message : DeliveryError → String
  | malformed => "malformed job delivery"
  | invalidId id => "invalid job id '" ++ id ++ "'"

/-- Whether a job may have this name: it must be a single proper component of a path. -/
def isValidId (id : String) : Bool :=
  id != "" && id != "." && id != ".." && !id.toList.any fun c => c == '/' || c == '\\'

namespace Delivery

/-- The delivery that a text stands for, whatever it names. -/
def read? (body : String) : Option Delivery := do
  let fields ← (← Json.read? body).record? ["id"]
  return ⟨← Json.required? fields "id"⟩

/-- The delivery that a text stands for. -/
def decode (body : String) : Except DeliveryError Delivery :=
  match read? body with
  | none => .error .malformed
  | some d => if isValidId d.id then .ok d else .error (.invalidId d.id)

def text (d : Delivery) : String := (Json.Value.object [("id", .ofString d.id)]).text

end Delivery

/-! ## Status messages -/

/-- How far a job has come. -/
inductive Progress where
  | pending | processing | done | failed
deriving DecidableEq, Inhabited, Repr

namespace Progress

def name : Progress → String
  | pending => "pending"
  | processing => "processing"
  | done => "done"
  | failed => "failed"

def all : List Progress := [pending, processing, done, failed]

def ofName? (name : String) : Option Progress := all.find? (·.name == name)

/-- The stage that a value stands for: its name, or an object with an empty field of that
name. -/
def ofValue? : Json.Value → Option Progress
  | .string literal => do ofName? (← Json.unescape? literal)
  | .object [(name, .null)] => do ofName? (← Json.unescape? name)
  | _ => none

end Progress

/-- What is told of a job. -/
structure Status where
  id : String
  progress : Progress
  /-- Why the job failed. -/
  reason : String := ""
deriving DecidableEq, Inhabited, Repr

namespace Status

/-- The status message that a text stands for. -/
def read? (body : String) : Option Status := do
  let fields ← (← Json.read? body).record? ["id", "status", "reason"]
  return {
    id := ← Json.required? fields "id"
    progress := ← Progress.ofValue? (← fields.lookup "status")
    reason := ← Json.textOr? fields "reason" "" }

def toValue (s : Status) : Json.Value :=
  .object [("id", .ofString s.id), ("status", .ofString s.progress.name),
    ("reason", .ofString s.reason)]

/-- A status message as one line. -/
def line (s : Status) : String := s.toValue.text ++ "\n"

end Status

end CToGo.Job
