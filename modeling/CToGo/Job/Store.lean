import CToGo.Files.Tree

/-!
# Stores of artifacts

A store lists and hands out the artifacts of jobs and takes in their results. The one that
is kept in directories has the artifacts of a job in the directory of its name; artifacts
are addressed by their paths from there.

* `Store`: what a worker asks of a store.
* `Directories.store`: the store in a file tree.
* `resolve`: the path of an artifact, which never leads out of the directory of its job.
-/

namespace CToGo.Job

open Files (FileTree)

/-- Why a store fails. -/
inductive StoreError where
  /-- The name of an artifact is no path below the directory of its job. -/
  | invalidPath (artifact : String)
  /-- There is no directory of the job. -/
  | noArtifacts (job root : String)
  /-- A directory below that of the job cannot be opened. -/
  | listing (root path : String) (cause : FileError)
  | reading (path : String) (cause : FileError)
  /-- The directory of an artifact cannot be made. -/
  | creating (path : String) (cause : FileError)
  | writing (path : String) (cause : FileError)
deriving DecidableEq, Inhabited, Repr

def StoreError.message : StoreError → String
  | invalidPath artifact => "invalid artifact path '" ++ artifact ++ "'"
  | noArtifacts job root => "no artifacts for job '" ++ job ++ "' in " ++ root
  | listing root path cause =>
    "listing " ++ root ++ ": IO error for operation on " ++ path ++ ": " ++ cause.message
      ++ ": " ++ cause.message
  | reading path cause => "reading " ++ path ++ ": " ++ cause.message
  | creating path cause => "creating " ++ path ++ ": " ++ cause.message
  | writing path cause => "writing " ++ path ++ ": " ++ cause.message

/-- A store of artifacts whose state is of type `σ` and that fails for causes of type `ε`.
Whatever is asked of it may change its state. -/
structure Store (σ : Type) (ε : Type := StoreError) where
  /-- What is told of a failure. -/
  message : ε → String
  /-- Enumerates the names of the artifacts of a job, in increasing order. -/
  enumerate (job : String) : EStateM ε σ (List String)
  /-- Fetches the contents of an artifact. -/
  fetch (job artifact : String) : EStateM ε σ ByteArray
  /-- Takes in a result. -/
  put (job artifact : String) (contents : ByteArray) : EStateM ε σ Unit

namespace Store

variable {σ ε : Type}

/-- What is answered to a request, without the state that it leads to. -/
def answer {α : Type} (request : EStateM ε σ α) (s : σ) : Except ε α :=
  match request s with
  | .ok a _ => .ok a
  | .error e _ => .error e

/-- The names of the artifacts of a job. -/
def list (store : Store σ ε) (job : String) : σ → Except ε (List String) :=
  answer (store.enumerate job)

/-- The contents of an artifact. -/
def get (store : Store σ ε) (job artifact : String) : σ → Except ε ByteArray :=
  answer (store.fetch job artifact)

end Store

/-- Whether the text can be a component of the name of an artifact. -/
def isPlainComponent (component : String) : Bool :=
  component != "" && component != "." && component != ".."

/-- The path of an artifact of a job. -/
def resolve (root job artifact : String) : Except StoreError String :=
  let names := Files.components artifact
  if names.all isPlainComponent then .ok (names.foldl Files.join (Files.join root job))
  else .error (.invalidPath artifact)

/-- The directories of a store. -/
structure Directories where
  /-- The directory from which artifacts are read. -/
  inputRoot : String
  /-- The directory to which results are written. -/
  outputRoot : String
deriving DecidableEq, Inhabited, Repr

namespace Directories

/-- The names of all files below the directory of a job. -/
def list (d : Directories) (job : String) (files : FileTree) :
    Except StoreError (List String) :=
  let directory := Files.join d.inputRoot job
  if files.isDirectory directory then
    match files.tooDeep? directory with
    | some path => .error (.listing directory path .nameTooLong)
    | none => .ok ((files.filesUnder directory).map (·.1))
  else .error (.noArtifacts job d.inputRoot)

def get (d : Directories) (job artifact : String) (files : FileTree) :
    Except StoreError ByteArray := do
  let path ← resolve d.inputRoot job artifact
  (files.read path).mapError (.reading path)

/-- Asks something of the files, which stay as they are. -/
def inquire {α : Type} (question : FileTree → Except StoreError α) :
    EStateM StoreError FileTree α := fun files =>
  match question files with
  | .ok a => .ok a files
  | .error e => .error e files

/-- Runs a change of the files and says what it was for if it fails. -/
def change {α : Type} (context : FileError → StoreError) (c : FileTree.Change α) :
    EStateM StoreError FileTree α := fun files =>
  match c files with
  | .ok a files' => .ok a files'
  | .error e files' => .error (context e) files'

/-- Writes a result, and makes the directories that it needs. -/
def put (d : Directories) (job artifact : String) (contents : ByteArray) :
    EStateM StoreError FileTree Unit := do
  match resolve d.outputRoot job artifact with
  | .error e => throw e
  | .ok path =>
    change (.creating (Files.parent path)) (FileTree.makeDirs (Files.parent path))
    change (.writing path) (FileTree.write path contents)

/-- The store in the given directories. -/
def store (d : Directories) : Store FileTree where
  message := StoreError.message
  enumerate job := inquire (d.list job)
  fetch job artifact := inquire (d.get job artifact)
  put := d.put

end Directories

end CToGo.Job
