import CToGo.Files.Path

/-!
# File trees

A tree maps places to files and directories and has a working directory, from which paths
are followed unless they are absolute. The operations are those of a file system, and they
fail for the same reasons.

* `FileTree.locate`: the place that a path leads to.
* `read`, `write`, `makeDirs`: the operations.
* `filesUnder`: all files below a directory.
* `tooDeep?`: a directory below another one that no path can name from there.
-/

namespace CToGo

/-! ## Errors -/

/-- Why an operation on a file failed. -/
inductive FileError where
  | notFound
  | alreadyExists
  | notDirectory
  | isDirectory
  /-- A component of the path, or the whole of it, is too long. -/
  | nameTooLong
  /-- The path holds a character that no name can have. -/
  | nulInName
  /-- The contents are not the encoding of a text. -/
  | notText
deriving DecidableEq, Inhabited, Repr

def FileError.message : FileError → String
  | notFound => "No such file or directory (os error 2)"
  | alreadyExists => "File exists (os error 17)"
  | notDirectory => "Not a directory (os error 20)"
  | isDirectory => "Is a directory (os error 21)"
  | nameTooLong => "File name too long (os error 36)"
  | nulInName => "file name contained an unexpected NUL byte"
  | notText => "stream did not contain valid UTF-8"

namespace Files

/-! ## Trees -/

/-- What stands at a place. -/
inductive Entry where
  | file (contents : ByteArray)
  | directory
deriving Inhabited

/-- Entries are compared byte by byte. -/
instance : DecidableEq Entry
  | .file a, .file b =>
    if h : a.data = b.data then isTrue (congrArg Entry.file (ByteArray.ext h))
    else isFalse fun heq => h (by cases heq; rfl)
  | .directory, .directory => isTrue rfl
  | .file _, .directory => isFalse nofun
  | .directory, .file _ => isFalse nofun

/-- A place: the names on the way from the root of all files. -/
abbrev Place := List String

/-- Files and directories, and the directory in which one works. -/
structure FileTree where
  current : Place
  entries : List (Place × Entry)
deriving DecidableEq, Inhabited

namespace FileTree

/-- What stands at a place; the root is always there. -/
def lookup? (t : FileTree) (place : Place) : Option Entry :=
  if place = [] then some .directory else t.entries.lookup place

/-- The tree with the given entry at a place, whatever stood there before. -/
def insert (t : FileTree) (place : Place) (entry : Entry) : FileTree :=
  { t with entries := (place, entry) :: t.entries.filter (·.1 ≠ place) }

@[simp] theorem current_insert (t : FileTree) (place : Place) (entry : Entry) :
    (t.insert place entry).current = t.current := rfl

theorem lookup?_insert_self (t : FileTree) {place : Place} (entry : Entry) (h : place ≠ []) :
    (t.insert place entry).lookup? place = some entry := by
  simp [lookup?, insert, h]

theorem lookup?_insert_of_ne (t : FileTree) {place other : Place} (entry : Entry)
    (h : other ≠ place) : (t.insert place entry).lookup? other = t.lookup? other := by
  have lookup_filter (es : List (Place × Entry)) :
      (es.filter (·.1 ≠ place)).lookup other = es.lookup other := by
    induction es with
    | nil => rfl
    | cons e es ih => grind
  unfold lookup? insert
  split
  · rfl
  · rw [List.lookup_cons, beq_false_of_ne h, lookup_filter]

/-- A tree in which nothing stands but the directory in which one works. -/
def workingIn (place : Place) : FileTree :=
  ⟨place, (List.range place.length).map fun n => (place.take (n + 1), .directory)⟩

/-- Where a path begins. -/
def origin (t : FileTree) (path : String) : Place := if isAbsolute path then [] else t.current

/-- One component on from a place. -/
def descend (place : Place) (component : String) : Place :=
  if component = "" ∨ component = "." then place
  else if component = ".." then place.dropLast
  else place ++ [component]

/-- The place that a path names, whatever stands on the way there. -/
def placeOf (t : FileTree) (path : String) : Place :=
  (components path).foldl descend (t.origin path)

/-- Follows components from a place. Whatever is passed on the way must be a directory, and
in a directory nothing with too long a name is looked for. -/
def follow (t : FileTree) (place : Place) : List String → Except FileError Place
  | [] => .ok place
  | component :: rest =>
    match t.lookup? place with
    | none => .error .notFound
    | some (.file _) => .error .notDirectory
    | some .directory =>
      if maxNameBytes < component.utf8ByteSize then .error .nameTooLong
      else t.follow (descend place component) rest

/-- Why a text leads nowhere, whatever files there are. -/
def pathFault? (path : String) : Option FileError :=
  if path.toList.contains '\x00' then some .nulInName
  else if path.isEmpty then some .notFound
  else if maxPathBytes < path.utf8ByteSize then some .nameTooLong
  else none

/-- Follows components from where a path begins. -/
def followFrom (t : FileTree) (path : String) (names : List String) : Except FileError Place :=
  match pathFault? path with
  | some e => .error e
  | none => t.follow (t.origin path) names

/-- The place that a path leads to, where something may or may not stand. -/
def locate (t : FileTree) (path : String) : Except FileError Place :=
  t.followFrom path (components path)

/-- What a path leads to. -/
def find (t : FileTree) (path : String) : Except FileError Entry := do
  match t.lookup? (← t.locate path) with
  | some entry => return entry
  | none => .error .notFound

def isDirectory (t : FileTree) (path : String) : Bool :=
  match t.find path with
  | .ok .directory => true
  | _ => false

/-! ## Reading -/

def read (t : FileTree) (path : String) : Except FileError ByteArray := do
  match ← t.find path with
  | .file contents => return contents
  | .directory => .error .isDirectory

def readText (t : FileTree) (path : String) : Except FileError String := do
  match String.fromUTF8? (← t.read path) with
  | some text => return text
  | none => .error .notText

/-- The way from one place to another one below it. -/
def below? (root place : Place) : Option Place :=
  if root.isPrefixOf place ∧ root ≠ place then some (place.drop root.length) else none

/-- What stands below the directory that a path leads to, in increasing order of the paths
from there. -/
def entriesUnder (t : FileTree) (path : String) : List (String × Entry) :=
  match t.locate path with
  | .error _ => []
  | .ok root =>
    (t.entries.filterMap fun (place, entry) =>
      (below? root place).map fun way => ("/".intercalate way, entry)).mergeSort
        fun a b => decide (a.1 ≤ b.1)

/-- The files below the directory that a path leads to, in increasing order of their paths
from there. -/
def filesUnder (t : FileTree) (path : String) : List (String × ByteArray) :=
  (t.entriesUnder path).filterMap fun (way, entry) =>
    match entry with
    | .file contents => some (way, contents)
    | .directory => none

/-- The first directory below the one that a path leads to whose own path is too long. -/
def tooDeep? (t : FileTree) (path : String) : Option String :=
  let directories := (t.entriesUnder path).filter (·.2 = .directory)
  (directories.map fun (way, _) => join path way).find? fun directory =>
    decide (maxPathBytes < directory.utf8ByteSize)

/-! ## Writing -/

/-- A change of a file tree that may fail; a failure may leave directories behind. -/
abbrev Change := EStateM FileError FileTree

/-- Writes a file. The directory that it stands in must be there, and a path that ends with a
slash leads to no file, whatever its last component. -/
def write (path : String) (contents : ByteArray) : Change Unit := fun t =>
  let names := components (withoutSlash path)
  if endsWithSlash path then
    match t.followFrom path (names.dropLast ++ ["."]) with
    | .error e => .error e t
    | .ok _ => .error .isDirectory t
  else
    match t.followFrom path names with
    | .error e => .error e t
    | .ok place =>
      if t.lookup? place = some .directory then .error .isDirectory t
      else .ok () (t.insert place (.file contents))

/-- Makes the directory to which components lead; what it stands in must be there. -/
def makeDir (origin : Place) (names : List String) : Change Unit := fun t =>
  match t.follow origin names with
  | .error e => .error e t
  | .ok place =>
    match t.lookup? place with
    | some _ => .error .alreadyExists t
    | none => .ok () (t.insert place .directory)

/-- Whether components lead to a directory. -/
def leadsToDirectory (t : FileTree) (origin : Place) (names : List String) : Bool :=
  match t.follow origin names with
  | .ok place => t.lookup? place == some .directory
  | .error _ => false

/-- Makes the directory to which components lead, unless it is there. -/
def ensureDir (origin : Place) (names : List String) : Change Unit := fun t =>
  match makeDir origin names t with
  | .ok _ t' => .ok () t'
  | .error e _ => if t.leadsToDirectory origin names then .ok () t else .error e t

/-- Makes the directory to which components lead, unless it is there, and those that it
stands in. The components are given in reverse. -/
def makeDirsRev (origin : Place) : List String → Change Unit
  | [] => pure ()
  | name :: above => fun t =>
    let names := (name :: above).reverse
    match ensureDir origin names t with
    | .error .notFound _ =>
      match makeDirsRev origin above t with
      | .ok _ t' => ensureDir origin names t'
      | .error e t' => .error e t'
    | result => result

/-- Makes the directory that a path leads to, unless it is there, and those that it stands
in. The empty path asks for nothing. -/
def makeDirs (path : String) : Change Unit := fun t =>
  if path.isEmpty then .ok () t
  else
    match pathFault? path with
    | some e => .error e t
    | none =>
      makeDirsRev (t.origin path) ((components path).filter fun c => c ≠ "" ∧ c ≠ ".").reverse t

end FileTree

end Files

end CToGo
