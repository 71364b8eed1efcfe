import CToGo.CommandLine.Run

/-!
# The program

The outermost layer: it fetches the files that a request is about, runs the command line on
them, and carries out what has changed. Everything that is decided is decided by
`CommandLine.run`.
-/

namespace CToGo.Main

open CommandLine
open Files (FileTree Place)

/-- How the program is called. -/
def usage : String :=
  "Usage: remix [--log-level <LEVEL>] <COMMAND>

Commands:
  translate <INPUT> [-o|--output <FILE>] [--print-ast] [--print-tokens]
  worker [-c|--config <FILE>] [--jobs <FILE>]
  help [COMMAND]
"

/-! ## Fetching files -/

/-- Adds what stands at a path, but not what stands below it. -/
def fetch (t : FileTree) (path : String) : IO FileTree := do
  try
    let real ← IO.FS.realPath path
    if ← real.isDir then return t.insert (t.placeOf path) .directory
    else return t.insert (t.placeOf path) (.file (← IO.FS.readBinFile real))
  catch _ => return t

/-- Adds what stands at a path and on the way there. -/
def fetchWay (t : FileTree) (path : String) : IO FileTree := do
  let mut t := t
  let mut way := if Files.isAbsolute path then "/" else ""
  for component in Files.components path do
    way := Files.join way component
    unless way.isEmpty do t ← fetch t way
  return t

/-- Adds what stands at a path and below it. -/
partial def fetchBelow (t : FileTree) (path : String) : IO FileTree := do
  let mut t ← fetch t path
  if t.isDirectory path then
    for child in ← (← IO.FS.realPath path).readDir do
      t ← fetchBelow t (Files.join path child.fileName)
  return t

/-- The files that a command is about. -/
def fetchFor (command : Command) : IO FileTree := do
  let here := (← IO.currentDir).toString
  let t := FileTree.workingIn ((Files.components here).filter (· ≠ ""))
  match command with
  | .compile r => fetchWay (← fetchWay t r.input) (r.output.getD "")
  | .work r =>
    let t ← fetchWay (← fetchWay t (r.config.getD "")) (r.jobs.getD "")
    let config := match r.config.map (Job.Config.load t) with
      | some (.ok config) => config
      | _ => {}
    let t ← fetchWay (← fetchWay t config.inputRoot) config.outputRoot
    fetchBelow (← fetchBelow t config.inputRoot) config.outputRoot

/-! ## Carrying out changes -/

/-- The absolute path of a place. -/
def pathOf (place : Place) : String := "/" ++ "/".intercalate place

/-- Makes the directories and writes the files that were not there before. -/
def carryOut (before after : FileTree) : IO Unit := do
  let changed := after.entries.filter fun (place, entry) => before.lookup? place ≠ some entry
  for (place, entry) in changed do
    if entry = .directory then IO.FS.createDirAll (pathOf place)
  for (place, entry) in changed do
    if let .file contents := entry then IO.FS.writeBinFile (pathOf place) contents

/-! ## Standard streams -/

/-- Reads a stream to its end. -/
partial def readAll (stream : IO.FS.Stream) (read : ByteArray) : IO ByteArray := do
  let more ← stream.read 65536
  if more.isEmpty then return read else readAll stream (read ++ more)

/-- The standard input, as far as a command reads it. -/
def inputFor : Command → IO ByteArray
  | .work { jobs := none, .. } => do readAll (← IO.getStdin) .empty
  | _ => pure .empty

/-- Runs the program and gives its exit status. -/
def start (arguments : List String) : IO UInt32 := do
  match readArguments arguments with
  | .error .help =>
    IO.print usage
    return 0
  | .error .misuse =>
    IO.eprint usage
    return 2
  | .error .version =>
    IO.print versionLine
    return 0
  | .ok request =>
    let files ← fetchFor request.command
    let result := run arguments (← inputFor request.command) files
    carryOut files result.files
    IO.print result.output
    IO.eprint result.errors
    return result.status.toUInt32

end CToGo.Main

def main (arguments : List String) : IO UInt32 := CToGo.Main.start arguments
