/-!
# Paths

A path is a text whose components are separated by slashes. Paths are put together and
taken apart as texts; what they lead to is for a file tree to say.

* `maxNameBytes`, `maxPathBytes`: how long a component and a whole path may be.
* `join`: a path inside another one.
* `parent`: the path without its last component.
-/

namespace CToGo.Files

/-- The greatest number of bytes in a component. -/
def maxNameBytes : Nat := 255

/-- The greatest number of bytes in a path. -/
def maxPathBytes : Nat := 4095

/-- The components between the slashes, empty ones included. -/
def components (path : String) : List String :=
  (path.toList.splitOn '/').map String.ofList

/-- Whether the path starts at the root of all files. -/
def isAbsolute (path : String) : Bool := path.toList.head? == some '/'

def endsWithSlash (path : String) : Bool := path.toList.getLast? == some '/'

/-- The path `name` inside `base`. An absolute path stays as it is. -/
def join (base name : String) : String :=
  if isAbsolute name then name
  else if base.isEmpty ∨ endsWithSlash base then base ++ name
  else base ++ "/" ++ name

/-- The path without the slashes at its end. -/
def withoutSlash (path : String) : String :=
  String.ofList (path.toList.reverse.dropWhile (· == '/')).reverse

/-- Drops components at the end that lead nowhere, but not the first one. -/
def trimmed (components : List String) : List String :=
  match components with
  | [] => []
  | first :: rest => first :: (rest.reverse.dropWhile fun c => c = "" ∨ c = ".").reverse

/-- The path without its last component. -/
def parent (path : String) : String :=
  match trimmed (trimmed (components path)).dropLast with
  | [""] => if isAbsolute path then "/" else ""
  | rest => "/".intercalate rest

end CToGo.Files
