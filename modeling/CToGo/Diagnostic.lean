import CToGo.Source.Location

/-!
# Diagnostics

A run of the compiler stops at its first problem and says what it was. Each phase has
its own type of causes; a diagnostic is what the user gets to see of any of them.

* `Diagnostic.message`: the one line shown for a diagnostic.
* `Diagnostic.location?`: the place it speaks of; a file that cannot be read has none.
-/

namespace CToGo

open Source (Location)

/-- What is reported for a compilation that failed. -/
inductive Diagnostic where
  /-- The characters at `location` form no token. -/
  | lexical (reason : String) (location : Location)
  /-- The token at `location` has no place in the grammar. -/
  | grammar (expected found : String) (location : Location)
  /-- The construct at `location` has no counterpart in the target language. -/
  | lowering (construct reason : String) (location : Location)
  /-- A file could not be read. -/
  | file (reason : String)
deriving DecidableEq, Inhabited, Repr

namespace Diagnostic

/-- The name of the phase that gave up. -/
def phase : Diagnostic → String
  | lexical .. => "lex"
  | grammar .. => "parse"
  | lowering .. => "lowering"
  | file .. => "io"

/-- The place that the diagnostic speaks of. -/
def location? : Diagnostic → Option Location
  | lexical _ l => some l
  | grammar _ _ l => some l
  | lowering _ _ l => some l
  | file _ => none

/-- The line shown to the user. -/
def message : Diagnostic → String
  | lexical reason l => "Lexical error at " ++ l.text ++ ": " ++ reason
  | grammar expected found l =>
    "Parse error at " ++ l.text ++ ": expected " ++ expected ++ ", found " ++ found
  | lowering construct reason l =>
    "Lowering error at " ++ l.text ++ ": unsupported " ++ construct ++ ": " ++ reason
  | file reason => "IO error: " ++ reason

end Diagnostic

end CToGo
