/-!
# Locations and spans of source text

A location names a file and counts lines and columns from one and characters from zero;
only a line feed starts a new line. A span is a pair of locations. Both have the short
display form that every message uses.

* `Location.text`: `file:line:column`.
* `Span.text`: the end is left out when it is the start, and its line when it is the start's.
* `Span.length`: the number of characters covered.
-/

namespace CToGo.Source

/-- A place between two characters of a source file. -/
structure Location where
  /-- The name by which messages call the file. -/
  file : String
  /-- The line, counted from one. -/
  line : Nat
  /-- The column, counted from one in characters. -/
  column : Nat
  /-- The number of characters before the place. -/
  offset : Nat
deriving DecidableEq, Inhabited, Repr

namespace Location

/-- The location of something that stands in no file. -/
def unknown : Location := ⟨"<unknown>", 0, 0, 0⟩

/-- The beginning of a file. -/
def start (file : String) : Location := ⟨file, 1, 1, 0⟩

/-- The location after the character `c`. -/
def after (l : Location) (c : Char) : Location :=
  if c = '\n' then ⟨l.file, l.line + 1, 1, l.offset + 1⟩
  else ⟨l.file, l.line, l.column + 1, l.offset + 1⟩

/-- The display form `file:line:column`. -/
def text (l : Location) : String :=
  l.file ++ ":" ++ toString l.line ++ ":" ++ toString l.column

@[simp] theorem file_after (l : Location) (c : Char) : (l.after c).file = l.file := by
  unfold after
  split <;> rfl

@[simp] theorem offset_after (l : Location) (c : Char) :
    (l.after c).offset = l.offset + 1 := by
  unfold after
  split <;> rfl

end Location

/-- The stretch of text from `start` up to `stop`. -/
structure Span where
  /-- Where the stretch begins. -/
  start : Location
  /-- Where the stretch ends; the character there is no longer part of it. -/
  stop : Location
deriving DecidableEq, Inhabited, Repr

namespace Span

/-- The span that covers nothing, at `l`. -/
def point (l : Location) : Span := ⟨l, l⟩

/-- The number of characters covered; a span that runs backwards covers none. -/
def length (s : Span) : Nat := s.stop.offset - s.start.offset

def isEmpty (s : Span) : Bool := s.length == 0

/-- The display form: `file:line:column`, then what of the end differs from the start. -/
def text (s : Span) : String :=
  if s.start.line = s.stop.line then
    if s.start.column = s.stop.column then s.start.text
    else s.start.text ++ "-" ++ toString s.stop.column
  else s.start.text ++ "-" ++ toString s.stop.line ++ ":" ++ toString s.stop.column

end Span

end CToGo.Source
