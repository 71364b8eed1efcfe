import CToGo.Diagnostic
import CToGo.Source.Blank

/-!
# Cursors

A cursor is a place in a text together with the characters that follow it. The functions
that read from it move it forward; when one fails, the cursor stays where the failure was
noticed.

* `LexicalFault`: why characters form no token.
* `Cursor.skipGap`: moves over blanks and comments.
-/

namespace CToGo.Source

/-! ## Faults -/

/-- Why characters form no token. -/
inductive LexicalFault where
  /-- A block comment is not closed. -/
  | unclosedComment
  /-- No token begins with the character. -/
  | strayCharacter (c : Char)
  /-- The digits of a literal run into the letter, digit or underscore `c`. -/
  | runOn (c : Char) (digits : String)
  /-- The digits are no number below `2 ^ 63`. -/
  | outOfRange (digits : String)
deriving DecidableEq, Inhabited, Repr

def LexicalFault.message : LexicalFault → String
  | unclosedComment => "Unterminated block comment"
  | strayCharacter c => "Unexpected character: " ++ c.toString
  | runOn c digits =>
    "Invalid integer literal: unexpected '" ++ c.toString ++ "' after " ++ digits
  | outOfRange digits => "Integer literal out of range: " ++ digits

/-- A fault and where it was noticed. -/
structure LexicalError where
  fault : LexicalFault
  location : Location
deriving DecidableEq, Inhabited, Repr

/-- What the user is told of a lexical error. -/
def LexicalError.toDiagnostic (e : LexicalError) : Diagnostic :=
  .lexical e.fault.message e.location

/-! ## Cursors -/

/-- A location in a text and the characters that follow it. -/
structure Cursor where
  location : Location
  rest : List Char
deriving DecidableEq, Inhabited, Repr

namespace Cursor

/-- The beginning of the text of a file. -/
def start (file : String) (text : List Char) : Cursor := ⟨.start file, text⟩

/-- One character on; at the end of the text nothing moves. -/
def next (c : Cursor) : Cursor :=
  match c.rest with
  | [] => c
  | ch :: rest => ⟨c.location.after ch, rest⟩

/-- Moves on by `n` characters, or to the end of the text. -/
def skip : Nat → Cursor → Cursor
  | 0, c => c
  | n + 1, c => skip n c.next

@[simp] theorem rest_next (c : Cursor) : c.next.rest = c.rest.tail := by
  unfold next
  split <;> simp_all

@[simp] theorem rest_skip (n : Nat) (c : Cursor) : (c.skip n).rest = c.rest.drop n := by
  induction n generalizing c with
  | zero => rfl
  | succ n ih => simp [skip, ih]

theorem length_rest_skip_lt {n : Nat} {c : Cursor} (hn : 0 < n) (hc : c.rest ≠ []) :
    (c.skip n).rest.length < c.rest.length := by
  have := List.length_pos_iff.mpr hc
  simp only [rest_skip, List.length_drop]
  omega

end Cursor

/-- A computation that moves a cursor and may fail. -/
abbrev Scan := EStateM LexicalError Cursor

/-! ## What stands between tokens -/

/-- What a text begins with, as far as it is to be skipped. -/
inductive Gap where
  /-- Nothing to skip. -/
  | absent
  /-- A blank or a comment of `width` characters. -/
  | piece (width : Nat)
  /-- A block comment that never ends. -/
  | unclosed
deriving DecidableEq, Inhabited, Repr

/-- The number of characters up to and including the first `*/`. -/
def closing? : List Char → Option Nat
  | [] => none
  | '*' :: '/' :: _ => some 2
  | _ :: rest => (closing? rest).map (· + 1)

/-- The number of characters before the end of the line. -/
def lineWidth (text : List Char) : Nat := (text.takeWhile (· != '\n')).length

namespace Gap

/-- The blank or comment at the beginning of a text. -/
def read : List Char → Gap
  | '/' :: '/' :: rest => piece (lineWidth rest + 2)
  | '/' :: '*' :: rest =>
    match closing? rest with
    | some n => piece (n + 2)
    | none => unclosed
  | c :: _ => if isBlank c then piece 1 else absent
  | [] => absent

theorem width_pos_of_read {text : List Char} {n : Nat} (h : read text = piece n) :
    0 < n ∧ text ≠ [] := by
  unfold read at h
  split at h
  · cases h
    simp
  · split at h
    · cases h
      simp
    · cases h
  · split at h
    · cases h
      simp
    · cases h
  · cases h

end Gap

namespace Cursor

/-- Skips two characters, whatever they are, and the rest of the line. -/
def skipLineComment : Scan Unit :=
  modify fun c => c.skip (lineWidth (c.rest.drop 2) + 2)

/-- Skips two characters, whatever they are, and all up to the first `*/` after them.
Without one the whole text is consumed. -/
def skipBlockComment : Scan Unit := fun c =>
  match closing? (c.rest.drop 2) with
  | some n => .ok () (c.skip (n + 2))
  | none => .error ⟨.unclosedComment, c.location⟩ (c.skip c.rest.length)

/-- Skips blanks and comments. -/
def skipGap (c : Cursor) : EStateM.Result LexicalError Cursor Unit :=
  match h : Gap.read c.rest with
  | .absent => .ok () c
  | .piece n =>
    have := length_rest_skip_lt (Gap.width_pos_of_read h).1 (Gap.width_pos_of_read h).2
    skipGap (c.skip n)
  | .unclosed => .error ⟨.unclosedComment, c.location⟩ (c.skip c.rest.length)
termination_by c.rest.length
decreasing_by assumption

theorem length_rest_of_skipGap {c d : Cursor} {u : Unit} (h : c.skipGap = .ok u d) :
    d.rest.length ≤ c.rest.length := by
  fun_induction skipGap c with
  | case1 c _ =>
    cases h
    exact Nat.le_refl _
  | case2 c n _ shorter ih => exact Nat.le_trans (ih h) (Nat.le_of_lt shorter)
  | case3 => cases h

end Cursor

end CToGo.Source
