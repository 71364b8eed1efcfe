import CToGo.Source.Cursor
import CToGo.Source.Token

/-!
# From characters to tokens

* `Cursor.nextToken`: the longest token after blanks and comments.
* `Cursor.tokens`: all tokens up to the end of the file, or the first fault.
* `Scanner`: a text that is handed out token by token. It can be restarted, and it remembers
  that it has handed out its last token.
-/

namespace CToGo.Source

/-! ## Tokens -/

/-- The largest value of an integer literal: one less than `2 ^ 63`. -/
def maxLiteral : Nat := 0x7FFFFFFFFFFFFFFF

/-- The number written with the given decimal digits. -/
def decimalValue (digits : List Char) : Nat :=
  digits.foldl (fun n d => 10 * n + (d.toNat - '0'.toNat)) 0

namespace Cursor

/-- Reads a word: a keyword or an identifier. -/
def word : Scan TokenKind := fun c =>
  let letters := c.rest.takeWhile isWordRest
  .ok (.ofWord (String.ofList letters)) (c.skip letters.length)

/-- Reads the digits of an integer literal. No letter, digit or underscore may follow them,
there must be at least one, and their value must not exceed `maxLiteral`. -/
def integer : Scan TokenKind := fun c =>
  let digits := c.rest.takeWhile Char.isDigit
  let d := c.skip digits.length
  match d.rest.head?.filter isWordRest with
  | some ch => .error ⟨.runOn ch (String.ofList digits), d.location⟩ d
  | none =>
    if digits.isEmpty || decide (maxLiteral < decimalValue digits) then
      .error ⟨.outOfRange (String.ofList digits), c.location⟩ d
    else .ok (.literal (decimalValue digits)) d

/-- Reads the token at the cursor, which stands before the character `ch`. -/
def lexeme (ch : Char) : Scan TokenKind := fun c =>
  if isWordStart ch then c.word
  else if ch.isDigit then c.integer
  else
    match Symbol.read? c.rest with
    | some s => .ok (.symbol s) (c.skip s.width)
    | none => .error ⟨.strayCharacter ch, c.location⟩ c

/-- Skips blanks and comments and reads the token after them. -/
def nextToken : Scan Token := fun c =>
  match c.skipGap with
  | .error e d => .error e d
  | .ok _ d =>
    match d.rest with
    | [] => .ok ⟨.endOfFile, .point d.location⟩ d
    | ch :: _ =>
      match lexeme ch d with
      | .error e f => .error e f
      | .ok kind f => .ok ⟨kind, ⟨d.location, f.location⟩⟩ f

theorem length_rest_of_lexeme {ch : Char} {c d : Cursor} {kind : TokenKind}
    (hc : c.rest.head? = some ch) (h : lexeme ch c = .ok kind d) :
    d.rest.length < c.rest.length := by
  obtain ⟨rest, hrest⟩ := List.head?_eq_some_iff.mp hc
  have hne : c.rest ≠ [] := by simp [hrest]
  unfold lexeme at h
  split at h
  · next hw =>
    have hr : isWordRest ch = true := by
      simp only [isWordStart, isWordRest, Char.isAlphanum] at hw ⊢
      grind
    cases h
    exact length_rest_skip_lt (by simp [hrest, hr]) hne
  · split at h
    · next hd =>
      simp only [integer] at h
      split at h
      · cases h
      · split at h
        · cases h
        · cases h
          exact length_rest_skip_lt (by simp [hrest, hd]) hne
    · split at h
      · cases h
        exact length_rest_skip_lt (Symbol.width_pos _) hne
      · cases h

/-- Every token but the end of the file consumes a character. -/
theorem length_rest_of_nextToken {c d : Cursor} {t : Token} (h : c.nextToken = .ok t d)
    (ht : t.kind ≠ .endOfFile) : d.rest.length < c.rest.length := by
  unfold nextToken at h
  split at h
  · cases h
  · next e hgap =>
    have hle := length_rest_of_skipGap hgap
    split at h
    · cases h
      exact absurd rfl ht
    · next hrest =>
      split at h
      · cases h
      · next hlex =>
        cases h
        exact Nat.lt_of_lt_of_le (length_rest_of_lexeme (by simp [hrest]) hlex) hle

/-- All tokens from the cursor to the end of the file, which is the last of them. -/
def tokens (c : Cursor) : EStateM.Result LexicalError Cursor (List Token) :=
  match h : c.nextToken with
  | .error e d => .error e d
  | .ok t d =>
    if ht : t.kind = .endOfFile then .ok [t] d
    else
      have := length_rest_of_nextToken h ht
      match d.tokens with
      | .error e f => .error e f
      | .ok ts f => .ok (t :: ts) f
termination_by c.rest.length

end Cursor

/-- The tokens of a source text, whose messages name `file`. -/
def tokenize (file : String) (source : String) : Except LexicalError (List Token) :=
  match (Cursor.start file source.toList).tokens with
  | .ok ts _ => .ok ts
  | .error e _ => .error e

/-! ## Scanners -/

/-- A text that is handed out token by token. -/
structure Scanner where
  /-- The whole text. -/
  text : List Char
  /-- How far the text has been read. -/
  cursor : Cursor
  /-- Whether the end of the file or a fault has been handed out. -/
  ended : Bool
deriving DecidableEq, Inhabited, Repr

namespace Scanner

/-- A scanner at the beginning of a source text. -/
def ofSource (file : String) (source : String) : Scanner :=
  ⟨source.toList, .start file source.toList, false⟩

/-- Back to the beginning of the text. -/
def reset (s : Scanner) : Scanner :=
  ⟨s.text, .start s.cursor.location.file s.text, false⟩

/-- Runs a scanning function where the scanner stands; whether it has ended stays as it is. -/
def run {α : Type} (s : Scanner) (scan : Scan α) : Except LexicalError α × Scanner :=
  match scan s.cursor with
  | .ok a c => (.ok a, { s with cursor := c })
  | .error e c => (.error e, { s with cursor := c })

/-- Hands out the next token or fault; after the end of the file or a fault there is none. -/
def next? (s : Scanner) : Option (Except LexicalError Token) × Scanner :=
  if s.ended then (none, s)
  else
    match s.run Cursor.nextToken with
    | (.ok t, s') => (some (.ok t), { s' with ended := t.kind == .endOfFile })
    | (.error e, s') => (some (.error e), { s' with ended := true })

/-- Hands out all remaining tokens, or the first fault among them. -/
def tokenize (s : Scanner) : Except LexicalError (List Token) × Scanner :=
  if s.ended then (.ok [], s)
  else
    let (result, s') := s.run Cursor.tokens
    (result, { s' with ended := true })

end Scanner

end CToGo.Source
