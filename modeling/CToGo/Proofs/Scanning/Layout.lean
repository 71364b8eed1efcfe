import CToGo.Source.Blank
import CToGo.Source.Token
import Mathlib.Data.Nat.Digits.Defs

/-!
# The layout of source texts

A source text is laid out as gaps and lexemes in turn. A gap is as long as it can be, and so
is a lexeme. The rules speak of the text alone and not of a way to read it.

* `Piece`, `Run`, `IsGap`: what stands between lexemes.
* `Spells`, `IsLexeme`: words, literals and symbols.
* `Laid`: a text and its lexemes, each with the place where it begins.
* `Laid.covers`, `Laid.apart`: the places of the lexemes of a text.
-/

namespace CToGo.Source

/-! ## Gaps -/

/-- A blank or a comment, and what follows it. A line comment reaches to the end of its line, a
block comment to the first `*/` behind its opening. -/
inductive Piece : List Char → List Char → Prop where
  | blank {c : Char} (rest : List Char) : isBlank c → Piece [c] rest
  | line {body rest : List Char} :
    '\n' ∉ body → rest = [] ∨ rest.head? = some '\n' → Piece ('/' :: '/' :: body) rest
  | block {body : List Char} (rest : List Char) :
    ¬ ['*', '/'] <:+: body ++ ['*'] → Piece ('/' :: '*' :: (body ++ ['*', '/'])) rest

/-- Blanks and comments one after the other, and what follows them. -/
inductive Run : List Char → List Char → Prop where
  | nil (rest : List Char) : Run [] rest
  | cons {piece run rest : List Char} :
    Piece piece (run ++ rest) → Run run rest → Run (piece ++ run) rest

/-- A run of blanks and comments that what follows it cannot prolong. -/
structure IsGap (gap rest : List Char) : Prop where
  run : Run gap rest
  maximal : ∀ piece more, rest = piece ++ more → ¬ Piece piece more

/-! ## Lexemes -/

/-- The number that decimal digits write. -/
def numeral (digits : List Char) : Nat :=
  Nat.ofDigits 10 (digits.reverse.map fun d => d.toNat - '0'.toNat)

/-- A text and the token that it spells. -/
inductive Spells : List Char → TokenKind → Prop where
  | keyword (k : Keyword) : Spells k.text.toList (.keyword k)
  | identifier {c : Char} {cs : List Char} :
    isWordStart c → (∀ d ∈ cs, isWordRest d) → (∀ k : Keyword, k.text.toList ≠ c :: cs) →
    Spells (c :: cs) (.identifier (String.ofList (c :: cs)))
  | literal {digits : List Char} :
    digits ≠ [] → (∀ d ∈ digits, d.isDigit) → numeral digits ≤ 2 ^ 63 - 1 →
    Spells digits (.literal (numeral digits))
  | symbol (m : Symbol) : Spells m.text.toList (.symbol m)

/-- The longest text at its place that spells a token. Neither a word nor a digit continues a
literal, and no lexeme begins where a block comment does. -/
structure IsLexeme (text : List Char) (kind : TokenKind) (rest : List Char) : Prop where
  spells : Spells text kind
  longest : ∀ other kind', other <+: text ++ rest → Spells other kind' →
    other.length ≤ text.length
  apart : ∀ value, kind = .literal value → ∀ c, rest.head? = some c → ¬ isWordRest c
  noComment : ¬ ['/', '*'] <+: text ++ rest

/-! ## Layouts -/

/-- A lexeme and the number of characters before it. -/
structure Lexeme where
  start : Nat
  text : List Char
  kind : TokenKind

def Lexeme.stop (l : Lexeme) : Nat := l.start + l.text.length

/-- The text falls into gaps and the given lexemes in turn, with a gap at either end. Places are
counted from `n`. -/
inductive Laid : Nat → List Char → List Lexeme → Prop where
  | last {n : Nat} {gap : List Char} : IsGap gap [] → Laid n gap []
  | lexeme {n : Nat} {gap text rest : List Char} {kind : TokenKind} {ls : List Lexeme} :
    IsGap gap (text ++ rest) → IsLexeme text kind rest →
    Laid (n + gap.length + text.length) rest ls →
    Laid n (gap ++ (text ++ rest)) (⟨n + gap.length, text, kind⟩ :: ls)

theorem Spells.ne_nil {text : List Char} {kind : TokenKind} (h : Spells text kind) :
    text ≠ [] := by
  cases h with
  | keyword k => cases k <;> decide
  | identifier => exact List.cons_ne_nil _ _
  | literal hDigits => exact hDigits
  | symbol m => cases m <;> decide

theorem Spells.ne_endOfFile {text : List Char} {kind : TokenKind} (h : Spells text kind) :
    kind ≠ .endOfFile := by
  cases h <;> simp

namespace Laid

variable {n : Nat} {text : List Char} {ls : List Lexeme}

theorem spells (h : Laid n text ls) : ∀ l ∈ ls, Spells l.text l.kind := by
  induction h with
  | last => simp
  | lexeme _ hLexeme _ ih => exact List.forall_mem_cons.mpr ⟨hLexeme.spells, ih⟩

theorem le_start (h : Laid n text ls) : ∀ l ∈ ls, n ≤ l.start := by
  induction h with
  | last => simp
  | lexeme _ _ _ ih =>
    refine List.forall_mem_cons.mpr ⟨Nat.le_add_right _ _, ?_⟩
    intro l hl
    have hStart := ih l hl
    omega

/-- A lexeme is what the text shows at its place. -/
theorem covers (h : Laid n text ls) :
    ∀ l ∈ ls, (text.drop (l.start - n)).take l.text.length = l.text := by
  induction h with
  | last => simp
  | @lexeme n gap text rest kind ls _ _ hRest ih =>
    refine List.forall_mem_cons.mpr ⟨?_, ?_⟩
    · simp
    · intro l hl
      have hStart := hRest.le_start l hl
      have hCovers := ih l hl
      have hDrop : l.start - n = gap.length + (text.length +
          (l.start - (n + gap.length + text.length))) := by omega
      rw [hDrop, ← List.drop_drop, List.drop_left, ← List.drop_drop, List.drop_left]
      exact hCovers

/-- Lexemes stand one behind the other. -/
theorem apart (h : Laid n text ls) : ls.Pairwise fun l m => l.stop ≤ m.start := by
  induction h with
  | last => exact .nil
  | lexeme _ _ hRest ih => exact .cons hRest.le_start ih

end Laid

end CToGo.Source
