import CToGo.Lowering.Name
import CToGo.Proofs.Characters
import Mathlib.Data.List.TakeWhile

/-!
# The lexemes of target expressions

How the text of an expression of the target language falls into numbers, words, operators and
punctuation. At each place the longest operator counts, so that `--` is a single lexeme.

* `nextLexeme?`: the lexeme that a text begins with.
* `exists_readFrom`: what it is read from stands in front of the rest.
* `Lexed`: a text and all its lexemes. Where the text has characters beyond those of
  expressions on one line, it has none.
* `Lexed.unique`: the lexemes of a text are determined by it.
-/

namespace CToGo.Target

open Source (isWordStart isWordRest)

/-- A unit of the text of an expression. -/
inductive Lexeme where
  | number (value : Nat)
  /-- An identifier. -/
  | word (name : String)
  /-- An operator or punctuation. -/
  | mark (text : String)
deriving DecidableEq, Inhabited, Repr

/-- All operators and punctuation of the language, longer ones first. -/
def marks : List String :=
  ["<<=", ">>=", "&^=", "...",
    "&&", "||", "<-", "++", "--", "==", "!=", "<=", ">=", ":=", "+=", "-=", "*=", "/=", "%=",
    "&=", "|=", "^=", "<<", ">>", "&^",
    "+", "-", "*", "/", "%", "&", "|", "^", "<", ">", "=", "!", "~", "(", ")", "[", "]",
    "\x7b", "\x7d", ",", ";", ".", ":"]

/-- The longest operator or punctuation at the beginning of a text, which is no comment. -/
def mark? (text : List Char) : Option String :=
  if "//".toList.isPrefixOf text || "/*".toList.isPrefixOf text then none
  else marks.find? (·.toList.isPrefixOf text)

/-- The decimal number at the beginning of a text. A zero in front of other digits, and a
letter, an underscore or a point behind them, make literals of other kinds. -/
def number? (text : List Char) : Option (Nat × List Char) :=
  let digits := text.takeWhile Char.isDigit
  let rest := text.dropWhile Char.isDigit
  if digits.head? = some '0' ∧ digits.length ≠ 1 then none
  else if rest.head?.any (fun c => isWordRest c || c == '.') then none
  else some (Nat.ofDigitChars 10 digits 0, rest)

/-- The lexeme that a text begins with, and what follows it. A keyword has no place in an
expression. -/
def nextLexeme? (text : List Char) : Option (Lexeme × List Char) :=
  match text with
  | [] => none
  | c :: _ =>
    if isWordStart c then
      let name := String.ofList (text.takeWhile isWordRest)
      if name ∈ targetKeywords then none else some (.word name, text.dropWhile isWordRest)
    else if c.isDigit then (number? text).map fun (n, rest) => (.number n, rest)
    else (mark? text).map fun m => (.mark m, text.drop m.length)

/-- The characters that separate lexemes of one line. -/
def isSpace (c : Char) : Bool := c == ' ' || c == '\t' || c == '\r'

/-- A text and its lexemes. -/
inductive Lexed : List Char → List Lexeme → Prop where
  | done : Lexed [] []
  | space {c : Char} {text : List Char} {ls : List Lexeme} :
    isSpace c → Lexed text ls → Lexed (c :: text) ls
  | lexeme {text rest : List Char} {l : Lexeme} {ls : List Lexeme} :
    nextLexeme? text = some (l, rest) → Lexed rest ls → Lexed text (l :: ls)

theorem nextLexeme?_of_isSpace {c : Char} (hc : isSpace c) (text : List Char) :
    nextLexeme? (c :: text) = none := by
  have hc' : c = ' ' ∨ c = '\t' ∨ c = '\r' := by simpa [isSpace, or_assoc] using hc
  rcases hc' with rfl | rfl | rfl <;> rfl

/-- The lexemes of a text are determined by it. -/
theorem Lexed.unique {text : List Char} {ls ls' : List Lexeme} (h : Lexed text ls)
    (h' : Lexed text ls') : ls = ls' := by
  induction h generalizing ls' with
  | done =>
    cases h' with
    | done => rfl
    | lexeme hl _ => cases hl
  | space hc _ ih =>
    cases h' with
    | space _ h' => exact ih h'
    | lexeme hl _ =>
      rw [nextLexeme?_of_isSpace hc] at hl
      cases hl
  | lexeme hl _ ih =>
    cases h' with
    | done => cases hl
    | space hc _ =>
      rw [nextLexeme?_of_isSpace hc] at hl
      cases hl
    | lexeme hl' h' =>
      rw [hl, Option.some.injEq, Prod.mk.injEq] at hl'
      obtain ⟨rfl, rfl⟩ := hl'
      rw [ih h']

/-- A text that a lexeme may be read from. -/
def Lexeme.ReadFrom : Lexeme → List Char → Prop
  | number _, text | word _, text => text ≠ [] ∧ ∀ c ∈ text, isWordRest c
  | mark m, text => m ∈ marks ∧ text = m.toList

theorem readFrom_takeWhile {p : Char → Bool} (hp : ∀ c, p c → isWordRest c) {c : Char}
    (hc : p c) (cs : List Char) :
    (c :: cs).takeWhile p ≠ [] ∧ ∀ d ∈ (c :: cs).takeWhile p, isWordRest d := by
  refine ⟨?_, fun d hd => hp d (List.mem_takeWhile_imp hd)⟩
  rw [List.takeWhile_cons_of_pos hc]
  exact List.cons_ne_nil _ _

/-- A lexeme is read from the text in front of what follows it. -/
theorem exists_readFrom {text rest : List Char} {l : Lexeme}
    (h : nextLexeme? text = some (l, rest)) : ∃ used, text = used ++ rest ∧ l.ReadFrom used := by
  have hSplit (p : Char → Bool) : text = text.takeWhile p ++ text.dropWhile p :=
    List.takeWhile_append_dropWhile.symm
  cases text with
  | nil => cases h
  | cons c text =>
    simp only [nextLexeme?] at h
    split at h
    · rename_i hStart
      split at h
      · cases h
      · cases h
        exact ⟨_, hSplit isWordRest,
          readFrom_takeWhile (fun _ hc => hc) (isWordRest_of_isWordStart hStart) text⟩
    · split at h
      · rename_i hDigit
        obtain ⟨⟨n, rest'⟩, hNumber, hEq⟩ := Option.map_eq_some_iff.mp h
        cases hEq
        simp only [number?] at hNumber
        split at hNumber
        · cases hNumber
        · split at hNumber
          · cases hNumber
          · cases hNumber
            exact ⟨_, hSplit Char.isDigit,
              readFrom_takeWhile (fun _ => isWordRest_of_isDigit) hDigit text⟩
      · obtain ⟨m, hm, hEq⟩ := Option.map_eq_some_iff.mp h
        cases hEq
        unfold mark? at hm
        split at hm
        · cases hm
        · have hPrefix := List.find?_some (p := fun m : String => m.toList.isPrefixOf _) hm
          obtain ⟨after, hAfter⟩ := List.isPrefixOf_iff_prefix.mp hPrefix
          refine ⟨m.toList, ?_, List.mem_of_find?_eq_some hm, rfl⟩
          rw [← hAfter, ← String.length_toList, List.drop_left]

/-! ## Words and numbers -/

/-- Whether a text is an identifier: a letter or an underscore, then letters, digits and
underscores, and no keyword. -/
def isName (x : String) : Bool :=
  match x.toList with
  | [] => false
  | c :: cs => isWordStart c && cs.all isWordRest && !targetKeywords.contains x

theorem exists_isWordStart {x : String} (hx : isName x) :
    ∃ c cs, x.toList = c :: cs ∧ isWordStart c := by
  unfold isName at hx
  split at hx
  · cases hx
  · rename_i c cs hxs
    simp only [Bool.and_eq_true] at hx
    exact ⟨c, cs, hxs, hx.1.1⟩

theorem isWordRest_of_isName {x : String} (hx : isName x) {c : Char} (hc : c ∈ x.toList) :
    isWordRest c := by
  unfold isName at hx
  split at hx
  · cases hx
  · rename_i d ds hxs
    simp only [Bool.and_eq_true, List.all_eq_true] at hx
    rw [hxs, List.mem_cons] at hc
    rcases hc with rfl | hc
    · exact isWordRest_of_isWordStart hx.1.1
    · exact hx.1.2 c hc

theorem toList_ne_nil_of_isName {x : String} (hx : isName x) : x.toList ≠ [] := by
  obtain ⟨c, cs, hxs, -⟩ := exists_isWordStart hx
  exact hxs ▸ List.cons_ne_nil c cs

theorem not_mem_targetKeywords_of_isName {x : String} (hx : isName x) : x ∉ targetKeywords := by
  unfold isName at hx
  split at hx
  · cases hx
  · simp only [Bool.and_eq_true, Bool.not_eq_true', List.contains_eq_mem,
      decide_eq_false_iff_not] at hx
    exact hx.2

/-- The text `rest` does not continue a word or a number. -/
def Apart (rest : List Char) : Prop := ∀ c, rest.head? = some c → ¬ isWordRest c ∧ c ≠ '.'

theorem lexed_word {x : String} (hx : isName x) {rest : List Char} {ls : List Lexeme}
    (hRest : ∀ c, rest.head? = some c → ¬ isWordRest c) (h : Lexed rest ls) :
    Lexed (x.toList ++ rest) (.word x :: ls) := by
  obtain ⟨c, cs, hxs, hc⟩ := exists_isWordStart hx
  have hKeyword := not_mem_targetKeywords_of_isName hx
  obtain ⟨hTake, hDrop⟩ := takeWhile_append_of_head (fun _ => isWordRest_of_isName hx) hRest
  refine .lexeme ?_ h
  rw [hxs] at hTake hDrop ⊢
  simp only [List.cons_append] at hTake hDrop ⊢
  simp only [nextLexeme?, hc, if_true, hTake, hDrop, ← hxs, String.ofList_toList, hKeyword,
    if_false]

theorem toList_toString_ne_nil (n : Nat) : (toString n).toList ≠ [] := by
  rw [Nat.toString_eq_repr, Nat.toList_repr]
  exact Nat.toDigits_ne_nil

theorem isWordRest_of_mem_toString {n : Nat} {c : Char} (hc : c ∈ (toString n).toList) :
    isWordRest c := by
  rw [Nat.toString_eq_repr, Nat.toList_repr] at hc
  exact isWordRest_of_isDigit (Nat.isDigit_of_mem_toDigits (by decide) (by decide) hc)

theorem eq_zero_of_head?_toDigits (n : Nat) (h : (Nat.toDigits 10 n).head? = some '0') :
    n = 0 := by
  induction n using Nat.strongRecOn with
  | ind n ih =>
    by_cases hn : n < 10
    · rw [Nat.toDigits_of_lt_base hn, List.head?_singleton, Option.some.injEq] at h
      have hDigit : ∀ m < 10, Nat.digitChar m = '0' → m = 0 := by decide
      exact hDigit n hn h
    · have hHead : (Nat.toDigits 10 (n / 10)).head? = some '0' := by
        rw [Nat.toDigits_of_base_le (by decide) (by omega), List.head?_append] at h
        cases hd : Nat.toDigits 10 (n / 10) with
        | nil => exact absurd hd Nat.toDigits_ne_nil
        | cons d ds => simpa [hd] using h
      have hZero := ih (n / 10) (by omega) hHead
      omega

theorem number?_toDigits (n : Nat) {rest : List Char} (hRest : Apart rest) :
    number? (Nat.toDigits 10 n ++ rest) = some (n, rest) := by
  have hDigits : ∀ c ∈ Nat.toDigits 10 n, c.isDigit := fun c hc =>
    Nat.isDigit_of_mem_toDigits (by decide) (by decide) hc
  have hNotDigit : ∀ c, rest.head? = some c → ¬ c.isDigit := by
    intro c hc hDigit
    refine (hRest c hc).1 ?_
    simp [isWordRest, Char.isAlphanum, hDigit]
  obtain ⟨hTake, hDrop⟩ := takeWhile_append_of_head hDigits hNotDigit
  have hZero : ¬ ((Nat.toDigits 10 n).head? = some '0' ∧ (Nat.toDigits 10 n).length ≠ 1) := by
    rintro ⟨hHead, hLength⟩
    rw [eq_zero_of_head?_toDigits n hHead] at hLength
    exact hLength rfl
  have hNext : ¬ rest.head?.any (fun c => isWordRest c || c == '.') := by
    cases hc : rest.head? with
    | none => simp
    | some c => simpa using hRest c hc
  unfold number?
  simp only [hTake, hDrop, Nat.ofDigitChars_ten_toDigits]
  rw [if_neg hZero, if_neg hNext]

theorem lexed_number (n : Nat) {rest : List Char} {ls : List Lexeme} (hRest : Apart rest)
    (h : Lexed rest ls) : Lexed ((toString n).toList ++ rest) (.number n :: ls) := by
  refine .lexeme ?_ h
  have hNumber := number?_toDigits n hRest
  rw [Nat.toString_eq_repr, Nat.toList_repr]
  cases hd : Nat.toDigits 10 n with
  | nil => exact absurd hd Nat.toDigits_ne_nil
  | cons d ds =>
    rw [hd] at hNumber
    have hDigit : d.isDigit := Nat.isDigit_of_mem_toDigits (by decide) (by decide)
      (hd ▸ List.mem_cons_self)
    rw [List.cons_append] at hNumber ⊢
    rw [nextLexeme?, if_neg (not_isWordStart_of_isDigit hDigit), if_pos hDigit, hNumber]
    rfl

/-! ## Operators and punctuation -/

theorem lexed_operator (op : BinaryOp) {rest : List Char} {ls : List Lexeme}
    (h : Lexed rest ls) :
    Lexed (' ' :: (op.text.toList ++ ' ' :: rest)) (.mark op.text :: ls) := by
  refine .space rfl (.lexeme ?_ (.space (c := ' ') rfl h))
  cases op <;> rfl

/-- A minus sign is a lexeme of its own unless another one or an equals sign follows. -/
theorem lexed_minus {c : Char} {rest : List Char} {ls : List Lexeme} (hMinus : c ≠ '-')
    (hEqual : c ≠ '=') (h : Lexed (c :: rest) ls) :
    Lexed ('-' :: c :: rest) (.mark "-" :: ls) := by
  refine .lexeme ?_ h
  have hMark : mark? ('-' :: c :: rest) = some "-" := by
    simp [mark?, marks, Ne.symm hMinus, Ne.symm hEqual]
  rw [nextLexeme?, if_neg (by decide), if_neg (by decide), hMark]
  rfl

/-- A point in front of a letter is a lexeme of its own. -/
theorem lexed_point {c : Char} {rest : List Char} {ls : List Lexeme} (hc : isWordStart c)
    (h : Lexed (c :: rest) ls) : Lexed ('.' :: c :: rest) (.mark "." :: ls) := by
  refine .lexeme ?_ h
  have hNe : '.' ≠ c := by
    rintro rfl
    cases hc
  have hMark : mark? ('.' :: c :: rest) = some "." := by simp [mark?, marks, hNe]
  rw [nextLexeme?, if_neg (by decide), if_neg (by decide), hMark]
  rfl

end CToGo.Target
