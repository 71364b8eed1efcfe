import CToGo.Proofs.Scanning.Tokens

/-!
# Written tokens

A list of tokens is written down as their texts, each with a separator behind it. Since a
separator begins with a blank and no token has a blank in it, nothing of what is written next to a
token can become a part of it, and the tokens are read again as they were.

* `TokenKind.IsWritable`: the kinds of tokens that have a spelling.
* `Filling`, `Separates`: blanks and comments, and those that separate tokens.
* `tokenize_written`: **tokens that are written down are read again.**
-/

namespace CToGo.Source

/-! ## Spellings -/

/-- The kinds of tokens that have a spelling: literals from zero to `2 ^ 63 - 1`, words that are no
keywords as identifiers, keywords and symbols. -/
def TokenKind.IsWritable : TokenKind → Prop
  | literal value => 0 ≤ value ∧ value ≤ 2 ^ 63 - 1
  | identifier name =>
    name.toList.head?.any isWordStart ∧ name.toList.all isWordRest ∧
      ∀ k ∈ Keyword.all, k.text ≠ name
  | keyword _ => True
  | symbol _ => True
  | endOfFile => False

instance : DecidablePred TokenKind.IsWritable
  | .literal value => inferInstanceAs (Decidable (0 ≤ value ∧ value ≤ 2 ^ 63 - 1))
  | .identifier name => inferInstanceAs (Decidable (name.toList.head?.any isWordStart ∧
      name.toList.all isWordRest ∧ ∀ k ∈ Keyword.all, k.text ≠ name))
  | .keyword _ => inferInstanceAs (Decidable True)
  | .symbol _ => inferInstanceAs (Decidable True)
  | .endOfFile => inferInstanceAs (Decidable False)

theorem numeral_toDigits (n : Nat) : numeral (Nat.toDigits 10 n) = n := by
  rw [← decimalValue_eq_numeral]
  exact Nat.ofDigitChars_ten_toDigits

theorem toList_text_literal (n : Nat) :
    (TokenKind.literal n).text.toList = Nat.toDigits 10 n := by
  change (Nat.repr n).toList = Nat.toDigits 10 n
  simp

/-- The text of a token in messages spells it. -/
theorem TokenKind.IsWritable.spells {kind : TokenKind} (h : kind.IsWritable) :
    Spells kind.text.toList kind := by
  cases kind with
  | literal value =>
    obtain ⟨hLow, hHigh⟩ := h
    obtain ⟨n, rfl⟩ := Int.eq_ofNat_of_zero_le hLow
    have hDigits : ∀ d ∈ Nat.toDigits 10 n, d.isDigit := fun d hd =>
      Nat.isDigit_of_mem_toDigits (by decide) (by decide) hd
    have hSpells := Spells.literal Nat.toDigits_ne_nil hDigits (by rw [numeral_toDigits]; omega)
    rwa [numeral_toDigits, ← toList_text_literal] at hSpells
  | identifier name =>
    obtain ⟨hStart, hRest, hNone⟩ := h
    change Spells name.toList (.identifier name)
    cases hName : name.toList with
    | nil => simp [hName] at hStart
    | cons c cs =>
      obtain rfl : String.ofList (c :: cs) = name := by rw [← hName, String.ofList_toList]
      rw [hName] at hStart hRest
      refine .identifier hStart (fun d hd => List.all_eq_true.mp hRest d (.tail c hd)) ?_
      intro k hk
      exact hNone k k.mem_all (by rw [← hk, String.ofList_toList])
  | keyword k => exact .keyword k
  | symbol m => exact .symbol m
  | endOfFile => cases h

/-! ## Separators -/

/-- Blanks, line comments with their line feed, and closed block comments, one after the other. -/
inductive Filling : List Char → Prop where
  | nil : Filling []
  | blank {c : Char} {more : List Char} : isBlank c → Filling more → Filling (c :: more)
  | line {body more : List Char} :
    '\n' ∉ body → Filling more → Filling ('/' :: '/' :: (body ++ '\n' :: more))
  | block {body more : List Char} :
    ¬ ['*', '/'] <:+: body ++ ['*'] → Filling more →
    Filling ('/' :: '*' :: (body ++ '*' :: '/' :: more))

/-- A filling that begins with a blank. -/
structure Separates (text : List Char) : Prop where
  filling : Filling text
  blank : ∃ c more, text = c :: more ∧ isBlank c

theorem Filling.run {gap : List Char} (h : Filling gap) (rest : List Char) : Run gap rest := by
  induction h with
  | nil => exact .nil rest
  | blank hBlank _ ih => exact @Run.cons [_] _ _ (.blank _ hBlank) ih
  | @line body more hBody _ ih =>
    have hBreak : Run ('\n' :: more) rest := @Run.cons ['\n'] _ _ (.blank _ (by decide)) ih
    exact .cons (.line hBody (.inr rfl)) hBreak
  | @block body more hBody _ ih =>
    have hPiece := Run.cons (.block (more ++ rest) hBody) ih
    simpa using hPiece

/-! ## In front of a blank -/

section

variable {text rest : List Char} {kind : TokenKind} {c : Char}

/-- A token in front of a blank does not open a comment. -/
theorem Spells.not_opens (h : Spells text kind) (hc : isBlank c) {d : Char}
    (hd : d = '/' ∨ d = '*') : ¬ ['/', d] <+: text ++ c :: rest := by
  intro hOpen
  have hMissing : c ∉ ['/', d] := by
    rintro (_ | ⟨_, _ | ⟨_, hNone⟩⟩)
    · cases hc
    · rcases hd with rfl | rfl <;> cases hc
    · cases hNone
  obtain ⟨more, rfl⟩ := prefix_of_prefix_of_not_mem hOpen hMissing
  -- The token itself would begin with these two characters, but no symbol does.
  obtain ⟨m, hm, -⟩ := h.eq_symbol (by decide) (by decide)
  have hRead := m.read?_text
  rw [← hm] at hRead
  rcases hd with rfl | rfl <;> cases hRead <;> cases hm

/-- A token in front of a blank is as long as it can be. -/
theorem Spells.isLexeme (h : Spells text kind) (hc : isBlank c) :
    IsLexeme text kind (c :: rest) where
  spells := h
  longest := by
    intro other kind' hOther hSpells
    exact (prefix_of_prefix_of_not_mem hOther (hSpells.not_mem_of_isBlank hc)).length_le
  apart := by
    rintro value - d hd hWord
    cases hd
    exact not_isBlank_of_isWordRest hWord hc
  noComment := h.not_opens hc (.inr rfl)

/-- A filling in front of a token is as long as it can be. -/
theorem Filling.isGap {gap : List Char} (hGap : Filling gap) (h : Spells text kind)
    (hc : isBlank c) : IsGap gap (text ++ c :: rest) := by
  refine ⟨hGap.run _, ?_⟩
  intro piece more hText hPiece
  cases hPiece with
  | @blank b _ hBlank =>
    obtain ⟨d, ds, rfl⟩ := List.exists_cons_of_ne_nil h.ne_nil
    obtain ⟨rfl, -⟩ := List.cons.inj hText
    exact h.not_mem_of_isBlank hBlank List.mem_cons_self
  | @line body _ _ _ => exact h.not_opens hc (.inl rfl) ⟨body ++ more, hText.symm⟩
  | @block body _ _ =>
    exact h.not_opens hc (.inr rfl) ⟨body ++ ['*', '/'] ++ more, by rw [hText]; simp⟩

theorem Filling.isGap_end {gap : List Char} (hGap : Filling gap) : IsGap gap [] := by
  refine ⟨hGap.run [], ?_⟩
  intro piece more hText hPiece
  obtain ⟨rfl, -⟩ := List.append_eq_nil_iff.mp hText.symm
  cases hPiece

end

/-! ## All tokens -/

/-- The texts of tokens, each with what is written behind it. -/
def written (items : List (TokenKind × String)) : String :=
  String.join (items.map fun (kind, separator) => kind.text ++ separator)

theorem toList_written_cons (kind : TokenKind) (separator : String)
    (items : List (TokenKind × String)) :
    (written ((kind, separator) :: items)).toList =
      kind.text.toList ++ (separator.toList ++ (written items).toList) := by
  simp [written]

/-- Behind a filling, written tokens are laid out as they were written. -/
theorem laid_written {items : List (TokenKind × String)}
    (hItems : ∀ item ∈ items, item.1.IsWritable ∧ Separates item.2.toList) (n : Nat)
    {gap : List Char} (hGap : Filling gap) :
    ∃ ls, Laid n (gap ++ (written items).toList) ls ∧ ls.map (·.kind) = items.map (·.1) := by
  induction items generalizing n gap with
  | nil => exact ⟨[], by simpa [written] using Laid.last hGap.isGap_end, rfl⟩
  | cons item items ih =>
    obtain ⟨kind, separator⟩ := item
    obtain ⟨⟨hKind, hSeparates⟩, hMore⟩ := List.forall_mem_cons.mp hItems
    obtain ⟨c, more, hSeparator, hc⟩ := hSeparates.blank
    have hSpells := hKind.spells
    -- What separates this token from the next one is the gap in front of the next one.
    obtain ⟨ls, hLaid, hKinds⟩ :=
      ih hMore (n + gap.length + kind.text.toList.length) hSeparates.filling
    have hRest : separator.toList ++ (written items).toList =
        c :: (more ++ (written items).toList) := by rw [hSeparator, List.cons_append]
    rw [toList_written_cons]
    refine ⟨_, .lexeme ?_ ?_ hLaid, congrArg (kind :: ·) hKinds⟩
    · rw [hRest]
      exact hGap.isGap hSpells hc
    · rw [hRest]
      exact hSpells.isLexeme hc

/-- **Written tokens.** Any literals, identifiers, keywords and symbols, written down one after the
other with a separator behind each, are exactly the tokens of the text, up to the mark for the end
of the file. A separator begins with a blank and consists of blanks, line comments with their line
feeds and closed block comments. -/
theorem tokenize_written (file : String) {items : List (TokenKind × String)}
    (hItems : ∀ item ∈ items, item.1.IsWritable ∧ Separates item.2.toList) :
    ∃ tokens, (Scanner.ofSource file (written items)).tokenize.1 = .ok tokens ∧
      tokens.map (·.kind) = items.map (·.1) ++ [.endOfFile] := by
  obtain ⟨ls, hLaid, hKinds⟩ := laid_written hItems 0 .nil
  obtain ⟨init, place, hTokens, hMarks, -⟩ := tokenize_of_laid file hLaid
  have hSame : init.map (·.kind) = ls.map (·.kind) := by
    rw [← List.forall₂_eq_eq_eq, List.forall₂_map_left_iff, List.forall₂_map_right_iff]
    exact hMarks.imp fun _ _ hMark => hMark.kind
  refine ⟨_, (tokenize_ofSource file _).trans hTokens, ?_⟩
  rw [List.map_append, hSame, hKinds]
  rfl

/-- Comments that look as if they ended at once, words that begin with a keyword, and a symbol in
front of a comment. -/
theorem tokenize_written_comments :
    let items : List (TokenKind × String) :=
      [(.keyword .kwInt, " "), (.identifier "int0", "\t/*/ */"), (.symbol .slash, " // =\n\n"),
        (.literal 9223372036854775807, "\n")]
    (∀ item ∈ items, item.1.IsWritable ∧ Separates item.2.toList) ∧
      written items = "int int0\t/*/ *// // =\n\n9223372036854775807\n" ∧
      ∃ tokens, (Scanner.ofSource "f.c" (written items)).tokenize.1 = .ok tokens ∧
        tokens.map (·.kind) = [.keyword .kwInt, .identifier "int0", .symbol .slash,
          .literal 9223372036854775807, .endOfFile] := by
  intro items
  have hSpace : Separates " ".toList := ⟨.blank rfl .nil, _, _, rfl, rfl⟩
  have hBlock : Separates "\t/*/ */".toList :=
    ⟨.blank rfl (@Filling.block ['/', ' '] [] (by decide) .nil), _, _, rfl, rfl⟩
  have hLine : Separates " // =\n\n".toList :=
    ⟨.blank rfl (@Filling.line [' ', '='] _ (by decide) (.blank rfl .nil)), _, _, rfl, rfl⟩
  have hBreak : Separates "\n".toList := ⟨.blank rfl .nil, _, _, rfl, rfl⟩
  have hItems : ∀ item ∈ items, item.1.IsWritable ∧ Separates item.2.toList := by
    simp only [items, List.forall_mem_cons, List.not_mem_nil, false_implies, implies_true, and_true]
    exact ⟨⟨by decide, hSpace⟩, ⟨by decide, hBlock⟩, ⟨by decide, hLine⟩, ⟨by decide, hBreak⟩⟩
  exact ⟨hItems, by decide, tokenize_written "f.c" hItems⟩

end CToGo.Source
