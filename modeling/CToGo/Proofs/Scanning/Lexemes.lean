import CToGo.Proofs.Scanning.Gaps
import CToGo.Source.Scanner
import Mathlib.Data.List.Induction
import Mathlib.Data.List.TakeWhile

/-!
# Reading lexemes

The first character of a lexeme tells words, literals and symbols apart. The cursor reads the
longest of its sort, and this is what a layout asks for.

* `Symbol.read?_eq_some_iff`: the longest symbol.
* `isLexeme_word_iff`, `isLexeme_literal_iff`, `isLexeme_symbol_iff`: what the lexeme at a place
  has to be, by the character found there.
* `Cursor.lexeme_eq_ok_iff`: the cursor reads the lexeme at its place.
-/

namespace CToGo.Source

/-! ## Symbols -/

namespace Symbol

theorem prefix_of_read? {text : List Char} {m : Symbol} (h : read? text = some m) :
    m.text.toList <+: text := by
  unfold read? at h
  split at h <;> cases h <;> exact ⟨_, rfl⟩

theorem read?_text (m : Symbol) : read? m.text.toList = some m := by
  cases m <;> rfl

theorem read?_of_width_two {m : Symbol} (h : m.width = 2) (rest : List Char) :
    read? (m.text.toList ++ rest) = some m := by
  cases m <;> first | rfl | cases h

theorem read?_isSome (m : Symbol) (rest : List Char) :
    (read? (m.text.toList ++ rest)).isSome := by
  rcases rest with _ | ⟨c, rest⟩
  · rw [List.append_nil, read?_text]
    rfl
  · -- Only these three characters make one symbol into another.
    by_cases hEqual : c = '='
    · subst hEqual
      cases m <;> rfl
    · by_cases hPlus : c = '+'
      · subst hPlus
        cases m <;> rfl
      · by_cases hMinus : c = '-'
        · subst hMinus
          cases m <;> rfl
        · cases m <;> first | rfl | simp [text, read?, hEqual, hPlus, hMinus]

theorem length_toList_text (m : Symbol) : m.text.toList.length = m.width := by
  rw [String.length_toList, length_text]

theorem width_le_two (m : Symbol) : m.width ≤ 2 := by
  cases m <;> decide

/-- No symbol at a place is longer than the one that is read there. -/
theorem width_le_of_read? {text : List Char} {m m' : Symbol} (h : read? text = some m)
    (h' : m'.text.toList <+: text) : m'.width ≤ m.width := by
  obtain ⟨rest, rfl⟩ := h'
  by_cases hTwo : m'.width = 2
  · rw [read?_of_width_two hTwo, Option.some.injEq] at h
    rw [h]
  · have hUpper := width_le_two m'
    have hLower := width_pos m
    omega

theorem read?_eq_some_iff {text : List Char} {m : Symbol} :
    read? text = some m ↔ m.text.toList <+: text ∧
      ∀ m' : Symbol, m'.text.toList <+: text → m'.width ≤ m.width := by
  constructor
  · intro h
    exact ⟨prefix_of_read? h, fun m' hm' => width_le_of_read? h hm'⟩
  · rintro ⟨⟨rest, rfl⟩, hLongest⟩
    obtain ⟨m', hRead⟩ := Option.isSome_iff_exists.mp (read?_isSome m rest)
    have hPrefix := prefix_of_read? hRead
    have hWidth : m'.text.toList.length = m.text.toList.length := by
      have hLe := hLongest m' hPrefix
      have hGe := width_le_of_read? hRead (List.prefix_append _ rest)
      rw [length_toList_text, length_toList_text]
      omega
    have hText : m'.text.toList = m.text.toList :=
      (List.prefix_of_prefix_length_le hPrefix (List.prefix_append _ rest) hWidth.le).eq_of_length
        hWidth
    have hSame : some m' = some m := by rw [← read?_text m', hText, read?_text]
    rw [hRead, hSame]

theorem not_isWordStart_head (m : Symbol) {c : Char} (h : m.text.toList.head? = some c) :
    ¬ isWordStart c ∧ ¬ c.isDigit := by
  cases m <;> cases h <;> decide

end Symbol

/-! ## Words -/

theorem Keyword.isWordStart_text (k : Keyword) {c : Char} {cs : List Char}
    (h : k.text.toList = c :: cs) : isWordStart c ∧ ∀ d ∈ cs, isWordRest d := by
  have hWord : (isWordStart c && cs.all isWordRest) = true := by
    cases k <;> cases h <;> rfl
  rwa [Bool.and_eq_true, List.all_eq_true] at hWord

/-- No token has a blank in it. -/
theorem Spells.not_mem_of_isBlank {text : List Char} {kind : TokenKind} (h : Spells text kind)
    {c : Char} (hc : isBlank c) : c ∉ text := by
  intro hMem
  have hWord {d : Char} (hd : isWordRest d) (hEq : c = d) : False :=
    not_isBlank_of_isWordRest hd (hEq ▸ hc)
  cases h with
  | keyword k =>
    obtain ⟨d, ds, hText⟩ := List.exists_cons_of_ne_nil (Spells.keyword k).ne_nil
    obtain ⟨hd, hds⟩ := k.isWordStart_text hText
    rw [hText] at hMem
    rcases List.mem_cons.mp hMem with hEq | hMem
    · exact hWord (isWordRest_of_isWordStart hd) hEq
    · exact hWord (hds c hMem) rfl
  | identifier hd hds _ =>
    rcases List.mem_cons.mp hMem with hEq | hMem
    · exact hWord (isWordRest_of_isWordStart hd) hEq
    · exact hWord (hds c hMem) rfl
  | literal _ hDigits _ => exact hWord (isWordRest_of_isDigit (hDigits c hMem)) rfl
  | symbol m =>
    have hNone : (m.text.toList.all fun d => !isBlank d) = true := by cases m <;> rfl
    have hFree := List.all_eq_true.mp hNone c hMem
    rw [hc] at hFree
    cases hFree

theorem ofWord_text (k : Keyword) : TokenKind.ofWord k.text = .keyword k := by
  rw [TokenKind.ofWord, Keyword.ofWord?_text]

theorem ofWord_of_not_keyword {word : String} (h : ∀ k : Keyword, k.text ≠ word) :
    TokenKind.ofWord word = .identifier word := by
  cases hWord : Keyword.ofWord? word with
  | none => rw [TokenKind.ofWord, hWord]
  | some k => exact absurd (Keyword.text_of_ofWord? hWord) (h k)

theorem spells_ofWord {c : Char} {cs : List Char} (hc : isWordStart c)
    (hcs : ∀ d ∈ cs, isWordRest d) : Spells (c :: cs) (.ofWord (String.ofList (c :: cs))) := by
  by_cases hKeyword : ∃ k : Keyword, k.text.toList = c :: cs
  · obtain ⟨k, hk⟩ := hKeyword
    rw [← hk, String.ofList_toList, ofWord_text]
    exact .keyword k
  · have hNone : ∀ k : Keyword, k.text.toList ≠ c :: cs := fun k hk => hKeyword ⟨k, hk⟩
    rw [ofWord_of_not_keyword]
    · exact .identifier hc hcs hNone
    · intro k hk
      exact hNone k (by rw [hk, String.toList_ofList])

theorem ofWord_ne_literal (word : String) (value : Int) :
    TokenKind.ofWord word ≠ .literal value := by
  unfold TokenKind.ofWord
  split <;> simp

/-! ## Literals -/

theorem maxLiteral_eq : maxLiteral = 2 ^ 63 - 1 := by decide

theorem decimalValue_eq_numeral (digits : List Char) : decimalValue digits = numeral digits := by
  induction digits using List.reverseRecOn with
  | nil => rfl
  | append_singleton digits d ih =>
    have hValue : decimalValue (digits ++ [d]) =
        10 * decimalValue digits + (d.toNat - '0'.toNat) := by
      simp [decimalValue]
    have hNumeral : numeral (digits ++ [d]) = d.toNat - '0'.toNat + 10 * numeral digits := by
      simp [numeral, Nat.ofDigits_cons]
    rw [hValue, hNumeral, ih]
    omega

/-- Digits that no word goes on with are all of their run. -/
theorem takeWhile_digits {digits rest : List Char} (hDigits : ∀ d ∈ digits, d.isDigit)
    (hApart : ∀ d, rest.head? = some d → ¬ isWordRest d) :
    (digits ++ rest).takeWhile Char.isDigit = digits := by
  refine (takeWhile_append_of_head hDigits ?_).1
  intro d hd hDigit
  exact hApart d hd (isWordRest_of_isDigit hDigit)

/-! ## The first character -/

namespace Spells

variable {c : Char} {cs : List Char} {kind : TokenKind}

theorem eq_word (h : Spells (c :: cs) kind) (hc : isWordStart c) :
    (∀ d ∈ c :: cs, isWordRest d) ∧ kind = .ofWord (String.ofList (c :: cs)) := by
  have hHead := isWordRest_of_isWordStart hc
  generalize hText : c :: cs = text at h
  cases h with
  | keyword k =>
    refine ⟨?_, ?_⟩
    · rw [← hText]
      exact List.forall_mem_cons.mpr ⟨hHead, (k.isWordStart_text hText.symm).2⟩
    · rw [String.ofList_toList, ofWord_text]
  | identifier _ hcs hNone =>
    refine ⟨?_, ?_⟩
    · cases hText
      exact List.forall_mem_cons.mpr ⟨hHead, hcs⟩
    · rw [ofWord_of_not_keyword]
      intro k hk
      exact hNone k (by rw [hk, String.toList_ofList])
  | literal _ hDigits =>
    have hDigit := hDigits c (hText ▸ List.mem_cons_self)
    exact absurd hc (not_isWordStart_of_isDigit hDigit)
  | symbol m => exact absurd hc (m.not_isWordStart_head (by rw [← hText]; rfl)).1

theorem eq_literal (h : Spells (c :: cs) kind) (hc : c.isDigit) :
    (∀ d ∈ c :: cs, d.isDigit) ∧ numeral (c :: cs) ≤ 2 ^ 63 - 1 ∧
      kind = .literal (numeral (c :: cs)) := by
  have hStart := not_isWordStart_of_isDigit hc
  generalize hText : c :: cs = text at h
  cases h with
  | keyword k => exact absurd (k.isWordStart_text hText.symm).1 hStart
  | identifier hc' _ _ =>
    cases hText
    exact absurd hc' hStart
  | literal _ hDigits hValue => exact ⟨hDigits, hValue, rfl⟩
  | symbol m => exact absurd hc (m.not_isWordStart_head (by rw [← hText]; rfl)).2

theorem eq_symbol (h : Spells (c :: cs) kind) (hWord : ¬ isWordStart c) (hDigit : ¬ c.isDigit) :
    ∃ m : Symbol, c :: cs = m.text.toList ∧ kind = .symbol m := by
  generalize hText : c :: cs = text at h
  cases h with
  | keyword k => exact absurd (k.isWordStart_text hText.symm).1 hWord
  | identifier hc' _ _ =>
    cases hText
    exact absurd hc' hWord
  | literal _ hDigits => exact absurd (hDigits c (hText ▸ List.mem_cons_self)) hDigit
  | symbol m => exact ⟨m, rfl, rfl⟩

end Spells

/-! ## The lexeme at a place -/

section Place

variable {c : Char} {tail text rest : List Char} {kind : TokenKind}

theorem exists_cons_of_prefix {other : List Char} (h : other <+: c :: tail)
    (hSpells : Spells other kind) : ∃ cs, other = c :: cs := by
  rcases List.prefix_cons_iff.mp h with rfl | ⟨cs, rfl, -⟩
  · exact absurd rfl hSpells.ne_nil
  · exact ⟨cs, rfl⟩

theorem isLexeme_word_iff (hText : text ++ rest = c :: tail) (hc : isWordStart c) :
    IsLexeme text kind rest ↔
      text = (c :: tail).takeWhile isWordRest ∧ kind = .ofWord (String.ofList text) := by
  have hHead := isWordRest_of_isWordStart hc
  have hLetters : Spells ((c :: tail).takeWhile isWordRest)
      (.ofWord (String.ofList ((c :: tail).takeWhile isWordRest))) := by
    rw [List.takeWhile_cons_of_pos hHead]
    refine spells_ofWord hc ?_
    intro d hd
    exact List.mem_takeWhile_imp hd
  -- Whatever is spelled here begins with `c` and is a word as well.
  have hRun : ∀ {other kind'}, other <+: c :: tail → Spells other kind' →
      other <+: (c :: tail).takeWhile isWordRest := by
    intro other kind' hOther hSpells
    obtain ⟨cs, rfl⟩ := exists_cons_of_prefix hOther hSpells
    exact prefix_takeWhile (hSpells.eq_word hc).1 hOther
  constructor
  · intro h
    have hPrefix := hRun ⟨rest, hText⟩ h.spells
    have hLength := h.longest _ _ (hText ▸ List.takeWhile_prefix _) hLetters
    have hEq := hPrefix.eq_of_length_le hLength
    obtain ⟨cs, rfl⟩ := exists_cons_of_prefix ⟨rest, hText⟩ h.spells
    exact ⟨hEq, (h.spells.eq_word hc).2⟩
  · rintro ⟨rfl, rfl⟩
    refine ⟨hLetters, ?_, ?_, ?_⟩
    · intro other kind' hOther hSpells
      exact (hRun (hText ▸ hOther) hSpells).length_le
    · intro value hValue
      exact absurd hValue (ofWord_ne_literal _ _)
    · rw [hText]
      rintro ⟨more, hMore⟩
      cases hMore
      cases hc

theorem isLexeme_literal_iff (hText : text ++ rest = c :: tail) (hc : c.isDigit) :
    IsLexeme text kind rest ↔
      text = (c :: tail).takeWhile Char.isDigit ∧ numeral text ≤ 2 ^ 63 - 1 ∧
        (∀ d, rest.head? = some d → ¬ isWordRest d) ∧ kind = .literal (numeral text) := by
  constructor
  · intro h
    obtain ⟨cs, rfl⟩ := exists_cons_of_prefix ⟨rest, hText⟩ h.spells
    obtain ⟨hDigits, hValue, rfl⟩ := h.spells.eq_literal hc
    have hApart := h.apart _ rfl
    refine ⟨?_, hValue, hApart, rfl⟩
    rw [← hText, takeWhile_digits hDigits hApart]
  · rintro ⟨hRun, hValue, hApart, rfl⟩
    have hDigits : ∀ d ∈ text, d.isDigit := by
      intro d hd
      rw [hRun] at hd
      exact List.mem_takeWhile_imp hd
    have hne : text ≠ [] := by
      rw [hRun, List.takeWhile_cons_of_pos hc]
      exact List.cons_ne_nil _ _
    refine ⟨.literal hne hDigits hValue, ?_, fun _ _ => hApart, ?_⟩
    · intro other kind' hOther hSpells
      rw [hText] at hOther
      obtain ⟨cs, rfl⟩ := exists_cons_of_prefix hOther hSpells
      rw [hRun]
      exact (prefix_takeWhile (hSpells.eq_literal hc).1 hOther).length_le
    · rw [hText]
      rintro ⟨more, hMore⟩
      cases hMore
      cases hc

theorem isLexeme_symbol_iff (hText : text ++ rest = c :: tail) (hWord : ¬ isWordStart c)
    (hDigit : ¬ c.isDigit) (hOpen : ¬ ['/', '*'] <+: c :: tail) :
    IsLexeme text kind rest ↔
      ∃ m, Symbol.read? (c :: tail) = some m ∧ text = m.text.toList ∧ kind = .symbol m := by
  constructor
  · intro h
    obtain ⟨cs, rfl⟩ := exists_cons_of_prefix ⟨rest, hText⟩ h.spells
    obtain ⟨m, hm, rfl⟩ := h.spells.eq_symbol hWord hDigit
    refine ⟨m, Symbol.read?_eq_some_iff.mpr ⟨hm ▸ ⟨rest, hText⟩, ?_⟩, hm, rfl⟩
    intro m' hm'
    have hLength := h.longest _ _ (hText ▸ hm') (.symbol m')
    rwa [hm, Symbol.length_toList_text, Symbol.length_toList_text] at hLength
  · rintro ⟨m, hRead, rfl, rfl⟩
    refine ⟨.symbol m, ?_, ?_, hText ▸ hOpen⟩
    · intro other kind' hOther hSpells
      rw [hText] at hOther
      obtain ⟨cs, rfl⟩ := exists_cons_of_prefix hOther hSpells
      obtain ⟨m', hm', rfl⟩ := hSpells.eq_symbol hWord hDigit
      rw [hm'] at hOther ⊢
      rw [Symbol.length_toList_text, Symbol.length_toList_text]
      exact Symbol.width_le_of_read? hRead hOther
    · intro value hValue
      cases hValue

end Place

namespace Cursor

variable {c d : Cursor} {ch : Char} {tail : List Char} {kind : TokenKind}

theorem integer_eq_ok_iff {digits rest : List Char} (hc : c.rest = digits ++ rest)
    (hDigits : digits = c.rest.takeWhile Char.isDigit) (hne : digits ≠ []) :
    c.integer = .ok kind d ↔
      numeral digits ≤ 2 ^ 63 - 1 ∧ (∀ d, rest.head? = some d → ¬ isWordRest d) ∧
        kind = .literal (numeral digits) ∧ d = c.skip digits.length := by
  have hRest : (c.skip digits.length).rest = rest := by rw [rest_skip, hc, List.drop_left]
  simp only [integer, ← hDigits, hRest, maxLiteral_eq, decimalValue_eq_numeral]
  cases hHead : rest.head?.filter isWordRest with
  | some ch =>
    obtain ⟨hFirst, hWord⟩ := Option.filter_eq_some_iff.mp hHead
    constructor
    · intro h
      cases h
    · rintro ⟨-, hApart, -⟩
      exact absurd hWord (hApart ch hFirst)
  | none =>
    have hApart : ∀ d, rest.head? = some d → ¬ isWordRest d := Option.filter_eq_none_iff.mp hHead
    by_cases hValue : numeral digits ≤ 2 ^ 63 - 1
    · have hGuard : (digits.isEmpty || decide (2 ^ 63 - 1 < numeral digits)) = false := by
        simpa [hne] using hValue
      rw [hGuard]
      constructor
      · intro h
        cases h
        exact ⟨hValue, hApart, rfl, rfl⟩
      · rintro ⟨-, -, rfl, rfl⟩
        rfl
    · have hGuard : (digits.isEmpty || decide (2 ^ 63 - 1 < numeral digits)) = true := by
        simpa [hne] using hValue
      rw [hGuard]
      constructor
      · intro h
        cases h
      · rintro ⟨hLe, -⟩
        exact absurd hLe hValue

theorem lexeme_eq_ok_iff (hc : c.rest = ch :: tail) (hOpen : ¬ ['/', '*'] <+: c.rest) :
    lexeme ch c = .ok kind d ↔
      ∃ text rest, c.rest = text ++ rest ∧ IsLexeme text kind rest ∧
        d = c.skip text.length := by
  by_cases hWord : isWordStart ch
  · rw [lexeme, if_pos hWord, word]
    constructor
    · intro h
      cases h
      refine ⟨_, c.rest.dropWhile isWordRest, List.takeWhile_append_dropWhile.symm, ?_, rfl⟩
      rw [isLexeme_word_iff (List.takeWhile_append_dropWhile.trans hc) hWord, hc]
      exact ⟨rfl, rfl⟩
    · rintro ⟨text, rest, hText, hLexeme, rfl⟩
      rw [isLexeme_word_iff (hText.symm.trans hc) hWord, ← hc] at hLexeme
      obtain ⟨rfl, rfl⟩ := hLexeme
      rfl
  · by_cases hDigit : ch.isDigit
    · rw [lexeme, if_neg hWord, if_pos hDigit]
      have hSplit := (List.takeWhile_append_dropWhile (p := Char.isDigit) (l := c.rest)).symm
      have hne : c.rest.takeWhile Char.isDigit ≠ [] := by
        rw [hc, List.takeWhile_cons_of_pos hDigit]
        exact List.cons_ne_nil _ _
      rw [integer_eq_ok_iff hSplit rfl hne]
      constructor
      · rintro ⟨hValue, hApart, rfl, rfl⟩
        refine ⟨_, _, hSplit, ?_, rfl⟩
        rw [isLexeme_literal_iff (hSplit.symm.trans hc) hDigit, ← hc]
        exact ⟨rfl, hValue, hApart, rfl⟩
      · rintro ⟨text, rest, hText, hLexeme, rfl⟩
        rw [isLexeme_literal_iff (hText.symm.trans hc) hDigit, ← hc] at hLexeme
        obtain ⟨rfl, hValue, hApart, rfl⟩ := hLexeme
        obtain rfl := List.append_cancel_left (hText.symm.trans hSplit)
        exact ⟨hValue, hApart, rfl, rfl⟩
    · rw [lexeme, if_neg hWord, if_neg hDigit]
      rw [hc] at hOpen
      constructor
      · intro h
        cases hRead : Symbol.read? c.rest with
        | none => simp [hRead] at h
        | some m =>
          rw [hRead] at h
          cases h
          obtain ⟨rest, hRest⟩ := Symbol.prefix_of_read? hRead
          refine ⟨m.text.toList, rest, hRest.symm, ?_, by rw [Symbol.length_toList_text]⟩
          rw [isLexeme_symbol_iff (hRest.trans hc) hWord hDigit hOpen, ← hc]
          exact ⟨m, hRead, rfl, rfl⟩
      · rintro ⟨text, rest, hText, hLexeme, rfl⟩
        rw [isLexeme_symbol_iff (hText.symm.trans hc) hWord hDigit hOpen, ← hc] at hLexeme
        obtain ⟨m, hRead, rfl, rfl⟩ := hLexeme
        rw [hRead, Symbol.length_toList_text]

end Cursor

end CToGo.Source
