import CToGo.Proofs.Scanning.Calls
import Mathlib.Algebra.Order.BigOperators.Group.List

/-!
# Integer constants

The source language writes integer constants in base ten, and in base eight if a zero stands in
front of further digits. The scanner reads every string of digits in base ten. The two agree
where no superfluous zero stands in front, and else only up to seven.

* `constantValue?`: the number that C reads from a string of digits.
* `constantValue?_eq_numeral_iff`: where the two readings agree.
* `Scanner.HandsOut`: the tokens of a scanner, however they are asked for.
* `Scanner.literal_constant`: **the value of every literal that a scanner hands out, and the
  strings of digits that it refuses.**
-/

namespace CToGo.Source

/-! ## The two readings -/

/-- The number that digits write in base eight. -/
def octalNumeral (digits : List Char) : Nat :=
  Nat.ofDigits 8 (digits.reverse.map fun d => d.toNat - '0'.toNat)

def isOctalDigit (c : Char) : Bool := c.isDigit && c.toNat ≤ '7'.toNat

/-- The number that C reads from a string of digits. A zero in front of further digits announces
base eight; an eight or a nine behind it makes the string no constant at all. -/
def constantValue? : List Char → Option Nat
  | '0' :: d :: digits =>
    if (d :: digits).all isOctalDigit then some (octalNumeral (d :: digits)) else none
  | digits => some (numeral digits)

/-- A zero in front of further digits. -/
def HasLeadingZero (digits : List Char) : Prop := ∃ d ds, digits = '0' :: d :: ds

theorem constantValue?_of_not_hasLeadingZero {digits : List Char} (h : ¬ HasLeadingZero digits) :
    constantValue? digits = some (numeral digits) := by
  unfold constantValue?
  split
  · exact absurd ⟨_, _, rfl⟩ h
  · rfl

theorem numeral_zero_cons (digits : List Char) : numeral ('0' :: digits) = numeral digits := by
  simp [numeral, Nat.ofDigits_append]

theorem digit_le_numeral {digits : List Char} {d : Char} (h : d ∈ digits) :
    d.toNat - '0'.toNat ≤ numeral digits := by
  have hMem : d.toNat - '0'.toNat ∈ digits.reverse.map fun d => d.toNat - '0'.toNat :=
    List.mem_map_of_mem (List.mem_reverse.mpr h)
  exact (List.le_sum_of_mem hMem).trans (Nat.sum_le_ofDigits _ (by decide))

theorem value_lt_of_isOctalDigit {d : Char} (h : isOctalDigit d) : d.toNat - '0'.toNat < 8 := by
  have hSeven : d.toNat ≤ 55 := of_decide_eq_true (Bool.and_eq_true_iff.mp h).2
  change d.toNat - 48 < 8
  omega

theorem le_value_of_not_isOctalDigit {d : Char} (hDigit : d.isDigit) (h : ¬ isOctalDigit d) :
    8 ≤ d.toNat - '0'.toNat := by
  have hSeven : ¬ d.toNat ≤ 55 := fun hLe =>
    h (Bool.and_eq_true_iff.mpr ⟨hDigit, decide_eq_true hLe⟩)
  change 8 ≤ d.toNat - 48
  omega

/-- The same digits write the same number in base eight and in base ten only if all but the last
are zero. -/
theorem octalNumeral_eq_numeral_iff {digits : List Char} (h : ∀ d ∈ digits, isOctalDigit d) :
    octalNumeral digits = numeral digits ↔ numeral digits < 8 := by
  unfold octalNumeral numeral
  cases hLast : digits.reverse with
  | nil => simp
  | cons d front =>
    have hd : d ∈ digits := List.mem_reverse.mp (hLast ▸ List.mem_cons_self)
    have hValue := value_lt_of_isOctalDigit (h d hd)
    rw [List.map_cons, Nat.ofDigits_cons, Nat.ofDigits_cons]
    -- The last digit counts the same in both bases; the digits before it count less in base eight.
    have hFront := Nat.ofDigits_monotone (front.map fun d => d.toNat - '0'.toNat)
      (show 8 ≤ 10 by decide)
    omega

/-- Without a superfluous zero in front the two readings agree, and else up to seven. -/
theorem constantValue?_eq_numeral_iff {digits : List Char} (h : ∀ d ∈ digits, d.isDigit) :
    constantValue? digits = some (numeral digits) ↔
      ¬ HasLeadingZero digits ∨ numeral digits < 8 := by
  by_cases hZero : HasLeadingZero digits
  · obtain ⟨d, ds, rfl⟩ := hZero
    have hLeading : HasLeadingZero ('0' :: d :: ds) := ⟨d, ds, rfl⟩
    simp only [hLeading, not_true_eq_false, false_or, constantValue?, numeral_zero_cons]
    by_cases hOctal : (d :: ds).all isOctalDigit
    · rw [if_pos hOctal, Option.some.injEq]
      exact octalNumeral_eq_numeral_iff (List.all_eq_true.mp hOctal)
    · rw [if_neg hOctal]
      obtain ⟨e, he, hNine⟩ : ∃ e ∈ d :: ds, ¬ isOctalDigit e := by
        simpa only [List.all_eq_true, not_forall, exists_prop] using hOctal
      have hDigit := h e (List.mem_cons_of_mem _ he)
      have hLarge := (le_value_of_not_isOctalDigit hDigit hNine).trans (digit_le_numeral he)
      exact iff_of_false (by simp) (by omega)
  · simp only [hZero, not_false_eq_true, true_or, iff_true]
    exact constantValue?_of_not_hasLeadingZero hZero

theorem Spells.digits {text : List Char} {value : Int} (h : Spells text (.literal value)) :
    text ≠ [] ∧ (∀ d ∈ text, d.isDigit) ∧ value = numeral text := by
  cases h with
  | literal hne hDigits _ => exact ⟨hne, hDigits, rfl⟩

/-! ## Literals of a scanner -/

namespace Cursor

variable {file : String} {text : List Char} {c : Cursor}

/-- What a token covers is what it spells, wherever in the text the cursor stands. -/
theorem StandsIn.spells (h : c.StandsIn file text) {d : Cursor} {t : Token}
    (hNext : c.nextToken = .ok t d) (ht : t.kind ≠ .endOfFile) :
    Spells (t.span.covered text) t.kind := by
  rcases exists_layout_of_nextToken hNext with hGap | ⟨gap, word, kind, rest, hc, hGap, hLexeme⟩
  · rw [nextToken_of_isGap hGap] at hNext
    cases hNext
    exact absurd rfl ht
  · rw [nextToken_of_isLexeme hGap hLexeme hc] at hNext
    cases hNext
    have hLength : c.rest.length = gap.length + (word.length + rest.length) := by
      rw [hc, List.length_append, List.length_append]
    have hStart : (c.skip gap.length).location.offset = c.location.offset + gap.length :=
      offset_skip (by omega)
    have hStop := (skip_lexeme hc).2
    have hBehind : text.drop (c.location.offset + gap.length) = word ++ rest := by
      rw [← List.drop_drop, ← h.rest_eq, hc, List.drop_left]
    rw [Span.covered, Span.length, hStart, hStop, hBehind, Nat.add_sub_cancel_left, List.take_left]
    exact hLexeme.spells

section

variable {gap digits rest : List Char} (hDigits : ∀ d ∈ digits, d.isDigit)
  (hApart : ∀ d, rest.head? = some d → ¬ isWordRest d)

include hDigits hApart

theorem integer_of_tooLarge (hc : c.rest = digits ++ rest)
    (hLarge : 2 ^ 63 - 1 < numeral digits) :
    c.integer = .error ⟨.outOfRange (String.ofList digits), c.location⟩
      (c.skip digits.length) := by
  have hRun : c.rest.takeWhile Char.isDigit = digits := by
    rw [hc, takeWhile_digits hDigits hApart]
  have hRest : (c.skip digits.length).rest = rest := by rw [rest_skip, hc, List.drop_left]
  have hFilter : rest.head?.filter isWordRest = none := Option.filter_eq_none_iff.mpr hApart
  have hGuard : (digits.isEmpty || decide (maxLiteral < decimalValue digits)) = true := by
    rw [maxLiteral_eq, decimalValue_eq_numeral, decide_eq_true hLarge, Bool.or_true]
  simp only [integer, hRun, hRest, hFilter, hGuard, if_true]

/-- Behind a gap, a string of digits that no word goes on with is a literal unless it is too
large. -/
theorem nextToken_digits (hGap : IsGap gap (digits ++ rest))
    (hc : c.rest = gap ++ (digits ++ rest)) (hne : digits ≠ []) :
    (numeral digits ≤ 2 ^ 63 - 1 → ∃ t d, c.nextToken = .ok t d ∧
        t.kind = .literal (numeral digits)) ∧
      (2 ^ 63 - 1 < numeral digits → ∃ e d, c.nextToken = .error e d ∧
        e.fault = .outOfRange (String.ofList digits)) := by
  obtain ⟨ch, cs, hFirst⟩ := List.exists_cons_of_ne_nil hne
  have hDigit := hDigits ch (hFirst ▸ List.mem_cons_self)
  have hText : digits ++ rest = ch :: (cs ++ rest) := by rw [hFirst, List.cons_append]
  constructor
  · intro hValue
    have hLexeme : IsLexeme digits (.literal (numeral digits)) rest := by
      refine (isLexeme_literal_iff hText hDigit).mpr ⟨?_, hValue, hApart, rfl⟩
      rw [← hText, takeWhile_digits hDigits hApart]
    exact ⟨_, _, nextToken_of_isLexeme hGap hLexeme hc, rfl⟩
  · intro hLarge
    have hOpen : ¬ ['/', '*'] <+: digits ++ rest := by
      rw [hText]
      rintro ⟨more, hMore⟩
      obtain ⟨rfl, -⟩ := List.cons.inj hMore
      cases hDigit
    have hRest : (c.skip gap.length).rest = digits ++ rest := by rw [rest_skip, hc, List.drop_left]
    have hHead := hRest.trans hText
    have hRead := integer_of_tooLarge hDigits hApart hRest hLarge
    refine ⟨⟨.outOfRange (String.ofList digits), (c.skip gap.length).location⟩,
      (c.skip gap.length).skip digits.length, ?_, rfl⟩
    rw [nextToken, skipGap_append hGap hOpen hc]
    simp only [hHead, lexeme, if_neg (not_isWordStart_of_isDigit hDigit), if_pos hDigit, hRead]

end

theorem exists_nextToken_of_mem {d : Cursor} {ts : List Token} {t : Token}
    (h : c.tokens = .ok ts d) (ht : t ∈ ts) : ∃ n e, (c.skip n).nextToken = .ok t e := by
  fun_induction tokens c generalizing ts d with
  | case1 c e f hNext => cases h
  | case2 c u f hNext hEnd =>
    cases h
    obtain rfl := List.mem_singleton.mp ht
    exact ⟨0, f, hNext⟩
  | case3 c u f hNext hEnd shorter e g hTokens ih => cases h
  | case4 c u f hNext hEnd shorter us g hTokens ih =>
    cases h
    rcases List.mem_cons.mp ht with rfl | hMore
    · exact ⟨0, f, hNext⟩
    · obtain ⟨m, hReached⟩ := advances_nextToken c
      rw [hNext] at hReached
      obtain ⟨n, e, hFound⟩ := ih hTokens hMore
      obtain rfl : f = c.skip m := hReached
      rw [skip_skip] at hFound
      exact ⟨m + n, e, hFound⟩

end Cursor

namespace Scanner

/-- A token of the scanner: the next one, whether the scanner has ended or not, or one of all that
remain. -/
inductive HandsOut (s : Scanner) (t : Token) : Prop where
  | next : s.next?.1 = some (.ok t) → HandsOut s t
  | nextToken : (s.run Cursor.nextToken).1 = .ok t → HandsOut s t
  | tokenize {ts : List Token} : s.tokenize.1 = .ok ts → t ∈ ts → HandsOut s t

theorem fst_run {α : Type} (s : Scanner) (scan : Scan α) :
    (s.run scan).1 = match scan s.cursor with
      | .ok a _ => .ok a
      | .error e _ => .error e := by
  unfold run
  cases scan s.cursor <;> rfl

theorem exists_of_run {α : Type} {s : Scanner} {scan : Scan α} {a : α}
    (h : (s.run scan).1 = .ok a) : ∃ d, scan s.cursor = .ok a d := by
  rw [fst_run] at h
  cases hScan : scan s.cursor with
  | ok b d =>
    rw [hScan] at h
    cases h
    exact ⟨d, rfl⟩
  | error e d =>
    rw [hScan] at h
    cases h

/-- Every token is read at the place of the scanner or further on. -/
theorem HandsOut.exists_nextToken {s : Scanner} {t : Token} (h : s.HandsOut t) :
    ∃ n d, (s.cursor.skip n).nextToken = .ok t d := by
  cases h with
  | next hNext =>
    rw [Scanner.next?] at hNext
    split at hNext
    · cases hNext
    · split at hNext
      · next u s' hRun =>
        cases hNext
        obtain ⟨d, hFound⟩ := exists_of_run (congrArg Prod.fst hRun)
        exact ⟨0, d, hFound⟩
      · cases hNext
  | nextToken hRun =>
    obtain ⟨d, hFound⟩ := exists_of_run hRun
    exact ⟨0, d, hFound⟩
  | tokenize hTokens hMem =>
    rw [Scanner.tokenize] at hTokens
    split at hTokens
    · cases hTokens
      cases hMem
    · obtain ⟨d, hAll⟩ := exists_of_run hTokens
      exact Cursor.exists_nextToken_of_mem hAll hMem

/-- **Integer constants.** Every literal that a scanner hands out, whatever it was asked for
before, covers a string of digits and has their value in base ten. This is the value of the
constant in C exactly if no superfluous zero stands in front or the value is below eight. Where a
string of digits stands, it becomes a literal unless it is larger than `2 ^ 63 - 1`, which is the
only reason for a fault; whether it is a constant in C makes no difference. -/
theorem literal_constant (file source : String) (calls : List Call) :
    let s := (ofSource file source).afterAll calls
    (∀ t value, s.HandsOut t → t.kind = .literal value →
      let digits := t.span.covered source.toList
      (digits ≠ [] ∧ ∀ d ∈ digits, d.isDigit) ∧ value = numeral digits ∧
        (constantValue? digits = some (numeral digits) ↔
          ¬ HasLeadingZero digits ∨ numeral digits < 8)) ∧
    ∀ gap digits rest, s.cursor.rest = gap ++ (digits ++ rest) → IsGap gap (digits ++ rest) →
      digits ≠ [] → (∀ d ∈ digits, d.isDigit) →
      (∀ c, rest.head? = some c → ¬ isWordRest c) →
      ((∃ t, (s.run Cursor.nextToken).1 = .ok t ∧ t.kind = .literal (numeral digits)) ↔
        numeral digits ≤ 2 ^ 63 - 1) ∧
      ((∃ e, (s.run Cursor.nextToken).1 = .error e) ↔ 2 ^ 63 - 1 < numeral digits) := by
  intro s
  have hReads := (reads_ofSource file source).afterAll calls
  refine ⟨?_, ?_⟩
  · intro t value hHands ht digits
    obtain ⟨n, d, hNext⟩ := hHands.exists_nextToken
    have hSpells := (hReads.standsIn.skip n).spells hNext (by rw [ht]; simp)
    rw [ht] at hSpells
    obtain ⟨hne, hDigits, hValue⟩ := hSpells.digits
    exact ⟨⟨hne, hDigits⟩, hValue, constantValue?_eq_numeral_iff hDigits⟩
  · intro gap digits rest hRest hGap hne hDigits hApart
    obtain ⟨hSmall, hLarge⟩ := Cursor.nextToken_digits hDigits hApart hGap hRest hne
    rw [fst_run]
    by_cases hValue : numeral digits ≤ 2 ^ 63 - 1
    · obtain ⟨t, d, hNext, ht⟩ := hSmall hValue
      rw [hNext]
      refine ⟨iff_of_true ⟨t, rfl, ht⟩ hValue, iff_of_false ?_ (Nat.not_lt.mpr hValue)⟩
      rintro ⟨e, he⟩
      cases he
    · obtain ⟨e, d, hNext, -⟩ := hLarge (Nat.lt_of_not_le hValue)
      rw [hNext]
      refine ⟨iff_of_false ?_ hValue, iff_of_true ⟨e, rfl⟩ (Nat.lt_of_not_le hValue)⟩
      rintro ⟨t, ht, -⟩
      cases ht

/-- Two superfluous zeros in front of a seven, and a string of digits that is too large. -/
theorem literal_constant_seven :
    (∃ t, ((ofSource "f.c" " 007").afterAll []).HandsOut t ∧ t.kind = .literal 7 ∧
      constantValue? (t.span.covered " 007".toList) = some 7) ∧
    ∃ e, (((ofSource "f.c" "9223372036854775808").afterAll []).run Cursor.nextToken).1 =
      .error e := by
  constructor
  · let t : Token := ⟨.literal 7, ⟨"f.c", 1, 2, 1⟩, ⟨"f.c", 1, 5, 4⟩⟩
    have hHands : ((ofSource "f.c" " 007").afterAll []).HandsOut t :=
      .next (by decide +kernel)
    obtain ⟨-, -, hIff⟩ := (literal_constant "f.c" " 007" []).1 t 7 hHands rfl
    exact ⟨t, hHands, rfl, hIff.mpr (.inr (by decide))⟩
  · have hText : "9223372036854775808".toList = [] ++ ("9223372036854775808".toList ++ []) := by
      rw [List.append_nil, List.nil_append]
    have hGap : IsGap [] ("9223372036854775808".toList ++ []) := Gap.isGap_of_absent (by decide)
    have hDigits : ∀ d ∈ "9223372036854775808".toList, d.isDigit := List.all_eq_true.mp rfl
    have hLarge : 2 ^ 63 - 1 < numeral "9223372036854775808".toList := by decide
    obtain ⟨-, hFault⟩ := (literal_constant "f.c" "9223372036854775808" []).2 [] _ [] hText hGap
      (by decide) hDigits (by simp)
    exact hFault.mpr hLarge

/-- What C reads in base eight becomes another number, and what is no constant in C becomes a
literal as well. -/
theorem literal_not_constant :
    (∃ t, (ofSource "<input>" "010").HandsOut t ∧ t.kind = .literal 10 ∧
      constantValue? (t.span.covered "010".toList) = some 8) ∧
    ∃ t, (ofSource "<input>" "08").HandsOut t ∧ t.kind = .literal 8 ∧
      constantValue? (t.span.covered "08".toList) = none := by
  let start : Location := ⟨"<input>", 1, 1, 0⟩
  exact ⟨⟨⟨.literal 10, start, ⟨"<input>", 1, 4, 3⟩⟩, .next (by decide +kernel), rfl, by decide⟩,
    ⟨⟨.literal 8, start, ⟨"<input>", 1, 3, 2⟩⟩, .next (by decide +kernel), rfl, by decide⟩⟩

end Scanner

end CToGo.Source
