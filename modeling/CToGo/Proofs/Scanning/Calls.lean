import CToGo.Proofs.Scanning.Offsets

/-!
# Calls of a scanner

A scanner can be asked for one token, for all of them, for a literal or to pass a comment, in any
order and wherever it stands. Each of these moves its cursor over some characters, also when it
fails, so that the counts of the cursor stay those of its place in the text. Only a restart moves
it back, and only a restart makes a scanner that has ended hand out tokens again.

* `Cursor.Advances`: a result that leaves the cursor some characters further on, a fault included.
* `Cursor.StandsIn`: a cursor whose location is that behind the characters already read.
* `Scanner.Onward`: what every call but a restart does. `Scanner.Reads`: what all calls keep.
* `Scanner.steady_afterAll`: **the place, the course and the end of a scanner after any calls.**
-/

namespace CToGo.Source

namespace Cursor

/-! ## How far a computation moves its cursor -/

section Advances

variable {α : Type}

/-- Where a computation has left its cursor, whether it succeeded or failed. -/
def reached : EStateM.Result LexicalError Cursor α → Cursor
  | .ok _ d => d
  | .error _ d => d

/-- The result leaves the cursor some characters further on, whether it is a success or not. -/
def Advances (c : Cursor) (r : EStateM.Result LexicalError Cursor α) : Prop :=
  ∃ n, reached r = c.skip n

theorem Advances.of_skip {n : Nat} {c : Cursor} {r : EStateM.Result LexicalError Cursor α}
    (h : (c.skip n).Advances r) : c.Advances r := by
  obtain ⟨m, hReached⟩ := h
  exact ⟨n + m, hReached.trans (skip_skip n m c)⟩

/-- One computation after another. -/
theorem Advances.trans {β : Type} {a : β} {c d : Cursor}
    {r : EStateM.Result LexicalError Cursor α}
    (h : c.Advances (.ok a d : EStateM.Result LexicalError Cursor β)) (hMore : d.Advances r) :
    c.Advances r := by
  obtain ⟨n, hReached⟩ := h
  obtain rfl : d = c.skip n := hReached
  exact hMore.of_skip

end Advances

theorem advances_word (c : Cursor) : c.Advances (word c) :=
  ⟨(c.rest.takeWhile isWordRest).length, rfl⟩

theorem advances_integer (c : Cursor) : c.Advances (integer c) := by
  refine ⟨(c.rest.takeWhile Char.isDigit).length, ?_⟩
  fun_cases integer c <;> rfl

theorem advances_lexeme (ch : Char) (c : Cursor) : c.Advances (lexeme ch c) := by
  fun_cases lexeme ch c with
  | case1 => exact advances_word c
  | case2 => exact advances_integer c
  | case3 _ _ s => exact ⟨s.width, rfl⟩
  | case4 => exact ⟨0, rfl⟩

theorem advances_skipLineComment (c : Cursor) : c.Advances (skipLineComment c) := ⟨_, rfl⟩

theorem advances_skipBlockComment (c : Cursor) : c.Advances (skipBlockComment c) := by
  fun_cases skipBlockComment c with
  | case1 n => exact ⟨n + 2, rfl⟩
  | case2 => exact ⟨c.rest.length, rfl⟩

theorem advances_skipGap (c : Cursor) : c.Advances (skipGap c) := by
  fun_induction skipGap c with
  | case1 c => exact ⟨0, rfl⟩
  | case2 c n _ _ ih => exact ih.of_skip
  | case3 c => exact ⟨c.rest.length, rfl⟩

theorem advances_nextToken (c : Cursor) : c.Advances (nextToken c) := by
  have hGap := advances_skipGap c
  fun_cases nextToken c with
  | case1 e d hSkip =>
    rw [hSkip] at hGap
    exact hGap
  | case2 u d hSkip =>
    rw [hSkip] at hGap
    exact hGap
  | case3 u d hSkip ch rest hRest e f hLexeme =>
    rw [hSkip] at hGap
    have hFault := advances_lexeme ch d
    rw [hLexeme] at hFault
    exact hGap.trans hFault
  | case4 u d hSkip ch rest hRest kind f hLexeme =>
    rw [hSkip] at hGap
    have hFound := advances_lexeme ch d
    rw [hLexeme] at hFound
    exact hGap.trans hFound

theorem advances_tokens (c : Cursor) : c.Advances (tokens c) := by
  have hFirst := advances_nextToken c
  fun_induction tokens c with
  | case1 c e d hNext =>
    rw [hNext] at hFirst
    exact hFirst
  | case2 c t d hNext hEnd =>
    rw [hNext] at hFirst
    exact hFirst
  | case3 c t d hNext hEnd shorter e f hTokens ih =>
    -- The fault is behind the first token.
    rw [hNext] at hFirst
    have hFault := ih (advances_nextToken d)
    rw [hTokens] at hFault
    exact hFirst.trans hFault
  | case4 c t d hNext hEnd shorter ts f hTokens ih =>
    rw [hNext] at hFirst
    have hMore := ih (advances_nextToken d)
    rw [hTokens] at hMore
    exact hFirst.trans hMore

/-! ## The place of a cursor -/

/-- The characters already read and those that follow make up the text, and the location is
that behind the former. -/
def StandsIn (file : String) (text : List Char) (c : Cursor) : Prop :=
  ∃ before, text = before ++ c.rest ∧ c.location = (Location.start file).past before

section StandsIn

variable {file : String} {text : List Char} {c : Cursor}

theorem standsIn_start (file : String) (text : List Char) : (start file text).StandsIn file text :=
  ⟨[], rfl, rfl⟩

theorem StandsIn.next (h : c.StandsIn file text) : c.next.StandsIn file text := by
  obtain ⟨before, hText, hLocation⟩ := h
  unfold Cursor.next
  split
  · exact ⟨before, hText, hLocation⟩
  · next ch rest hRest =>
    refine ⟨before ++ [ch], ?_, ?_⟩
    · rw [hText, hRest, List.append_assoc, List.singleton_append]
    · rw [hLocation, Location.past_append]
      rfl

theorem StandsIn.skip (h : c.StandsIn file text) (n : Nat) :
    (c.skip n).StandsIn file text := by
  induction n generalizing c with
  | zero => exact h
  | succ n ih => exact ih h.next

theorem StandsIn.fits (h : c.StandsIn file text) : c.location.Fits file text := by
  obtain ⟨before, hText, hLocation⟩ := h
  rw [hText, hLocation]
  exact Location.fits_past_start file before c.rest

theorem StandsIn.rest_eq (h : c.StandsIn file text) :
    c.rest = text.drop c.location.offset := by
  obtain ⟨before, hText, hLocation⟩ := h
  have hOffset := (Location.past_fields (Location.start file) before).2.2
  rw [← hLocation, Location.start, Nat.zero_add] at hOffset
  rw [hOffset, hText, List.drop_left]

theorem StandsIn.file_eq (h : c.StandsIn file text) : c.location.file = file := by
  rw [h.fits.eq_ofOffset, Location.ofOffset]

end StandsIn

theorem offset_le_offset_skip (n : Nat) (c : Cursor) :
    c.location.offset ≤ (c.skip n).location.offset := by
  induction n generalizing c with
  | zero => exact Nat.le_refl _
  | succ n ih =>
    have hNext : c.location.offset ≤ c.next.location.offset := by
      unfold Cursor.next
      split
      · exact Nat.le_refl _
      · rw [Location.offset_after]
        exact Nat.le_succ _
    exact hNext.trans (ih c.next)

end Cursor

/-- The line and the column of a location of the text are counted from the characters before it,
and both are numbers of 32 bits. -/
structure Location.Counted (text : List Char) (l : Location) : Prop where
  offset_le : l.offset ≤ text.length
  line_eq : l.line = 1 + (text.take l.offset).count '\n'
  column_eq : l.column = 1 + ((text.take l.offset).reverse.takeWhile (· ≠ '\n')).length
  line_lt : l.line < 2 ^ 32
  column_lt : l.column < 2 ^ 32

theorem Location.Fits.counted {file : String} {text : List Char} {l : Location}
    (h : l.Fits file text) (hLength : text.length < 2 ^ 32 - 1) : l.Counted text := by
  have hLine : l.line = 1 + (text.take l.offset).count '\n' := by
    rw [Nat.add_comm]
    exact congrArg Location.line h.eq_ofOffset
  have hColumn : l.column = 1 + ((text.take l.offset).reverse.takeWhile (· ≠ '\n')).length := by
    rw [Nat.add_comm]
    exact congrArg Location.column h.eq_ofOffset
  have hBefore : (text.take l.offset).length ≤ text.length := List.length_take_le' _ _
  refine ⟨h.offset_le, hLine, hColumn, ?_, ?_⟩
  · have hCount := List.count_le_length (a := '\n') (l := text.take l.offset)
    omega
  · have hWhile := (List.takeWhile_sublist (l := (text.take l.offset).reverse)
      (· ≠ '\n')).length_le
    rw [List.length_reverse] at hWhile
    omega

namespace Scanner

/-! ## Calls -/

/-- What a scanner can be asked for. -/
inductive Call where
  /-- The next token or fault, unless the scanner has ended. -/
  | next
  /-- The next token, whether the scanner has ended or not. -/
  | nextToken
  /-- All remaining tokens, unless the scanner has ended. -/
  | tokenize
  /-- An integer literal. -/
  | integer
  /-- To pass the rest of a line. -/
  | lineComment
  /-- To pass all up to the end of a block comment. -/
  | blockComment
  /-- To begin again. -/
  | reset
deriving DecidableEq, Inhabited, Repr

/-- The scanner after a call, whether the call succeeds or fails. -/
def after (s : Scanner) : Call → Scanner
  | .next => s.next?.2
  | .nextToken => (s.run Cursor.nextToken).2
  | .tokenize => s.tokenize.2
  | .integer => (s.run Cursor.integer).2
  | .lineComment => (s.run Cursor.skipLineComment).2
  | .blockComment => (s.run Cursor.skipBlockComment).2
  | .reset => s.reset

/-- The scanner after some calls, the first one first. -/
def afterAll (s : Scanner) (calls : List Call) : Scanner := calls.foldl after s

/-- The later scanner stands some characters further on in the same text, and it has ended if
the earlier one had. -/
structure Onward (s s' : Scanner) : Prop where
  text_eq : s'.text = s.text
  cursor_eq : ∃ n, s'.cursor = s.cursor.skip n
  ended : s.ended = true → s'.ended = true

theorem Onward.refl (s : Scanner) : Onward s s := ⟨rfl, ⟨0, rfl⟩, id⟩

theorem Onward.trans {s t u : Scanner} (h : Onward s t) (hMore : Onward t u) : Onward s u := by
  obtain ⟨m, hFirst⟩ := h.cursor_eq
  obtain ⟨n, hSecond⟩ := hMore.cursor_eq
  refine ⟨hMore.text_eq.trans h.text_eq, ⟨m + n, ?_⟩, fun hEnded => hMore.ended (h.ended hEnded)⟩
  rw [hSecond, hFirst, Cursor.skip_skip]

/-- To end where one stands is to go on. -/
theorem Onward.withEnded {s s' : Scanner} (h : Onward s s') {ended : Bool}
    (hEnded : s.ended = true → ended = true) : Onward s { s' with ended := ended } :=
  ⟨h.text_eq, h.cursor_eq, hEnded⟩

theorem onward_run {α : Type} (s : Scanner) {scan : Scan α}
    (h : s.cursor.Advances (scan s.cursor)) : Onward s (s.run scan).2 := by
  obtain ⟨n, hReached⟩ := h
  unfold run
  cases hScan : scan s.cursor with
  | ok a c =>
    rw [hScan] at hReached
    exact ⟨rfl, ⟨n, hReached⟩, id⟩
  | error e c =>
    rw [hScan] at hReached
    exact ⟨rfl, ⟨n, hReached⟩, id⟩

theorem onward_next (s : Scanner) : Onward s s.next?.2 := by
  have hRun := onward_run s (Cursor.advances_nextToken s.cursor)
  fun_cases next? s with
  | case1 => exact Onward.refl s
  | case2 hOpen t s' hNext =>
    -- The mark of the end is set anew, but only where it was not set before.
    rw [hNext] at hRun
    exact hRun.withEnded fun hEnded => absurd hEnded hOpen
  | case3 hOpen e s' hNext =>
    rw [hNext] at hRun
    exact hRun.withEnded fun _ => rfl

theorem onward_tokenize (s : Scanner) : Onward s s.tokenize.2 := by
  have hRun := onward_run s (Cursor.advances_tokens s.cursor)
  fun_cases tokenize s with
  | case1 => exact Onward.refl s
  | case2 hOpen result s' hTokens =>
    rw [hTokens] at hRun
    exact hRun.withEnded fun _ => rfl

/-- Every call but a restart goes on. -/
theorem onward_after (s : Scanner) {call : Call} (h : call ≠ .reset) :
    Onward s (s.after call) := by
  cases call with
  | next => exact onward_next s
  | nextToken => exact onward_run s (Cursor.advances_nextToken s.cursor)
  | tokenize => exact onward_tokenize s
  | integer => exact onward_run s (Cursor.advances_integer s.cursor)
  | lineComment => exact onward_run s (Cursor.advances_skipLineComment s.cursor)
  | blockComment => exact onward_run s (Cursor.advances_skipBlockComment s.cursor)
  | reset => exact absurd rfl h

theorem onward_afterAll (s : Scanner) {calls : List Call} (h : .reset ∉ calls) :
    Onward s (s.afterAll calls) := by
  induction calls generalizing s with
  | nil => exact Onward.refl s
  | cons call calls ih =>
    obtain ⟨hCall, hCalls⟩ := not_or.mp (mt List.mem_cons.mpr h)
    exact (onward_after s (Ne.symm hCall)).trans (ih (s.after call) hCalls)

/-! ## The end -/

/-- What is handed out last: the end of the file, or a fault. -/
def IsLast : Except LexicalError Token → Prop
  | .ok t => t.kind = .endOfFile
  | .error _ => True

/-- A scanner that has ended hands out nothing before it is restarted. -/
theorem next?_afterAll_of_ended {s : Scanner} (h : s.ended = true) {calls : List Call}
    (hCalls : .reset ∉ calls) : (s.afterAll calls).next?.1 = none := by
  have hEnded := (onward_afterAll s hCalls).ended h
  rw [next?, if_pos hEnded]

theorem ended_of_isLast {s : Scanner} {result : Except LexicalError Token}
    (h : s.next?.1 = some result) (hLast : IsLast result) : (s.after .next).ended = true := by
  rw [after]
  revert h
  fun_cases next? s with
  | case1 hEnded => exact fun _ => hEnded
  | case2 hOpen t s' hNext =>
    intro h
    cases h
    exact beq_iff_eq.mpr hLast
  | case3 => exact fun _ => rfl

theorem ended_after_tokenize (s : Scanner) : (s.after .tokenize).ended = true := by
  rw [after]
  fun_cases tokenize s with
  | case1 hEnded => exact hEnded
  | case2 => rfl

/-! ## What all calls keep -/

/-- The scanner reads the text, and its cursor stands in it. -/
structure Reads (file : String) (text : List Char) (s : Scanner) : Prop where
  text_eq : s.text = text
  standsIn : s.cursor.StandsIn file text

theorem reads_ofSource (file source : String) : (ofSource file source).Reads file source.toList :=
  ⟨rfl, Cursor.standsIn_start file source.toList⟩

theorem Reads.onward {file : String} {text : List Char} {s s' : Scanner} (h : s.Reads file text)
    (hOnward : Onward s s') : s'.Reads file text := by
  obtain ⟨n, hCursor⟩ := hOnward.cursor_eq
  refine ⟨hOnward.text_eq.trans h.text_eq, ?_⟩
  rw [hCursor]
  exact h.standsIn.skip n

theorem Reads.reset_eq {file source : String} {s : Scanner} (h : s.Reads file source.toList) :
    s.reset = ofSource file source := by
  rw [reset, ofSource, h.text_eq, h.standsIn.file_eq]

theorem Reads.after {file source : String} {s : Scanner} (h : s.Reads file source.toList)
    (call : Call) : (s.after call).Reads file source.toList := by
  by_cases hReset : call = .reset
  · -- The file of the first location is taken from the place that is left.
    subst hReset
    rw [Scanner.after, h.reset_eq]
    exact reads_ofSource file source
  · exact h.onward (onward_after s hReset)

theorem Reads.afterAll {file source : String} {s : Scanner} (h : s.Reads file source.toList)
    (calls : List Call) : (s.afterAll calls).Reads file source.toList := by
  induction calls generalizing s with
  | nil => exact h
  | cons call calls ih => exact ih (h.after call)

/-- What holds of a scanner of a source text whatever it has been asked for. -/
structure Steady (file source : String) (s : Scanner) : Prop where
  /-- The line and the column are those of the place. -/
  counted : s.cursor.location.Counted source.toList
  /-- What is still to be read is what stands behind the place. -/
  rest_eq : s.cursor.rest = source.toList.drop s.cursor.location.offset
  /-- Every call but a restart passes some characters one by one, none moves back, and no count
  leaves its 32 bits on the way. -/
  onward : ∀ call, call ≠ .reset → ∃ n, (s.after call).cursor = s.cursor.skip n ∧
    s.cursor.location.offset ≤ (s.after call).cursor.location.offset ∧
    ∀ m ≤ n, (s.cursor.skip m).location.Counted source.toList
  /-- Behind the end of the file or a fault nothing is handed out before a restart. -/
  ended : ∀ result, s.next?.1 = some result → IsLast result →
    ∀ more, .reset ∉ more → ((s.after .next).afterAll more).next?.1 = none
  /-- Nor behind all tokens or the first fault among them. -/
  exhausted : ∀ more, .reset ∉ more → ((s.after .tokenize).afterAll more).next?.1 = none
  /-- A restart leads back to the beginning. -/
  reset_eq : s.after .reset = ofSource file source

/-- Whatever calls a scanner has answered, failing or not, its place is counted right, it has
moved back in a restart only, and once it has ended it hands out nothing before a restart. -/
theorem steady_afterAll (file source : String) (h : source.length < 2 ^ 32 - 1)
    (calls : List Call) : ((ofSource file source).afterAll calls).Steady file source := by
  have hReads := (reads_ofSource file source).afterAll calls
  have hLength : source.toList.length < 2 ^ 32 - 1 := by
    rw [String.length_toList]
    exact h
  refine
    { counted := hReads.standsIn.fits.counted hLength
      rest_eq := hReads.standsIn.rest_eq
      onward := ?_
      ended := ?_
      exhausted := ?_
      reset_eq := hReads.reset_eq }
  · intro call hCall
    obtain ⟨n, hCursor⟩ := (onward_after _ hCall).cursor_eq
    refine ⟨n, hCursor, ?_, ?_⟩
    · rw [hCursor]
      exact Cursor.offset_le_offset_skip n _
    · intro m _
      exact (hReads.standsIn.skip m).fits.counted hLength
  · intro result hNext hLast more hMore
    exact next?_afterAll_of_ended (ended_of_isLast hNext hLast) hMore
  · intro more hMore
    exact next?_afterAll_of_ended (ended_after_tokenize _) hMore

/-- Behind a word and a line feed stands a character that begins no token. The scanner hands out
the fault; it then fails to read a comment and a literal, and it passes the line, but it hands
out nothing more. -/
theorem steady_afterAll_strayCharacter :
    "x\n?1z".length < 2 ^ 32 - 1 ∧
      ((ofSource "f.c" "x\n?1z").afterAll [.integer, .next]).Steady "f.c" "x\n?1z" ∧
      ((ofSource "f.c" "x\n?1z").afterAll [.integer, .next]).next?.1 =
        some (.error ⟨.strayCharacter '?', ⟨"f.c", 2, 1, 2⟩⟩) ∧
      ((ofSource "f.c" "x\n?1z").afterAll
        ([.integer, .next] ++ .next :: [.nextToken, .integer, .lineComment, .blockComment])).next?.1
        = none := by
  have hLength : "x\n?1z".length < 2 ^ 32 - 1 := by decide
  have hSteady := steady_afterAll "f.c" "x\n?1z" hLength [.integer, .next]
  have hNext : ((ofSource "f.c" "x\n?1z").afterAll [.integer, .next]).next?.1 =
      some (.error ⟨.strayCharacter '?', ⟨"f.c", 2, 1, 2⟩⟩) := by decide +kernel
  exact ⟨hLength, hSteady, hNext, hSteady.ended _ hNext trivial _ (by decide)⟩

end Scanner

end CToGo.Source
