import CToGo.Proofs.Locations.Moved
import CToGo.Proofs.Scanning.Tokens

/-!
# The tokens of joined texts

Two texts are joined by a line feed. The first keeps its tokens, since no token goes on behind
a line feed and every comment is either closed or ends there. The second keeps its tokens as
well, at places that are moved by as many lines and characters as stand in front of it.

* `Location.past`: the location behind a text. `Location.shift`: the same column further on.
* `IsGap.append_newline`, `IsLexeme.append_newline`: a line feed and what follows it change
  nothing before it.
* `tokenize_joined`: the tokens of two joined texts.
-/

namespace CToGo.Source

/-! ## Locations -/

namespace Location

/-- The location behind a text that begins at `l`. -/
def past (l : Location) (text : List Char) : Location := text.foldl after l

/-- So many lines and characters further on, in the same column. -/
def shift (lines characters : Nat) (l : Location) : Location :=
  { l with line := l.line + lines, offset := l.offset + characters }

theorem past_append (l : Location) (text more : List Char) :
    l.past (text ++ more) = (l.past text).past more := List.foldl_append

theorem shift_after (lines characters : Nat) (l : Location) (c : Char) :
    (l.after c).shift lines characters = (l.shift lines characters).after c := by
  unfold after
  split <;> simp [shift, Nat.add_right_comm]

theorem past_fields (l : Location) (text : List Char) :
    (l.past text).file = l.file ∧ (l.past text).line = l.line + text.count '\n' ∧
      (l.past text).offset = l.offset + text.length := by
  induction text generalizing l with
  | nil => exact ⟨rfl, rfl, rfl⟩
  | cons c text ih =>
    obtain ⟨hFile, hLine, hOffset⟩ := ih (l.after c)
    have hStep : (l.after c).line = l.line + if c = '\n' then 1 else 0 := by
      unfold after
      split <;> rfl
    refine ⟨hFile.trans (l.file_after c), ?_, ?_⟩
    · rw [past, List.foldl_cons, ← past, hLine, hStep, List.count_cons]
      simp only [beq_iff_eq]
      omega
    · rw [past, List.foldl_cons, ← past, hOffset, offset_after, List.length_cons]
      omega

/-- Behind a text and a line feed begins a line, as many lines and characters further on as the
text has. -/
theorem after_past_start (file : String) (text : List Char) :
    ((start file).past text).after '\n' =
      (start file).shift (text.count '\n' + 1) (text.length + 1) := by
  obtain ⟨hFile, hLine, hOffset⟩ := past_fields (start file) text
  simp only [after, if_true, shift, start] at hFile hLine hOffset ⊢
  simp only [hFile, hLine, hOffset, Location.mk.injEq, true_and]
  omega

end Location

/-! ## Line feeds -/

theorem isBlank_newline : isBlank '\n' := by decide

theorem not_isWordRest_newline : ¬ isWordRest '\n' := by decide

theorem Piece.append_newline {piece rest : List Char} (h : Piece piece rest)
    (more : List Char) : Piece piece (rest ++ '\n' :: more) := by
  cases h with
  | blank _ hBlank => exact .blank _ hBlank
  | line hBody hRest =>
    refine .line hBody (.inr ?_)
    rcases hRest with rfl | hHead
    · rfl
    · rw [List.head?_append, hHead]
      rfl
  | block _ hBody => exact .block _ hBody

theorem Run.append_newline {gap rest : List Char} (h : Run gap rest) (more : List Char) :
    Run gap (rest ++ '\n' :: more) := by
  induction h with
  | nil rest => exact .nil _
  | cons hPiece _ ih =>
    refine .cons ?_ ih
    rw [← List.append_assoc]
    exact hPiece.append_newline more

/-- Where `//` stands, there is a comment. -/
theorem exists_piece_of_slashes {text : List Char} (h : ['/', '/'] <+: text) :
    ∃ piece rest, text = piece ++ rest ∧ Piece piece rest := by
  obtain ⟨rest, rfl⟩ := h
  have hRead : Gap.read ('/' :: '/' :: rest) = .piece (lineWidth rest + 2) := by simp [Gap.read]
  obtain ⟨piece, more, hText, -, hPiece⟩ := Gap.exists_piece hRead
  exact ⟨piece, more, hText, hPiece⟩

theorem IsLexeme.append_newline {text rest : List Char} {kind : TokenKind}
    (h : IsLexeme text kind rest) (more : List Char) :
    IsLexeme text kind (rest ++ '\n' :: more) where
  spells := h.spells
  longest := by
    intro other kind' hOther hSpells
    rw [← List.append_assoc] at hOther
    have hInside := hSpells.not_mem_of_isBlank isBlank_newline
    exact h.longest other kind' (prefix_of_prefix_of_not_mem hOther hInside) hSpells
  apart := by
    intro value hKind c hc
    cases rest with
    | nil =>
      cases hc
      exact not_isWordRest_newline
    | cons d rest => exact h.apart value hKind c hc
  noComment := by
    intro hOpen
    rw [← List.append_assoc] at hOpen
    exact h.noComment (prefix_of_prefix_of_not_mem hOpen (by decide))

/-- A gap in front of a lexeme is as long as before. -/
theorem IsGap.append_newline {gap text rest : List Char} {kind : TokenKind}
    (h : IsGap gap (text ++ rest)) (hLexeme : IsLexeme text kind rest) (more : List Char) :
    IsGap gap (text ++ (rest ++ '\n' :: more)) := by
  rw [← List.append_assoc]
  refine ⟨h.run.append_newline more, ?_⟩
  intro piece after hText hPiece
  cases hPiece with
  | @blank c _ hBlank =>
    obtain ⟨d, cs, rfl⟩ := List.exists_cons_of_ne_nil hLexeme.spells.ne_nil
    obtain ⟨rfl, -⟩ := List.cons.inj hText
    exact h.maximal [d] (cs ++ rest) rfl (.blank _ hBlank)
  | @line body _ _ _ =>
    have hSlashes : ['/', '/'] <+: (text ++ rest) ++ '\n' :: more := ⟨body ++ after, hText.symm⟩
    obtain ⟨piece, before, hBefore, hPiece⟩ :=
      exists_piece_of_slashes (prefix_of_prefix_of_not_mem hSlashes (by decide))
    exact h.maximal piece before hBefore hPiece
  | @block body _ _ =>
    have hOpen : ['/', '*'] <+: (text ++ rest) ++ '\n' :: more :=
      ⟨body ++ ['*', '/'] ++ after, by rw [hText]; simp⟩
    exact hLexeme.noComment (prefix_of_prefix_of_not_mem hOpen (by decide))

/-! ## Cursors -/

namespace Cursor

theorem skip_append (l : Location) (text rest : List Char) :
    (⟨l, text ++ rest⟩ : Cursor).skip text.length = ⟨l.past text, rest⟩ := by
  induction text generalizing l with
  | nil => rfl
  | cons c text ih => exact ih (l.after c)

/-- Blanks and comments in front are skipped first. -/
theorem skipGap_run {gap rest : List Char} (h : Run gap rest) (l : Location) :
    (⟨l, gap ++ rest⟩ : Cursor).skipGap = (⟨l.past gap, rest⟩ : Cursor).skipGap := by
  induction h generalizing l with
  | nil rest => rfl
  | @cons piece run rest hPiece _ ih =>
    rw [List.append_assoc, skipGap_of_piece (Gap.read_append hPiece), skip_append, ih,
      Location.past_append]

theorem tokens_congr {c d : Cursor} (h : c.nextToken = d.nextToken) : c.tokens = d.tokens := by
  cases hNext : d.nextToken with
  | error e f =>
    have hFault : ∀ c : Cursor, c.nextToken = .error e f → c.tokens = .error e f := by
      intro c hc
      unfold tokens
      split
      · next hFound =>
        rw [hc] at hFound
        cases hFound
        rfl
      · next hFound => simp [hc] at hFound
    rw [hFault c (h.trans hNext), hFault d hNext]
  | ok t f =>
    by_cases hEnd : t.kind = .endOfFile
    · rw [tokens_of_endOfFile (h.trans hNext) hEnd, tokens_of_endOfFile hNext hEnd]
    · rw [tokens_of_nextToken (h.trans hNext) hEnd, tokens_of_nextToken hNext hEnd]

theorem tokens_run {gap rest : List Char} (h : Run gap rest) (l : Location) :
    (⟨l, gap ++ rest⟩ : Cursor).tokens = (⟨l.past gap, rest⟩ : Cursor).tokens := by
  refine tokens_congr ?_
  rw [nextToken, nextToken, skipGap_run h]

/-- The tokens of a text that holds nothing but a gap. -/
theorem tokens_gap {gap : List Char} (h : IsGap gap []) (l : Location) :
    (⟨l, gap⟩ : Cursor).tokens =
      .ok [⟨.endOfFile, .point (l.past gap)⟩] ⟨l.past gap, []⟩ := by
  have hSkip : (⟨l, gap⟩ : Cursor).skip gap.length = ⟨l.past gap, []⟩ := by
    have hAppend := skip_append l gap []
    rwa [List.append_nil] at hAppend
  have hNext := nextToken_of_isGap (c := ⟨l, gap⟩) h
  rw [hSkip] at hNext
  exact tokens_of_endOfFile hNext rfl

/-- The first token of a text that goes on with a gap and a lexeme, and then the others. -/
theorem tokens_lexeme {gap text rest : List Char} {kind : TokenKind} {ts : List Token}
    {d : Cursor} {l : Location} (hGap : IsGap gap (text ++ rest))
    (hLexeme : IsLexeme text kind rest)
    (hRest : (⟨(l.past gap).past text, rest⟩ : Cursor).tokens = .ok ts d) :
    (⟨l, gap ++ (text ++ rest)⟩ : Cursor).tokens =
      .ok (⟨kind, l.past gap, (l.past gap).past text⟩ :: ts) d := by
  have hStart := skip_append l gap (text ++ rest)
  have hStop : (⟨l, gap ++ (text ++ rest)⟩ : Cursor).skip (gap.length + text.length) =
      ⟨(l.past gap).past text, rest⟩ := by
    rw [← skip_skip, hStart, skip_append]
  have hNext := nextToken_of_isLexeme hGap hLexeme (c := ⟨l, gap ++ (text ++ rest)⟩) rfl
  rw [hStart, hStop] at hNext
  rw [tokens_of_nextToken hNext hLexeme.spells.ne_endOfFile, hRest]

/-- The tokens of a text are those in front of the end of the file, and these are followed by
whatever tokens a line feed and more text bring. -/
theorem tokens_append {n : Nat} {text : List Char} {ls : List Lexeme} (h : Laid n text ls)
    (l : Location) (more : List Char) :
    ∃ init, (∀ t ∈ init, t.kind ≠ .endOfFile) ∧
      (⟨l, text⟩ : Cursor).tokens =
        .ok (init ++ [⟨.endOfFile, .point (l.past text)⟩]) ⟨l.past text, []⟩ ∧
      ∀ ts d, (⟨l.past text, '\n' :: more⟩ : Cursor).tokens = .ok ts d →
        (⟨l, text ++ '\n' :: more⟩ : Cursor).tokens = .ok (init ++ ts) d := by
  induction h generalizing l with
  | @last n gap hGap =>
    refine ⟨[], by simp, tokens_gap hGap l, ?_⟩
    intro ts d hMore
    have hRun : Run gap ('\n' :: more) := hGap.run.append_newline more
    rwa [tokens_run hRun]
  | @lexeme n gap text rest kind ls hGap hLexeme _ ih =>
    obtain ⟨init, hInit, hTokens, hJoined⟩ := ih ((l.past gap).past text)
    have hPast : l.past (gap ++ (text ++ rest)) = ((l.past gap).past text).past rest := by
      rw [Location.past_append, Location.past_append]
    refine ⟨⟨kind, l.past gap, (l.past gap).past text⟩ :: init, ?_, ?_, ?_⟩
    · exact List.forall_mem_cons.mpr ⟨hLexeme.spells.ne_endOfFile, hInit⟩
    · rw [hPast]
      exact tokens_lexeme hGap hLexeme hTokens
    · intro ts d hMore
      rw [hPast] at hMore
      rw [List.append_assoc, List.append_assoc]
      exact tokens_lexeme (hGap.append_newline hLexeme more) (hLexeme.append_newline more)
        (hJoined ts d hMore)

/-- The tokens of a text that begins somewhere else stand somewhere else. -/
theorem tokens_move {σ : Location → Location} (hσ : ∀ l c, σ (l.after c) = (σ l).after c)
    {n : Nat} {text : List Char} {ls : List Lexeme} (h : Laid n text ls) (l : Location) :
    ∃ ts d, (⟨l, text⟩ : Cursor).tokens = .ok ts d ∧
      (⟨σ l, text⟩ : Cursor).tokens = .ok (ts.map (Token.move σ)) ⟨σ d.location, d.rest⟩ := by
  have hPast : ∀ (l : Location) (text : List Char), σ (l.past text) = (σ l).past text := by
    intro l text
    induction text generalizing l with
    | nil => rfl
    | cons c text ih => rw [Location.past, List.foldl_cons, ← Location.past, ih, hσ]; rfl
  induction h generalizing l with
  | @last n gap hGap =>
    refine ⟨_, _, tokens_gap hGap l, ?_⟩
    rw [tokens_gap hGap (σ l), ← hPast]
    rfl
  | @lexeme n gap text rest kind ls hGap hLexeme _ ih =>
    obtain ⟨ts, d, hTokens, hMoved⟩ := ih ((l.past gap).past text)
    rw [hPast, hPast] at hMoved
    refine ⟨_, d, tokens_lexeme hGap hLexeme hTokens, ?_⟩
    rw [tokens_lexeme hGap hLexeme hMoved, List.map_cons]
    simp only [Token.move, Span.move, hPast]

end Cursor

/-! ## Joined texts -/

theorem tokenize_eq_ok {file source : String} {tokens : List Token} :
    tokenize file source = .ok tokens ↔
      ∃ d, (Cursor.start file source.toList).tokens = .ok tokens d := by
  rw [tokenize]
  cases (Cursor.start file source.toList).tokens <;> simp

/-- The tokens of two texts that are joined by a line feed: those of the first up to the end of
the file, and those of the second, moved. -/
theorem tokenize_joined {file source source' : String} {tokens tokens' : List Token}
    (h : tokenize file source = .ok tokens) (h' : tokenize file source' = .ok tokens') :
    ∃ init last, tokens = init ++ [last] ∧ last.kind = .endOfFile ∧
      (∀ t ∈ init, t.kind ≠ .endOfFile) ∧
      tokenize file (source ++ "\n" ++ source') = .ok (init ++ tokens'.map (Token.move
        (Location.shift (source.toList.count '\n' + 1) (source.length + 1)))) := by
  obtain ⟨ls, hLaid⟩ := exists_laid_of_tokenize h
  obtain ⟨ls', hLaid'⟩ := exists_laid_of_tokenize h'
  obtain ⟨d, hTokens⟩ := tokenize_eq_ok.mp h
  obtain ⟨d', hTokens'⟩ := tokenize_eq_ok.mp h'
  obtain ⟨init, hInit, hFirst, hJoined⟩ :=
    Cursor.tokens_append hLaid (.start file) source'.toList
  obtain ⟨ts, e, hSecond, hMoved⟩ := Cursor.tokens_move (Location.shift_after
    (source.toList.count '\n' + 1) (source.toList.length + 1)) hLaid' (.start file)
  rw [Cursor.start] at hTokens hTokens'
  rw [hTokens] at hFirst
  rw [hTokens'] at hSecond
  cases hFirst
  cases hSecond
  have hBlank : Run ['\n'] source'.toList := .cons (.blank _ (by decide)) (.nil _)
  have hText : (source ++ "\n" ++ source').toList = source.toList ++ '\n' :: source'.toList := by
    simp
  rw [← Location.after_past_start] at hMoved
  have hAll := hJoined _ _ ((Cursor.tokens_run hBlank _).trans hMoved)
  rw [← hText, String.length_toList] at hAll
  exact ⟨init, _, rfl, rfl, hInit, tokenize_eq_ok.mpr ⟨_, hAll⟩⟩

end CToGo.Source
