import CToGo.Proofs.Scanning.Lexemes
import CToGo.Proofs.Success

/-!
# The tokens of a source text

A source text has tokens exactly if it is laid out as gaps and lexemes. Its tokens are then its
lexemes, each with the range of its characters, and one mark for the end of the file.

* `Marks`: a token and the lexeme that it stands for.
* `Cursor.tokens_of_laid`, `Cursor.exists_laid`: the two directions, from any place on.
* `tokenize_iff_laid`: **a fresh scanner hands out the lexemes of the text, and it fails on
  texts without a layout.**
-/

namespace CToGo.Source

/-- The token stands for the lexeme: it has its kind and its range of characters. -/
structure Marks (t : Token) (l : Lexeme) : Prop where
  kind : t.kind = l.kind
  start : t.span.start.offset = l.start
  stop : t.span.stop.offset = l.stop

/-- The characters of a text that a span covers. -/
def Span.covered (s : Span) (text : List Char) : List Char :=
  (text.drop s.start.offset).take s.length

theorem not_opens_nil : ¬ ['/', '*'] <+: ([] : List Char) := by decide

namespace Cursor

/-! ## One token -/

theorem nextToken_of_isGap {c : Cursor} (h : IsGap c.rest []) :
    c.nextToken = .ok ⟨.endOfFile, .point (c.skip c.rest.length).location⟩
      (c.skip c.rest.length) := by
  have hSkip := skipGap_append h not_opens_nil (List.append_nil c.rest).symm
  have hRest : (c.skip c.rest.length).rest = [] := by rw [rest_skip, List.drop_length]
  rw [nextToken, hSkip]
  simp only [hRest]

theorem nextToken_of_isLexeme {c : Cursor} {gap text rest : List Char} {kind : TokenKind}
    (hGap : IsGap gap (text ++ rest)) (hLexeme : IsLexeme text kind rest)
    (hc : c.rest = gap ++ (text ++ rest)) :
    c.nextToken = .ok
      ⟨kind, (c.skip gap.length).location, (c.skip (gap.length + text.length)).location⟩
      (c.skip (gap.length + text.length)) := by
  have hSkip := skipGap_append hGap hLexeme.noComment hc
  have hRest : (c.skip gap.length).rest = text ++ rest := by rw [rest_skip, hc, List.drop_left]
  obtain ⟨ch, tail, hCons⟩ := List.exists_cons_of_ne_nil
    (List.append_ne_nil_of_left_ne_nil hLexeme.spells.ne_nil rest)
  have hFound := hRest.trans hCons
  have hRead : lexeme ch (c.skip gap.length) = .ok kind (c.skip (gap.length + text.length)) := by
    rw [lexeme_eq_ok_iff hFound (hRest ▸ hLexeme.noComment)]
    exact ⟨text, rest, hRest, hLexeme, (skip_skip _ _ _).symm⟩
  rw [nextToken, hSkip]
  simp only [hFound, hRead]

theorem exists_layout_of_nextToken {c d : Cursor} {t : Token} (h : c.nextToken = .ok t d) :
    IsGap c.rest [] ∨ ∃ gap text kind rest, c.rest = gap ++ (text ++ rest) ∧
      IsGap gap (text ++ rest) ∧ IsLexeme text kind rest := by
  rw [nextToken] at h
  cases hSkip : c.skipGap with
  | error e f => simp [hSkip] at h
  | ok u f =>
    obtain ⟨gap, hRest, -, hGap, hOpen⟩ := isGap_of_skipGap hSkip
    cases hFound : f.rest with
    | nil =>
      rw [hFound] at hRest hGap
      rw [hRest, List.append_nil]
      exact .inl hGap
    | cons ch tail =>
      simp only [hSkip, hFound] at h
      cases hRead : lexeme ch f with
      | error e g => simp [hRead] at h
      | ok kind g =>
        rw [lexeme_eq_ok_iff hFound hOpen] at hRead
        obtain ⟨text, rest, hText, hLexeme, -⟩ := hRead
        rw [hText] at hRest hGap
        exact .inr ⟨gap, text, kind, rest, hRest, hGap, hLexeme⟩

/-! ## All tokens -/

theorem tokens_of_endOfFile {c d : Cursor} {t : Token} (h : c.nextToken = .ok t d)
    (ht : t.kind = .endOfFile) : c.tokens = .ok [t] d := by
  unfold tokens
  split
  · next hNext => simp [h] at hNext
  · next hNext =>
    rw [h] at hNext
    cases hNext
    exact dif_pos ht

theorem tokens_of_nextToken {c d : Cursor} {t : Token} (h : c.nextToken = .ok t d)
    (ht : t.kind ≠ .endOfFile) :
    c.tokens = match d.tokens with
      | .error e f => .error e f
      | .ok ts f => .ok (t :: ts) f := by
  rw [tokens]
  split
  · next hNext => simp [h] at hNext
  · next hNext =>
    rw [h] at hNext
    cases hNext
    exact dif_neg ht

/-- The cursor behind a gap and the lexeme after it. -/
theorem skip_lexeme {c : Cursor} {gap text rest : List Char}
    (hc : c.rest = gap ++ (text ++ rest)) :
    (c.skip (gap.length + text.length)).rest = rest ∧
      (c.skip (gap.length + text.length)).location.offset =
        c.location.offset + gap.length + text.length := by
  have hLength : c.rest.length = gap.length + text.length + rest.length := by
    rw [hc, List.length_append, List.length_append, Nat.add_assoc]
  refine ⟨?_, ?_⟩
  · rw [rest_skip, hc, ← List.append_assoc, ← List.length_append, List.drop_left]
  · rw [offset_skip (by omega), Nat.add_assoc]

/-- The tokens of a text that is laid out are its lexemes and the end of the file. -/
theorem tokens_of_laid {n : Nat} {text : List Char} {ls : List Lexeme} (h : Laid n text ls)
    {c : Cursor} (hc : c.rest = text) (hn : c.location.offset = n) :
    ∃ init place d, c.tokens = .ok (init ++ [⟨.endOfFile, .point place⟩]) d ∧
      List.Forall₂ Marks init ls ∧ place.offset = n + text.length := by
  induction h generalizing c with
  | last hGap =>
    subst hc hn
    exact ⟨[], _, _, tokens_of_endOfFile (nextToken_of_isGap hGap) rfl, .nil,
      offset_skip (Nat.le_refl _)⟩
  | @lexeme n gap text rest kind ls hGap hLexeme _ ih =>
    subst hn
    have hStart : (c.skip gap.length).location.offset = c.location.offset + gap.length :=
      offset_skip (by rw [hc, List.length_append]; omega)
    obtain ⟨hRest, hStop⟩ := skip_lexeme hc
    have hNext := nextToken_of_isLexeme hGap hLexeme hc
    have hTail := tokens_of_nextToken hNext hLexeme.spells.ne_endOfFile
    obtain ⟨init, place, d, hTokens, hMarks, hPlace⟩ := ih hRest hStop
    rw [hTokens] at hTail
    refine ⟨_ :: init, place, d, hTail, .cons ⟨rfl, hStart, hStop⟩ hMarks, ?_⟩
    rw [hPlace, List.length_append, List.length_append]
    omega

theorem exists_laid {c d : Cursor} {ts : List Token} (h : c.tokens = .ok ts d) :
    ∃ ls, Laid c.location.offset c.rest ls := by
  -- Behind a lexeme the rest of the text is shorter, and its tokens were read as well.
  induction hLength : c.rest.length using Nat.strongRecOn generalizing c d ts with
  | ind length ih =>
    cases hNext : c.nextToken with
    | error e f =>
      unfold tokens at h
      split at h
      · cases h
      · next hOk => simp [hNext] at hOk
    | ok t f =>
      rcases exists_layout_of_nextToken hNext with hGap | ⟨gap, text, kind, rest, hc, hGap, hLexeme⟩
      · exact ⟨[], .last hGap⟩
      · have hToken := nextToken_of_isLexeme hGap hLexeme hc
        rw [tokens_of_nextToken hToken hLexeme.spells.ne_endOfFile] at h
        obtain ⟨hRest, hOffset⟩ := skip_lexeme hc
        have hShorter : rest.length < length := by
          have hText := List.length_pos_iff.mpr hLexeme.spells.ne_nil
          rw [← hLength, hc, List.length_append, List.length_append]
          omega
        cases hMore : (c.skip (gap.length + text.length)).tokens with
        | error e g => simp [hMore] at h
        | ok ts' g =>
          obtain ⟨ls, hLaid⟩ := ih rest.length hShorter hMore (by rw [hRest])
          rw [hRest, hOffset] at hLaid
          rw [hc]
          exact ⟨_, .lexeme hGap hLexeme hLaid⟩

end Cursor

/-! ## Fresh scanners -/

theorem tokenize_ofSource (file source : String) :
    (Scanner.ofSource file source).tokenize.1 = tokenize file source := by
  rw [Scanner.tokenize, tokenize]
  simp only [Scanner.ofSource, Scanner.run]
  cases (Cursor.start file source.toList).tokens <;> rfl

theorem tokenize_of_laid (file : String) {source : String} {ls : List Lexeme}
    (h : Laid 0 source.toList ls) :
    ∃ init place, tokenize file source = .ok (init ++ [⟨.endOfFile, .point place⟩]) ∧
      List.Forall₂ Marks init ls ∧ place.offset = source.length := by
  obtain ⟨init, place, d, hTokens, hMarks, hPlace⟩ :=
    Cursor.tokens_of_laid (c := .start file source.toList) h rfl rfl
  refine ⟨init, place, ?_, hMarks, ?_⟩
  · rw [tokenize, hTokens]
  · rw [hPlace, Nat.zero_add, String.length_toList]

theorem exists_laid_of_tokenize {file source : String} {tokens : List Token}
    (h : tokenize file source = .ok tokens) : ∃ ls, Laid 0 source.toList ls := by
  rw [tokenize] at h
  cases hTokens : (Cursor.start file source.toList).tokens with
  | error e d => simp [hTokens] at h
  | ok ts d => exact Cursor.exists_laid hTokens

theorem apart_of_marks {init : List Token} {ls : List Lexeme}
    (h : List.Forall₂ Marks init ls) (hApart : ls.Pairwise fun l m => l.stop ≤ m.start) :
    init.Pairwise fun t u => t.span.stop.offset ≤ u.span.start.offset := by
  induction h with
  | nil => exact .nil
  | @cons t l init ls hMark hMarks ih =>
    obtain ⟨hHead, hTail⟩ := List.pairwise_cons.mp hApart
    refine .cons ?_ (ih hTail)
    intro u hu
    obtain ⟨m, hm, hOther⟩ := exists_right_of_forall₂ hMarks hu
    rw [hMark.stop, hOther.start]
    exact hHead m hm

/-- What a token covers is the lexeme that it stands for. -/
theorem Marks.spells {t : Token} {l : Lexeme} {text : List Char} {ls : List Lexeme}
    (h : Marks t l) (hLaid : Laid 0 text ls) (hl : l ∈ ls) :
    t.span.start.offset < t.span.stop.offset ∧ Spells (t.span.covered text) t.kind := by
  have hSpells := hLaid.spells l hl
  have hLength := List.length_pos_iff.mpr hSpells.ne_nil
  have hCovers := hLaid.covers l hl
  have hStop : l.stop = l.start + l.text.length := rfl
  have hCovered : t.span.covered text = l.text := by
    rw [Span.covered, Span.length, h.start, h.stop, hStop, Nat.add_sub_cancel_left]
    exact hCovers
  refine ⟨?_, ?_⟩
  · rw [h.start, h.stop]
    omega
  · rw [hCovered, h.kind]
    exact hSpells

/-- **The tokens of a source text.** A fresh scanner hands out tokens exactly if the text falls
into gaps and lexemes, and else it reports a fault. Its tokens are the lexemes in their order,
each with the range of its characters and the kind that these characters spell, and then the end
of the file, which covers nothing and stands behind the last character. -/
theorem tokenize_iff_laid (file source : String) :
    ((∃ tokens, (Scanner.ofSource file source).tokenize.1 = .ok tokens) ↔
      ∃ ls, Laid 0 source.toList ls) ∧
    ((∃ e, (Scanner.ofSource file source).tokenize.1 = .error e) ↔
      ¬ ∃ ls, Laid 0 source.toList ls) ∧
    ∀ tokens, (Scanner.ofSource file source).tokenize.1 = .ok tokens →
      ∃ ls init last, Laid 0 source.toList ls ∧ tokens = init ++ [last] ∧
        List.Forall₂ Marks init ls ∧
        (∀ t ∈ init, t.kind ≠ .endOfFile ∧ t.span.start.offset < t.span.stop.offset ∧
          Spells (t.span.covered source.toList) t.kind) ∧
        init.Pairwise (fun t u => t.span.stop.offset ≤ u.span.start.offset) ∧
        last.kind = .endOfFile ∧ last.span.start.offset = source.length ∧
        last.span.stop.offset = source.length := by
  rw [tokenize_ofSource]
  refine ⟨⟨?_, ?_⟩, ⟨?_, ?_⟩, ?_⟩
  · rintro ⟨tokens, h⟩
    exact exists_laid_of_tokenize h
  · rintro ⟨ls, hLaid⟩
    obtain ⟨init, place, h, -⟩ := tokenize_of_laid file hLaid
    exact ⟨_, h⟩
  · rintro ⟨e, h⟩ ⟨ls, hLaid⟩
    obtain ⟨init, place, hOk, -⟩ := tokenize_of_laid file hLaid
    rw [h] at hOk
    cases hOk
  · intro hNone
    cases h : tokenize file source with
    | error e => exact ⟨e, rfl⟩
    | ok tokens => exact absurd (exists_laid_of_tokenize h) hNone
  · intro tokens h
    obtain ⟨ls, hLaid⟩ := exists_laid_of_tokenize h
    obtain ⟨init, place, hOk, hMarks, hPlace⟩ := tokenize_of_laid file hLaid
    rw [h, Except.ok.injEq] at hOk
    refine ⟨ls, init, _, hLaid, hOk, hMarks, ?_, ?_, rfl, hPlace, hPlace⟩
    · intro t ht
      obtain ⟨l, hl, hMark⟩ := exists_right_of_forall₂ hMarks ht
      obtain ⟨hLess, hSpells⟩ := hMark.spells hLaid hl
      exact ⟨hSpells.ne_endOfFile, hLess, hSpells⟩
    · exact apart_of_marks hMarks hLaid.apart

theorem tokenize_iff_laid_comments :
    (∃ tokens, (Scanner.ofSource "f.c" "/*/ */x/=007//y").tokenize.1 = .ok tokens ∧
      tokens.map (·.kind) =
        [.identifier "x", .symbol .slashEqual, .literal 7, .endOfFile] ∧
      ∃ ls init last, Laid 0 "/*/ */x/=007//y".toList ls ∧ tokens = init ++ [last] ∧
        List.Forall₂ Marks init ls) ∧
    ¬ ∃ ls, Laid 0 "x/* /".toList ls := by
  have hRead : (Scanner.ofSource "f.c" "/*/ */x/=007//y").tokenize.1.toOption.any fun tokens =>
      tokens.map (·.kind) =
        [.identifier "x", .symbol .slashEqual, .literal 7, .endOfFile] := by decide +kernel
  obtain ⟨tokens, hTokens, hKinds⟩ := exists_eq_ok_of_any hRead
  obtain ⟨ls, init, last, hLaid, hSplit, hMarks, -⟩ :=
    (tokenize_iff_laid "f.c" "/*/ */x/=007//y").2.2 tokens hTokens
  refine ⟨⟨tokens, hTokens, of_decide_eq_true hKinds, ls, init, last, hLaid, hSplit, hMarks⟩, ?_⟩
  rw [← (tokenize_iff_laid "f.c" "x/* /").1]
  rintro ⟨tokens, hTokens⟩
  have hFault : (Scanner.ofSource "f.c" "x/* /").tokenize.1.toOption = none := by decide +kernel
  rw [hTokens] at hFault
  cases hFault

end CToGo.Source
