import CToGo.Proofs.Scanning.Joined

/-!
# Lines and columns

A location counts lines, columns and characters side by side as a text is read. The line and the
column are those of the number of characters: the line feeds among the characters before it, and
what stands before it behind the last of them.

* `Location.ofOffset`: the location behind so many characters of a text.
* `Location.Fits`: a location of a text, which its number of characters determines.
* `tokenize_fits`: where the tokens of a text begin and end.
* `tokenize_ordered`: the tokens of a text stand one behind the other.
-/

namespace CToGo.Source

namespace Location

/-- The location behind the first `n` characters of a text. -/
def ofOffset (file : String) (text : List Char) (n : Nat) : Location :=
  let before := text.take n
  ⟨file, before.count '\n' + 1, (before.reverse.takeWhile (· ≠ '\n')).length + 1, n⟩

/-- The location is one of the text, and its line and column are those of its offset. -/
structure Fits (file : String) (text : List Char) (l : Location) : Prop where
  offset_le : l.offset ≤ text.length
  eq_ofOffset : l = ofOffset file text l.offset

theorem past_start (file : String) (before rest : List Char) :
    (start file).past before = ofOffset file (before ++ rest) before.length := by
  rw [ofOffset, List.take_left]
  induction before using List.reverseRecOn with
  | nil => rfl
  | append_singleton before c ih =>
    rw [past_append, ih, past, List.foldl_cons, List.foldl_nil, after]
    by_cases hc : c = '\n'
    · simp [hc]
    · simp [hc]

theorem fits_past_start (file : String) (before rest : List Char) :
    ((start file).past before).Fits file (before ++ rest) := by
  have hPast := past_start file before rest
  have hOffset : ((start file).past before).offset = before.length := by
    rw [hPast]
    rfl
  refine ⟨?_, ?_⟩
  · rw [hOffset, List.length_append]
    exact Nat.le_add_right _ _
  · rw [hOffset]
    exact hPast

end Location

/-- Both ends of the span are locations of the text. -/
def Span.Fits (file : String) (text : List Char) (s : Span) : Prop :=
  s.start.Fits file text ∧ s.stop.Fits file text

namespace Cursor

theorem tokens_fits {n : Nat} {text : List Char} {ls : List Lexeme} (h : Laid n text ls)
    (file : String) (before : List Char) :
    ∃ ts d, (⟨(Location.start file).past before, text⟩ : Cursor).tokens = .ok ts d ∧
      ∀ t ∈ ts, t.span.Fits file (before ++ text) := by
  induction h generalizing before with
  | @last n gap hGap =>
    refine ⟨_, _, tokens_gap hGap _, ?_⟩
    intro t ht
    obtain rfl := List.mem_singleton.mp ht
    have hEnd := Location.fits_past_start file (before ++ gap) []
    rw [List.append_nil, Location.past_append] at hEnd
    exact ⟨hEnd, hEnd⟩
  | @lexeme n gap text rest kind ls hGap hLexeme _ ih =>
    obtain ⟨ts, d, hTokens, hFits⟩ := ih (before ++ (gap ++ text))
    have hStart := Location.fits_past_start file (before ++ gap) (text ++ rest)
    have hStop := Location.fits_past_start file (before ++ (gap ++ text)) rest
    rw [Location.past_append, Location.past_append] at hTokens hStop
    rw [Location.past_append] at hStart
    simp only [List.append_assoc] at hFits hStart hStop
    refine ⟨_, d, tokens_lexeme hGap hLexeme hTokens, ?_⟩
    exact List.forall_mem_cons.mpr ⟨⟨hStart, hStop⟩, hFits⟩

end Cursor

/-- Every token of a text begins and ends at a location of it. -/
theorem tokenize_fits {file source : String} {tokens : List Token}
    (h : tokenize file source = .ok tokens) : ∀ t ∈ tokens, t.span.Fits file source.toList := by
  obtain ⟨ls, hLaid⟩ := exists_laid_of_tokenize h
  obtain ⟨d, hTokens⟩ := tokenize_eq_ok.mp h
  obtain ⟨ts, d', hTokens', hFits⟩ := Cursor.tokens_fits hLaid file []
  rw [Cursor.start] at hTokens
  rw [Location.past, List.foldl_nil, hTokens] at hTokens'
  cases hTokens'
  exact hFits

/-! ## The order of tokens -/

/-- The tokens are not empty and stand one behind the other. -/
structure Ordered (ts : List Token) : Prop where
  nonempty : ∀ t ∈ ts, t.span.start.offset < t.span.stop.offset
  apart : ts.Pairwise fun t u => t.span.stop.offset ≤ u.span.start.offset

theorem Ordered.sublist {ts us : List Token} (h : Ordered ts) (hSub : us.Sublist ts) :
    Ordered us :=
  ⟨fun t ht => h.nonempty t (hSub.subset ht), h.apart.sublist hSub⟩

/-- The tokens of a text stand one behind the other, and only the one that says where the file
ends is empty. -/
theorem tokenize_ordered {file source : String} {tokens : List Token}
    (h : tokenize file source = .ok tokens) :
    (∀ t ∈ tokens, t.kind ≠ .endOfFile → t.span.start.offset < t.span.stop.offset) ∧
      tokens.Pairwise (fun t u => t.span.stop.offset ≤ u.span.start.offset) ∧
      ∃ t ∈ tokens, t.kind = .endOfFile := by
  obtain ⟨ls, hLaid⟩ := exists_laid_of_tokenize h
  obtain ⟨init, place, hOk, hMarks, hPlace⟩ := tokenize_of_laid file hLaid
  rw [h, Except.ok.injEq] at hOk
  have hFits := tokenize_fits h
  subst hOk
  refine ⟨?_, ?_, ?_⟩
  · intro t ht hKind
    rcases List.mem_append.mp ht with ht | ht
    · obtain ⟨l, hl, hMark⟩ := exists_right_of_forall₂ hMarks ht
      exact (hMark.spells hLaid hl).1
    · obtain rfl := List.mem_singleton.mp ht
      exact absurd rfl hKind
  · refine List.pairwise_append.mpr
      ⟨apart_of_marks hMarks hLaid.apart, List.pairwise_singleton _ _, ?_⟩
    intro t ht u hu
    obtain rfl := List.mem_singleton.mp hu
    have hStop := (hFits t (List.mem_append_left _ ht)).2.offset_le
    rw [String.length_toList, ← hPlace] at hStop
    exact hStop
  · exact ⟨_, List.mem_append_right _ List.mem_cons_self, rfl⟩

end CToGo.Source
