import CToGo.Proofs.Characters
import CToGo.Proofs.Scanning.Layout
import CToGo.Source.Cursor

/-!
# Skipping gaps

The cursor skips exactly the gaps of a layout: it stops behind the longest run of blanks and
comments, and it fails only before a block comment that is not closed.

* `Gap.read_append`, `Gap.exists_piece`: one blank or comment.
* `Cursor.isGap_of_skipGap`, `Cursor.skipGap_append`: all of them up to the next lexeme.
-/

namespace CToGo.Source

/-! ## Comments -/

theorem closing?_cons {c : Char} {text : List Char} (h : ¬ ['*', '/'] <+: c :: text) :
    closing? (c :: text) = (closing? text).map (· + 1) := by
  rw [closing?]
  rintro rest rfl rfl
  exact h ⟨rest, rfl⟩

theorem closing?_append {body : List Char} (rest : List Char)
    (h : ¬ ['*', '/'] <:+: body ++ ['*']) :
    closing? (body ++ '*' :: '/' :: rest) = some (body.length + 2) := by
  induction body with
  | nil => rfl
  | cons c body ih =>
    have hBody : ¬ ['*', '/'] <:+: body ++ ['*'] := fun hIn => h (List.infix_cons hIn)
    have hHead : ¬ ['*', '/'] <+: c :: (body ++ '*' :: '/' :: rest) := by
      intro hPrefix
      have hShort : ['*', '/'] <+: c :: body ++ ['*'] := by
        refine List.prefix_of_prefix_length_le hPrefix ?_ (by simp)
        exact ⟨'/' :: rest, by simp⟩
      exact h hShort.isInfix
    rw [List.cons_append, closing?_cons hHead, ih hBody]
    simp

theorem exists_closing {text : List Char} {n : Nat} (h : closing? text = some n) :
    ∃ body rest, text = body ++ '*' :: '/' :: rest ∧ n = body.length + 2 ∧
      ¬ ['*', '/'] <:+: body ++ ['*'] := by
  induction text generalizing n with
  | nil => cases h
  | cons c text ih =>
    by_cases hHead : ['*', '/'] <+: c :: text
    · obtain ⟨rest, hRest⟩ := hHead
      rw [← hRest] at h ⊢
      cases h
      exact ⟨[], rest, rfl, rfl, by decide⟩
    · rw [closing?_cons hHead] at h
      obtain ⟨m, hm, rfl⟩ := Option.map_eq_some_iff.mp h
      obtain ⟨body, rest, rfl, rfl, hBody⟩ := ih hm
      refine ⟨c :: body, rest, rfl, by simp, ?_⟩
      rw [List.cons_append, List.infix_cons_iff]
      rintro (hPrefix | hInfix)
      · -- The first `*/` would begin at `c` already.
        refine hHead (hPrefix.trans ?_)
        exact ⟨'/' :: rest, by simp⟩
      · exact hBody hInfix

theorem lineWidth_append {body rest : List Char} (hBody : '\n' ∉ body)
    (hRest : rest = [] ∨ rest.head? = some '\n') : lineWidth (body ++ rest) = body.length := by
  have hLine : ∀ c ∈ body, (c != '\n') = true := by
    intro c hc
    have hNe : c ≠ '\n' := fun hEq => hBody (hEq ▸ hc)
    simpa using hNe
  have hEnd : ∀ c, rest.head? = some c → ¬ (c != '\n') = true := by
    intro c hc
    rcases hRest with rfl | hBreak
    · cases hc
    · rw [hBreak] at hc
      cases hc
      decide
  rw [lineWidth, (takeWhile_append_of_head hLine hEnd).1]

theorem not_isBlank_slash : isBlank '/' = false := by decide

namespace Gap

/-! ## One blank or comment -/

theorem read_append {piece rest : List Char} (h : Piece piece rest) :
    read (piece ++ rest) = .piece piece.length := by
  cases h with
  | @blank c _ hBlank =>
    have hSlash : c ≠ '/' := by
      rintro rfl
      rw [not_isBlank_slash] at hBlank
      cases hBlank
    simp [read, hSlash, hBlank]
  | line hBody hRest => simp [read, lineWidth_append hBody hRest]
  | @block body _ hBody =>
    have hClosing := closing?_append rest hBody
    simp [read, hClosing]

theorem exists_piece {text : List Char} {n : Nat} (h : read text = .piece n) :
    ∃ piece rest, text = piece ++ rest ∧ n = piece.length ∧ Piece piece rest := by
  unfold read at h
  split at h
  · next rest =>
    cases h
    obtain ⟨body, more, rfl, hBody, hMore⟩ := exists_run (· != '\n') rest
    have hLine : '\n' ∉ body := fun hMem => by simpa using hBody _ hMem
    have hEnd : more = [] ∨ more.head? = some '\n' := by
      cases more with
      | nil => exact .inl rfl
      | cons c more => exact .inr (by simpa using hMore c rfl)
    refine ⟨'/' :: '/' :: body, more, rfl, ?_, .line hLine hEnd⟩
    rw [lineWidth_append hLine hEnd]
    rfl
  · split at h
    · next m hClosing =>
      cases h
      obtain ⟨body, rest, rfl, rfl, hBody⟩ := exists_closing hClosing
      exact ⟨'/' :: '*' :: (body ++ ['*', '/']), rest, by simp, by simp, .block rest hBody⟩
    · cases h
  · next c rest _ _ =>
    split at h
    · next hBlank =>
      cases h
      exact ⟨[c], rest, rfl, rfl, .blank rest hBlank⟩
    · cases h
  · cases h

theorem read_ne_absent {text : List Char} (h : ['/', '*'] <+: text) : read text ≠ .absent := by
  obtain ⟨rest, rfl⟩ := h
  simp only [List.cons_append, List.nil_append, read]
  split <;> simp

theorem opens_of_read {text : List Char} (h : read text = .unclosed) : ['/', '*'] <+: text := by
  unfold read at h
  split at h
  · cases h
  · next rest => exact ⟨rest, rfl⟩
  · split at h <;> cases h
  · cases h

/-- Nothing is skipped before a lexeme and at the end of the text. -/
theorem read_eq_absent {text : List Char} (hPiece : ∀ piece more, text = piece ++ more →
    ¬ Piece piece more) (hOpen : ¬ ['/', '*'] <+: text) : read text = .absent := by
  cases hRead : read text with
  | absent => rfl
  | piece n =>
    obtain ⟨piece, more, hText, -, hIs⟩ := exists_piece hRead
    exact absurd hIs (hPiece piece more hText)
  | unclosed => exact absurd (opens_of_read hRead) hOpen

theorem isGap_of_absent {text : List Char} (h : read text = .absent) : IsGap [] text := by
  refine ⟨.nil text, ?_⟩
  intro piece more hText hPiece
  rw [hText, read_append hPiece] at h
  cases h

end Gap

/-! ## All blanks and comments -/

namespace Cursor

theorem skip_skip (m n : Nat) (c : Cursor) : (c.skip m).skip n = c.skip (m + n) := by
  induction m generalizing c with
  | zero => rw [Nat.zero_add, skip]
  | succ m ih => rw [Nat.succ_add, skip, skip, ih]

theorem offset_skip {n : Nat} {c : Cursor} (h : n ≤ c.rest.length) :
    (c.skip n).location.offset = c.location.offset + n := by
  induction n generalizing c with
  | zero => rfl
  | succ n ih =>
    have hNext : c.next.location.offset = c.location.offset + 1 := by
      cases hRest : c.rest with
      | nil => simp [hRest] at h
      | cons ch rest => simp [next, hRest]
    have hLength : n ≤ c.next.rest.length := by
      rw [rest_next, List.length_tail]
      omega
    rw [skip, ih hLength, hNext]
    omega

theorem isGap_of_skipGap {c d : Cursor} {u : Unit} (h : c.skipGap = .ok u d) :
    ∃ gap, c.rest = gap ++ d.rest ∧ d = c.skip gap.length ∧ IsGap gap d.rest ∧
      ¬ ['/', '*'] <+: d.rest := by
  fun_induction skipGap c with
  | case1 c hRead =>
    cases h
    exact ⟨[], rfl, rfl, Gap.isGap_of_absent hRead, fun hOpen => Gap.read_ne_absent hOpen hRead⟩
  | case2 c n hRead _ ih =>
    obtain ⟨piece, more, hText, rfl, hPiece⟩ := Gap.exists_piece hRead
    obtain ⟨run, hRest, hd, hGap, hOpen⟩ := ih h
    rw [rest_skip, hText, List.drop_left] at hRest
    subst hRest
    refine ⟨piece ++ run, ?_, ?_, ⟨.cons hPiece hGap.run, hGap.maximal⟩, hOpen⟩
    · rw [hText, List.append_assoc]
    · rw [hd, skip_skip, List.length_append]
  | case3 => cases h

theorem skipGap_of_absent {c : Cursor} (h : Gap.read c.rest = .absent) :
    c.skipGap = .ok () c := by
  unfold skipGap
  split
  · rfl
  · next hRead => simp [h] at hRead
  · next hRead => simp [h] at hRead

theorem skipGap_of_piece {n : Nat} {c : Cursor} (h : Gap.read c.rest = .piece n) :
    c.skipGap = (c.skip n).skipGap := by
  rw [skipGap]
  split
  · next hRead => simp [h] at hRead
  · next hRead =>
    rw [h] at hRead
    cases hRead
    rfl
  · next hRead => simp [h] at hRead

theorem skipGap_append {gap rest : List Char} {c : Cursor} (hGap : IsGap gap rest)
    (hOpen : ¬ ['/', '*'] <+: rest) (hc : c.rest = gap ++ rest) :
    c.skipGap = .ok () (c.skip gap.length) := by
  obtain ⟨hRun, hMaximal⟩ := hGap
  induction hRun generalizing c with
  | nil rest =>
    have hRead : Gap.read c.rest = .absent := by
      rw [hc]
      exact Gap.read_eq_absent hMaximal hOpen
    exact skipGap_of_absent hRead
  | @cons piece run rest hPiece _ ih =>
    have hRead : Gap.read c.rest = .piece piece.length := by
      rw [hc, List.append_assoc]
      exact Gap.read_append hPiece
    have hSkip : (c.skip piece.length).rest = run ++ rest := by
      rw [rest_skip, hc, List.append_assoc, List.drop_left]
    rw [skipGap_of_piece hRead, ih hOpen hSkip hMaximal, skip_skip, List.length_append]

end Cursor

end CToGo.Source
