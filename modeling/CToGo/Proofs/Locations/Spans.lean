import CToGo.Proofs.Nesting.Heights
import CToGo.Proofs.Scanning.Offsets

/-!
# Trees along tokens

A node of a tree is read from a run of tokens: its span begins with the first of them and ends
with the last, and its children are read from runs inside, one behind the other. What stands
between the runs of the children, such as parentheses, belongs to none of them.

* `Site`: everything in a program that has a span.
* `Framed`, `Strung`: a node and the run that it is read from, and nodes one behind the other.
* `Strung.enclose`, `Strung.join`, ...: nodes that are put around others.
* `Framed.placed`: what this says of spans.
-/

namespace CToGo.Source

/-! ## Sites -/

def Node.span : Node → Span
  | block b => b.span
  | stmt s => s.span
  | expr e => e.span

/-- Everything in a program that has a span. -/
inductive Site where
  | program (p : Program)
  | function (f : Function)
  | param (p : Param)
  | node (n : Node)

namespace Site

def span : Site → Span
  | program p => p.span
  | function f => f.span
  | param p => p.span
  | node n => n.span

/-- What stands right below, in the order of the text. -/
def children : Site → List Site
  | program p => p.functions.map function
  | function f => f.params.map param ++ [node (.block f.body)]
  | param _ => []
  | node n => n.children.map node

/-- The second site is right below the first. -/
def Child (x y : Site) : Prop := y ∈ x.children

/-- The second site is the first or somewhere below it. -/
def Below : Site → Site → Prop := Relation.ReflTransGen Child

def isProgram : Site → Bool
  | program _ => true
  | _ => false

def expr (e : Expr) : Site := node (.expr e)

def stmt (s : Stmt) : Site := node (.stmt s)

def block (b : Block) : Site := node (.block b)

end Site

/-! ## Runs of tokens -/

/-- The span reaches from the first to the last token of the run. -/
structure Delimits (run : List Token) (span : Span) : Prop where
  start : run.head?.map (·.span.start) = some span.start
  stop : run.getLast?.map (·.span.stop) = some span.stop

mutual

/-- The site is read from the run. -/
inductive Framed : List Token → Site → Prop where
  | intro {run : List Token} {x : Site} : Delimits run x.span → Strung run x.children → Framed run x

/-- The sites are read from runs one behind the other among the tokens. -/
inductive Strung : List Token → List Site → Prop where
  | nil (rest : List Token) : Strung rest []
  | cons (gap : List Token) {run rest : List Token} {x : Site} {xs : List Site} :
    Framed run x → Strung rest xs → Strung (gap ++ (run ++ rest)) (x :: xs)

end

theorem Delimits.ne_nil {run : List Token} {span : Span} (h : Delimits run span) : run ≠ [] := by
  rintro rfl
  cases h.start

/-- A span from the beginning of one run to the end of another one behind it. -/
theorem Delimits.append {run run' : List Token} {span span' : Span} (h : Delimits run span)
    (h' : Delimits run' span') (gap : List Token) :
    Delimits (run ++ (gap ++ run')) ⟨span.start, span'.stop⟩ := by
  refine ⟨?_, ?_⟩
  · rw [List.head?_append_of_ne_nil _ h.ne_nil]
    exact h.start
  · rw [List.getLast?_append_of_ne_nil _ (List.append_ne_nil_of_right_ne_nil _ h'.ne_nil),
      List.getLast?_append_of_ne_nil _ h'.ne_nil]
    exact h'.stop

theorem Framed.delimits {run : List Token} {x : Site} (h : Framed run x) : Delimits run x.span := by
  cases h with
  | intro hDelimits _ => exact hDelimits

theorem Framed.strung {run : List Token} {x : Site} (h : Framed run x) :
    Strung run x.children := by
  cases h with
  | intro _ hStrung => exact hStrung

/-! ## Sites one behind the other -/

namespace Strung

variable {ts us : List Token} {x y z : Site} {xs ys : List Site}

/-- The first site, and the tokens in front of it, of it and behind it. -/
theorem exists_cons (h : Strung ts (x :: xs)) : ∃ gap run rest, ts = gap ++ (run ++ rest) ∧
    Framed run x ∧ Strung rest xs := by
  cases h with
  | cons gap hRun hRest => exact ⟨gap, _, _, rfl, hRun, hRest⟩

theorem of_framed {run : List Token} (h : Framed run x) : Strung run [x] := by
  have hStrung := Strung.cons [] h (.nil [])
  rwa [List.nil_append, List.append_nil] at hStrung

theorem prepend (h : Strung ts xs) (front : List Token) : Strung (front ++ ts) xs := by
  cases h with
  | nil rest => exact .nil _
  | cons gap hRun hRest =>
    rw [← List.append_assoc]
    exact .cons _ hRun hRest

theorem append (h : Strung ts xs) (h' : Strung us ys) : Strung (ts ++ us) (xs ++ ys) := by
  induction xs generalizing ts with
  | nil => exact h'.prepend ts
  | cons x xs ih =>
    obtain ⟨gap, run, rest, rfl, hRun, hRest⟩ := h.exists_cons
    rw [List.append_assoc, List.append_assoc]
    exact .cons gap hRun (ih hRest)

/-- Sites may be left out. -/
theorem sublist (h : Strung ts ys) (hSub : xs.Sublist ys) : Strung ts xs := by
  induction hSub generalizing ts with
  | slnil => exact h
  | cons y _ ih =>
    obtain ⟨gap, run, rest, rfl, -, hRest⟩ := h.exists_cons
    exact ((ih hRest).prepend run).prepend gap
  | cons_cons y _ ih =>
    obtain ⟨gap, run, rest, rfl, hRun, hRest⟩ := h.exists_cons
    exact .cons gap hRun (ih hRest)

theorem ne_nil (h : Strung ts (x :: xs)) : ts ≠ [] := by
  obtain ⟨gap, run, rest, rfl, hRun, -⟩ := h.exists_cons
  exact List.append_ne_nil_of_right_ne_nil _
    (List.append_ne_nil_of_left_ne_nil hRun.delimits.ne_nil _)

/-! ## Sites around others -/

/-- A site from the first to the last token. -/
theorem enclose (h : Strung ts y.children) (hDelimits : Delimits ts y.span) : Strung ts [y] :=
  of_framed (.intro hDelimits h)

/-- A site that is read from the same tokens as the one below it. -/
theorem wrap (h : Strung ts (x :: xs)) (hSpan : y.span = x.span) (hChildren : y.children = [x]) :
    Strung ts (y :: xs) := by
  obtain ⟨gap, run, rest, rfl, hRun, hRest⟩ := h.exists_cons
  refine .cons gap (.intro ?_ ?_) hRest
  · rw [hSpan]
    exact hRun.delimits
  · rw [hChildren]
    exact of_framed hRun

/-- A site from the beginning of the first to the end of the second. -/
theorem join (h : Strung ts (x :: y :: xs)) (hSpan : z.span = ⟨x.span.start, y.span.stop⟩)
    (hChildren : z.children.Sublist [x, y]) : Strung ts (z :: xs) := by
  obtain ⟨gap, run, rest, rfl, hFirst, hRest⟩ := h.exists_cons
  obtain ⟨gap', run', rest', rfl, hSecond, hRest'⟩ := hRest.exists_cons
  have hFramed : Framed (run ++ (gap' ++ run')) z := by
    refine .intro ?_ ?_
    · rw [hSpan]
      exact hFirst.delimits.append hSecond.delimits gap'
    · exact ((of_framed hFirst).append ((of_framed hSecond).prepend gap')).sublist hChildren
  have hSplit : run ++ (gap' ++ (run' ++ rest')) = (run ++ (gap' ++ run')) ++ rest' := by
    simp only [List.append_assoc]
  rw [hSplit]
  exact .cons gap hFramed hRest'

/-- A site from the first token to the end of the site below it. -/
theorem lead (h : Strung ts [x]) {start : Location}
    (hStart : ts.head?.map (·.span.start) = some start) (hSpan : y.span = ⟨start, x.span.stop⟩)
    (hChildren : y.children = [x]) : Strung ts [y] := by
  obtain ⟨gap, run, rest, rfl, hRun, -⟩ := h.exists_cons
  have hFront : gap ++ run ≠ [] := List.append_ne_nil_of_right_ne_nil _ hRun.delimits.ne_nil
  have hFramed : Framed (gap ++ run) y := by
    refine .intro ?_ ?_
    · rw [hSpan]
      refine ⟨?_, ?_⟩
      · rwa [← List.append_assoc, List.head?_append_of_ne_nil _ hFront] at hStart
      · rw [List.getLast?_append_of_ne_nil _ hRun.delimits.ne_nil]
        exact hRun.delimits.stop
    · rw [hChildren]
      exact (of_framed hRun).prepend gap
  rw [← List.append_assoc, ← List.append_nil [y]]
  exact (of_framed hFramed).append (.nil rest)

/-- A site from the beginning of the first to the last token. -/
theorem trail (h : Strung ts (x :: xs)) {stop : Location}
    (hStop : ts.getLast?.map (·.span.stop) = some stop) (hSpan : y.span = ⟨x.span.start, stop⟩)
    (hChildren : y.children.Sublist (x :: xs)) : Strung ts [y] := by
  obtain ⟨gap, run, rest, rfl, hRun, hRest⟩ := h.exists_cons
  have hBack : run ++ rest ≠ [] := List.append_ne_nil_of_left_ne_nil hRun.delimits.ne_nil _
  refine Strung.prepend (of_framed (.intro ?_ ?_)) gap
  · rw [hSpan]
    refine ⟨?_, ?_⟩
    · rw [List.head?_append_of_ne_nil _ hRun.delimits.ne_nil]
      exact hRun.delimits.start
    · rwa [List.getLast?_append_of_ne_nil _ hBack] at hStop
  · exact (Strung.append (of_framed hRun) hRest).sublist hChildren

/-- Every site has a run of its own among the tokens. -/
theorem exists_framed (h : Strung ts xs) (hx : x ∈ xs) :
    ∃ run, run.Sublist ts ∧ Framed run x := by
  induction xs generalizing ts with
  | nil => cases hx
  | cons y ys ih =>
    obtain ⟨gap, run, rest, rfl, hRun, hRest⟩ := h.exists_cons
    rcases List.mem_cons.mp hx with rfl | hx
    · exact ⟨run, ((List.sublist_append_left run rest).trans (List.sublist_append_right _ _)),
        hRun⟩
    · obtain ⟨run', hSub, hRun'⟩ := ih hRest hx
      exact ⟨run', hSub.trans ((List.sublist_append_right run rest).trans
        (List.sublist_append_right _ _)), hRun'⟩

end Strung

/-! ## Spans -/

/-- The first span contains the second. -/
def Span.Contains (s t : Span) : Prop :=
  s.start.offset ≤ t.start.offset ∧ t.stop.offset ≤ s.stop.offset

/-- The first span ends where the second begins, or in front of it. -/
def Span.Precedes (s t : Span) : Prop := s.stop.offset ≤ t.start.offset

section

variable {run : List Token} {span : Span}

theorem Delimits.exists_ends (h : Delimits run span) : ∃ first ∈ run, ∃ last ∈ run,
    first.span.start = span.start ∧ last.span.stop = span.stop := by
  obtain ⟨first, hFirst, hStart⟩ := Option.map_eq_some_iff.mp h.start
  obtain ⟨last, hLast, hStop⟩ := Option.map_eq_some_iff.mp h.stop
  exact ⟨first, List.mem_of_head? hFirst, last, List.mem_of_getLast? hLast, hStart, hStop⟩

/-- The span of a run contains its tokens. -/
theorem Delimits.contains (h : Delimits run span) (hOrdered : Ordered run) {t : Token}
    (ht : t ∈ run) : span.Contains t.span := by
  obtain ⟨first, hFirst, hStart⟩ := Option.map_eq_some_iff.mp h.start
  obtain ⟨last, hLast, hStop⟩ := Option.map_eq_some_iff.mp h.stop
  have hToken := hOrdered.nonempty t ht
  refine ⟨?_, ?_⟩
  · obtain ⟨rest, rfl⟩ := List.head?_eq_some_iff.mp hFirst
    have hWidth := hOrdered.nonempty first List.mem_cons_self
    have hBehind := (List.pairwise_cons.mp hOrdered.apart).1
    rw [← hStart]
    rcases List.mem_cons.mp ht with rfl | ht
    · exact Nat.le_refl _
    · have hApart := hBehind t ht
      omega
  · obtain ⟨front, rfl⟩ := List.getLast?_eq_some_iff.mp hLast
    have hWidth := hOrdered.nonempty last (List.mem_append_right _ List.mem_cons_self)
    have hBefore := (List.pairwise_append.mp hOrdered.apart).2.2
    rw [← hStop]
    rcases List.mem_append.mp ht with ht | ht
    · have hApart := hBefore t ht last List.mem_cons_self
      omega
    · rw [List.mem_singleton.mp ht]

theorem Delimits.nonempty (h : Delimits run span) (hOrdered : Ordered run) :
    span.start.offset < span.stop.offset := by
  obtain ⟨first, hFirst, _, _, hStart, _⟩ := h.exists_ends
  have hWidth := hOrdered.nonempty first hFirst
  have hStop := (h.contains hOrdered hFirst).2
  rw [← hStart]
  omega

end

section

variable {ts : List Token} {x : Site} {xs : List Site}

/-- Sites that are read from runs one behind the other have spans one behind the other. -/
theorem Strung.precedes (h : Strung ts xs) (hOrdered : Ordered ts) :
    xs.Pairwise fun x y => x.span.Precedes y.span := by
  induction xs generalizing ts with
  | nil => exact .nil
  | cons x xs ih =>
    obtain ⟨gap, run, rest, rfl, hRun, hRest⟩ := h.exists_cons
    have hBack := hOrdered.sublist (List.sublist_append_right gap (run ++ rest))
    refine List.pairwise_cons.mpr ⟨?_, ih hRest (hBack.sublist (List.sublist_append_right _ _))⟩
    intro y hy
    obtain ⟨run', hSub, hRun'⟩ := hRest.exists_framed hy
    obtain ⟨_, _, last, hLast, _, hStop⟩ := hRun.delimits.exists_ends
    obtain ⟨first, hFirst, _, _, hStart, _⟩ := hRun'.delimits.exists_ends
    rw [Span.Precedes, ← hStop, ← hStart]
    exact (List.pairwise_append.mp hBack.apart).2.2 last hLast first (hSub.subset hFirst)

theorem Framed.contains (h : Framed ts x) (hOrdered : Ordered ts) :
    ∀ y ∈ x.children, x.span.Contains y.span := by
  intro y hy
  obtain ⟨run, hSub, hRun⟩ := h.strung.exists_framed hy
  obtain ⟨first, hFirst, last, hLast, hStart, hStop⟩ := hRun.delimits.exists_ends
  rw [Span.Contains, ← hStart, ← hStop]
  exact ⟨(h.delimits.contains hOrdered (hSub.subset hFirst)).1,
    (h.delimits.contains hOrdered (hSub.subset hLast)).2⟩

/-- What is read from a run has below it what is read from runs inside. -/
theorem Framed.exists_below (h : Framed ts x) {y : Site} (hBelow : x.Below y) :
    ∃ run, run.Sublist ts ∧ Framed run y := by
  induction hBelow with
  | refl => exact ⟨ts, List.Sublist.refl ts, h⟩
  | tail _ hChild ih =>
    obtain ⟨run, hSub, hRun⟩ := ih
    obtain ⟨run', hSub', hRun'⟩ := hRun.strung.exists_framed hChild
    exact ⟨run', hSub'.trans hSub, hRun'⟩

end

end CToGo.Source
