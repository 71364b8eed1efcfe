import CToGo.Proofs.Reading.Files

/-!
# Lines are indented by the braces around them

The text of a compiled function has a tab in front of each line for every brace that is open
there. The first line opens the braces of the body, the last one closes them, and whatever
statements are nested in between leave the braces as they found them.

* `balance`: the braces that a text leaves open.
* `BlockLines`: the lines of a block up to the brace that closes it, each behind its tabs.
* `blockLines_stmt`, `blockLines_else`, `blockLines_linesOf`: the texts of statements make up
  such lines.
* `Layout`: how a function is laid out.
* `layout_of_compile`: **so are all functions of compiled texts.**
-/

namespace CToGo.Target

open Source (isWordRest)

/-! ## Lines -/

/-- The lines of a text. -/
def lines (text : List Char) : List (List Char) := text.splitOn '\n'

/-- The braces that a text opens, less those that it closes. -/
def balance (text : List Char) : Int := (text.count '\x7b' : Int) - text.count '\x7d'

/-- The line begins with a tab for each of the open braces, and with one tab less if it closes
a brace first. -/
def Indented (opened : Int) (line : List Char) : Prop :=
  ((line.takeWhile (· == '\t')).length : Int) =
    if (line.dropWhile (· == '\t')).head? = some '\x7d' then opened - 1 else opened

/-- The line does not end in a space or a tab. -/
def Trimmed (line : List Char) : Prop :=
  line.getLast? ≠ some ' ' ∧ line.getLast? ≠ some '\t'

instance (line : List Char) : Decidable (Trimmed line) := inferInstanceAs (Decidable (_ ∧ _))

/-- A line of a block: the block is not closed in it. -/
structure LaidOut (opened : Int) (line : List Char) : Prop where
  indented : Indented opened line
  trimmed : Trimmed line
  positive : ∀ part, part <+: line → 0 < opened + balance part

/-- A line with its tabs and no more closing braces than may be closed. -/
theorem laidOut_of_count {opened : Int} {line : List Char} (hIndented : Indented opened line)
    (hTrimmed : Trimmed line) (hOpen : (line.count '\x7d' : Int) < opened) :
    LaidOut opened line where
  indented := hIndented
  trimmed := hTrimmed
  positive part hPart := by
    have hCount := hPart.sublist.count_le '\x7d'
    unfold balance
    omega

/-- The lines of a block that has been opened, with the one that closes it. -/
inductive BlockLines : Int → List (List Char) → Prop where
  | close : BlockLines 1 [['\x7d']]
  | line {opened : Int} {line : List Char} {rest : List (List Char)} :
    LaidOut opened line → BlockLines (opened + balance line) rest →
      BlockLines opened (line :: rest)

theorem lines_append_newline {line : List Char} (h : '\n' ∉ line) (rest : List Char) :
    lines (line ++ '\n' :: rest) = line :: lines rest := by
  rw [lines, List.splitOn_append_cons_self, List.splitOn_eq_singleton h]
  rfl

/-- Line feeds do not count. -/
theorem count_flatten_lines {c : Char} (hc : c ≠ '\n') (text : List Char) :
    (lines text).flatten.count c = text.count c := by
  induction text with
  | nil => rfl
  | cons d text ih =>
    rw [lines, List.splitOn_cons_eq_if_modifyHead, ← lines]
    split
    · rename_i hd
      obtain rfl := beq_iff_eq.mp hd
      rw [List.flatten_cons, List.nil_append, ih, List.count_cons_of_ne (Ne.symm hc)]
    · cases hLines : lines text with
      | nil => exact absurd hLines (List.splitOn_ne_nil _ _)
      | cons first rest =>
        rw [hLines] at ih
        rw [List.modifyHead_cons, List.flatten_cons, List.cons_append, List.count_cons,
          List.count_cons, ← ih, List.flatten_cons]

theorem balance_flatten_lines (text : List Char) :
    balance (lines text).flatten = balance text := by
  rw [balance, count_flatten_lines (by decide), count_flatten_lines (by decide), balance]

theorem balance_append (xs ys : List Char) : balance (xs ++ ys) = balance xs + balance ys := by
  simp only [balance, List.count_append]
  omega

/-- Behind as many tabs as braces are open a line may begin, and behind one less with a brace. -/
theorem indented_tabs (depth : Nat) {c : Char} (hc : c ≠ '\t') (cs : List Char) :
    Indented (if c = '\x7d' then depth + 1 else depth) ((tabs depth).toList ++ c :: cs) := by
  have hTabs : ∀ d ∈ (tabs depth).toList, d == '\t' := by simp [tabs]
  have hEnd : ∀ d, (c :: cs).head? = some d → ¬ (d == '\t') := by
    intro d hd
    cases hd
    simpa using hc
  obtain ⟨hTake, hDrop⟩ := takeWhile_append_of_head hTabs hEnd
  have hLength : (tabs depth).toList.length = depth := by simp [tabs]
  rw [Indented, hTake, hDrop, hLength, List.head?_cons]
  by_cases hClose : c = '\x7d'
  · rw [if_pos (congrArg some hClose), if_pos hClose]
    omega
  · rw [if_neg (by simpa using hClose), if_neg hClose]

theorem count_tabs (depth : Nat) {c : Char} (hc : c ≠ '\t') : (tabs depth).toList.count c = 0 := by
  rw [tabs, String.toList_ofList, List.count_replicate]
  simp [Ne.symm hc]

/-! ## Characters within a line -/

/-- Whether the character neither ends a line nor stands in front of one, and is no brace. -/
def isInline (c : Char) : Bool := c != '\n' && c != '\t' && c != '\x7b' && c != '\x7d'

theorem isInline_of_all {text : List Char} (h : text.all isInline) : ∀ c ∈ text, isInline c :=
  List.all_eq_true.mp h

theorem isInline_of_isWordRest {c : Char} (hc : isWordRest c) : isInline c := by
  have hNe (d : Char) (hd : isWordRest d = false) : c ≠ d := by
    rintro rfl
    rw [hc] at hd
    cases hd
  simp [isInline, hNe '\n' rfl, hNe '\t' rfl, hNe '\x7b' rfl, hNe '\x7d' rfl]

/-- A text within a line that does not end in a space. -/
structure Inline (text : List Char) : Prop where
  ne_nil : text ≠ []
  chars : ∀ c ∈ text, isInline c
  last : text.getLast? ≠ some ' '

namespace Inline

variable {xs ys : List Char}

theorem of_all (h : xs ≠ [] ∧ xs.all isInline ∧ xs.getLast? ≠ some ' ') : Inline xs :=
  ⟨h.1, isInline_of_all h.2.1, h.2.2⟩

theorem append (hxs : ∀ c ∈ xs, isInline c) (h : Inline ys) : Inline (xs ++ ys) where
  ne_nil := List.append_ne_nil_of_right_ne_nil _ h.ne_nil
  chars := List.forall_mem_append.mpr ⟨hxs, h.chars⟩
  last := by
    rw [List.getLast?_append_of_ne_nil _ h.ne_nil]
    exact h.last

theorem run (hne : xs ≠ []) (hxs : ∀ c ∈ xs, isWordRest c) : Inline xs where
  ne_nil := hne
  chars c hc := isInline_of_isWordRest (hxs c hc)
  last hLast := nomatch hxs _ (List.mem_of_getLast? hLast)

theorem name {x : String} (hx : isName x) : Inline x.toList :=
  run (toList_ne_nil_of_isName hx) fun _ => isWordRest_of_isName hx

theorem number (n : Nat) : Inline (toString n).toList :=
  run (toList_toString_ne_nil n) fun _ => isWordRest_of_mem_toString

theorem parenthesized {condition : Bool} {text : String} (h : Inline text.toList) :
    Inline (parenthesized condition text).toList := by
  cases condition with
  | false => exact h
  | true =>
    have hClose : Inline ")".toList := .of_all (by decide)
    rw [Target.parenthesized, if_pos rfl, String.toList_append]
    refine append ?_ hClose
    rw [String.toList_append]
    exact List.forall_mem_append.mpr ⟨isInline_of_all rfl, h.chars⟩

theorem operator (op : BinaryOp) : ∀ c ∈ (" " ++ op.text ++ " ").toList, isInline c := by
  cases op <;> exact isInline_of_all rfl

theorem unaryOp (op : UnaryOp) : Inline op.text.toList := by
  cases op <;> exact .of_all (by decide)

end Inline

theorem isInline_intercalate {texts : List String}
    (h : ∀ t ∈ texts, ∀ c ∈ t.toList, isInline c) :
    ∀ c ∈ (", ".intercalate texts).toList, isInline c := by
  cases texts with
  | nil => exact isInline_of_all rfl
  | cons first texts =>
    rw [List.forall_mem_cons] at h
    rw [toList_intercalate_cons, List.forall_mem_append]
    refine ⟨h.1, fun c hc => ?_⟩
    obtain ⟨t, ht, hc⟩ := List.mem_flatMap.mp hc
    exact (List.forall_mem_append (p := (isInline ·))).mpr ⟨isInline_of_all rfl, h.2 t ht⟩ c hc

mutual

/-- The text of an expression stands within a line. -/
theorem Expr.inline_text : (e : Expr) → e.isPlain → Inline e.text.toList
  | .literal value, h => by
    obtain ⟨n, rfl⟩ := Int.eq_ofNat_of_zero_le (of_decide_eq_true h)
    exact .number n
  | .ident x, h => .name h
  | .selector package x, h => by
    rw [Expr.isPlain, Bool.and_eq_true] at h
    rw [Expr.text, String.toList_append, String.toList_append]
    exact .append (List.forall_mem_append.mpr ⟨(Inline.name h.1).chars, isInline_of_all rfl⟩)
      (.name h.2)
  | .binary op a b, h => by
    rw [Expr.isPlain, Bool.and_eq_true] at h
    have hText : (Expr.binary op a b).text.toList =
        (parenthesized (a.precedence < op.precedence) a.text).toList ++
          ((" " ++ op.text ++ " ").toList ++
            (parenthesized (b.precedence ≤ op.precedence) b.text).toList) := by
      simp [Expr.text]
    rw [hText]
    exact .append (a.inline_text h.1).parenthesized.chars
      (.append (Inline.operator op) (b.inline_text h.2).parenthesized)
  | .unary op e, h => by
    rw [Expr.isPlain, Bool.and_eq_true] at h
    rw [Expr.text, String.toList_append]
    exact .append (Inline.unaryOp op).chars (e.inline_text h.2).parenthesized
  | .call f args, h => by
    rw [Expr.isPlain, Bool.and_eq_true, Bool.and_eq_true] at h
    have hClose : Inline ")".toList := .of_all (by decide)
    rw [Expr.text, String.toList_append, String.toList_append, String.toList_append]
    refine .append ?_ hClose
    simp only [List.forall_mem_append]
    exact ⟨⟨(f.inline_text h.1.2).chars, isInline_of_all rfl⟩,
      isInline_intercalate (isInline_of_textOfEach args h.2)⟩

theorem isInline_of_textOfEach : (es : List Expr) → plainEach es →
    ∀ t ∈ textOfEach es, ∀ c ∈ t.toList, isInline c
  | [], _ => fun _ ht => nomatch ht
  | e :: es, h => by
    rw [plainEach, Bool.and_eq_true] at h
    exact List.forall_mem_cons.mpr ⟨(e.inline_text h.1).chars, isInline_of_textOfEach es h.2⟩

end

/-! ## Lines of a block -/

/-- The beginning of a line within a block of the given depth: its tabs, or what leads from the
closed alternative of a branch to the next one. -/
inductive Beginning (depth : Nat) : Int → List Char → Prop where
  | tabs : Beginning depth depth (tabs depth).toList
  | alternative : Beginning depth (depth + 1) ((tabs depth).toList ++ "\x7d else ".toList)

namespace Beginning

variable {depth : Nat} {opened : Int} {start : List Char}

theorem newline_not_mem (h : Beginning depth opened start) : '\n' ∉ start := by
  have hTabs : '\n' ∉ (Target.tabs depth).toList :=
    List.count_eq_zero.mp (count_tabs depth (by decide))
  cases h with
  | tabs => exact hTabs
  | alternative => exact fun hMem => (List.mem_append.mp hMem).elim hTabs (by decide)

theorem count_close (h : Beginning depth opened start) :
    opened - start.count '\x7d' = depth := by
  have hTabs : (Target.tabs depth).toList.count '\x7d' = 0 := count_tabs depth (by decide)
  cases h with
  | tabs => rw [hTabs, Int.natCast_zero, Int.sub_zero]
  | alternative =>
    have hOne : "\x7d else ".toList.count '\x7d' = 1 := by decide
    rw [List.count_append, hTabs, hOne]
    omega

theorem count_open (h : Beginning depth opened start) : start.count '\x7b' = 0 := by
  have hTabs : (Target.tabs depth).toList.count '\x7b' = 0 := count_tabs depth (by decide)
  cases h with
  | tabs => exact hTabs
  | alternative =>
    rw [List.count_append, hTabs]
    decide

theorem indented (h : Beginning depth opened start) {c : Char} (hTab : c ≠ '\t')
    (hClose : c ≠ '\x7d') (cs : List Char) : Indented opened (start ++ c :: cs) := by
  cases h with
  | tabs =>
    have hLine := indented_tabs depth hTab cs
    rwa [if_neg hClose] at hLine
  | alternative =>
    rw [List.append_assoc]
    exact indented_tabs depth (c := '\x7d') (by decide) _

end Beginning

/-- What a line goes on with that closes no brace. -/
structure Continues (text : List Char) : Prop where
  ne_nil : text ≠ []
  newline_not_mem : '\n' ∉ text
  tab_not_mem : '\t' ∉ text
  close_not_mem : '\x7d' ∉ text
  last : text.getLast? ≠ some ' '

theorem Inline.continues {text : List Char} (h : Inline text) : Continues text where
  ne_nil := h.ne_nil
  newline_not_mem hMem := nomatch h.chars _ hMem
  tab_not_mem hMem := nomatch h.chars _ hMem
  close_not_mem hMem := nomatch h.chars _ hMem
  last := h.last

theorem continues_open {text : List Char} (h : ∀ c ∈ text, isInline c) :
    Continues (text ++ ['\x7b']) where
  ne_nil := List.append_ne_nil_of_right_ne_nil _ (List.cons_ne_nil _ _)
  newline_not_mem hMem := (List.mem_append.mp hMem).elim (fun hc => nomatch h _ hc) (by decide)
  tab_not_mem hMem := (List.mem_append.mp hMem).elim (fun hc => nomatch h _ hc) (by decide)
  close_not_mem hMem := (List.mem_append.mp hMem).elim (fun hc => nomatch h _ hc) (by decide)
  last := by
    rw [List.getLast?_concat]
    decide

theorem count_open_append {text : List Char} (h : ∀ c ∈ text, isInline c) :
    (text ++ ['\x7b']).count '\x7b' = 1 := by
  rw [List.count_append, List.count_eq_zero.mpr fun hMem => nomatch h '\x7b' hMem]
  rfl

/-- A line that closes no brace but the one it may begin with belongs to the block. -/
theorem Beginning.laidOut {depth : Nat} (hDepth : 0 < depth) {opened : Int} {start : List Char}
    (hStart : Beginning depth opened start) {text : List Char} (h : Continues text) :
    LaidOut opened (start ++ text) := by
  refine laidOut_of_count ?indented ?trimmed ?positive
  case indented =>
    cases text with
    | nil => exact absurd rfl h.ne_nil
    | cons c cs =>
      refine hStart.indented ?_ ?_ cs
      · rintro rfl
        exact h.tab_not_mem List.mem_cons_self
      · rintro rfl
        exact h.close_not_mem List.mem_cons_self
  case trimmed =>
    rw [Trimmed, List.getLast?_append_of_ne_nil _ h.ne_nil]
    exact ⟨h.last, fun hTab => h.tab_not_mem (List.mem_of_getLast? hTab)⟩
  case positive =>
    have hCount := hStart.count_close
    rw [List.count_append, List.count_eq_zero.mpr h.close_not_mem, Nat.add_zero]
    omega

/-! ## Texts of statements -/

section

variable {depth : Nat} (hDepth : 0 < depth) {opened : Int} {start : List Char}
  {rest : List Char}

include hDepth

/-- Behind a line that opens the braces in `text`, the innermost block goes on. -/
theorem Beginning.blockLines (hStart : Beginning depth opened start) {text : List Char}
    (h : Continues text) (hRest : BlockLines (depth + text.count '\x7b') (lines rest)) :
    BlockLines opened (lines (start ++ text ++ '\n' :: rest)) := by
  have hNewline : '\n' ∉ start ++ text := fun hMem =>
    (List.mem_append.mp hMem).elim hStart.newline_not_mem h.newline_not_mem
  have hBalance : opened + balance (start ++ text) = depth + text.count '\x7b' := by
    have hClose := hStart.count_close
    rw [balance, List.count_append, List.count_append, hStart.count_open,
      List.count_eq_zero.mpr h.close_not_mem]
    omega
  rw [lines_append_newline hNewline]
  exact .line (hStart.laidOut hDepth h) (hBalance ▸ hRest)

theorem blockLines_inline (hStart : Beginning depth opened start) {text : List Char}
    (h : Inline text) (hRest : BlockLines depth (lines rest)) :
    BlockLines opened (lines (start ++ (text ++ '\n' :: rest))) := by
  have hNone : text.count '\x7b' = 0 := List.count_eq_zero.mpr fun hMem => nomatch h.chars _ hMem
  rw [← List.append_assoc]
  refine hStart.blockLines hDepth h.continues ?_
  rwa [hNone, Int.natCast_zero, Int.add_zero]

theorem blockLines_open (hStart : Beginning depth opened start) {text : List Char}
    (h : ∀ c ∈ text, isInline c) (hRest : BlockLines ((depth + 1 : Nat) : Int) (lines rest)) :
    BlockLines opened (lines (start ++ (text ++ '\x7b' :: '\n' :: rest))) := by
  have hText : start ++ (text ++ '\x7b' :: '\n' :: rest) =
      start ++ (text ++ ['\x7b']) ++ '\n' :: rest := by simp
  rw [hText]
  refine hStart.blockLines hDepth (continues_open h) ?_
  rwa [count_open_append h]

/-- Behind the brace that closes a block the one around it goes on. -/
theorem blockLines_close (hRest : BlockLines depth (lines rest)) :
    BlockLines ((depth + 1 : Nat) : Int)
      (lines ((tabs depth).toList ++ '\x7d' :: '\n' :: rest)) := by
  have hText : (tabs depth).toList ++ '\x7d' :: '\n' :: rest =
      (tabs depth).toList ++ ['\x7d'] ++ '\n' :: rest := by simp
  have hNewline : '\n' ∉ (tabs depth).toList ++ ['\x7d'] := by
    simp [tabs]
  have hOne : ((tabs depth).toList ++ ['\x7d']).count '\x7d' = 1 := by
    rw [List.count_append, count_tabs depth (by decide)]
    rfl
  have hLine : LaidOut ((depth + 1 : Nat) : Int) ((tabs depth).toList ++ ['\x7d']) := by
    refine laidOut_of_count (indented_tabs depth (c := '\x7d') (by decide) []) ?_ (by omega)
    rw [Trimmed, List.getLast?_concat]
    decide
  have hBalance :
      ((depth + 1 : Nat) : Int) + balance ((tabs depth).toList ++ ['\x7d']) = depth := by
    rw [balance, hOne, List.count_append, count_tabs depth (by decide)]
    simp
  rw [hText, lines_append_newline hNewline]
  exact .line hLine (hBalance ▸ hRest)

end

/-- A text in front of a value, and the value. -/
theorem inline_value {text : String} (hText : ∀ c ∈ text.toList, isInline c) {e : Expr}
    (he : e.isPlain) : Inline (text ++ e.text).toList := by
  rw [String.toList_append]
  exact .append hText (e.inline_text he)

theorem isInline_append {text more : String} (h : ∀ c ∈ text.toList, isInline c)
    (hMore : ∀ c ∈ more.toList, isInline c) : ∀ c ∈ (text ++ more).toList, isInline c := by
  rw [String.toList_append]
  exact List.forall_mem_append.mpr ⟨h, hMore⟩

theorem isInline_assignOp (op : AssignOp) : ∀ c ∈ op.text.toList, isInline c := by
  cases op <;> exact isInline_of_all rfl

mutual

/-- The text of a statement leaves the braces of the block as it found them: what stands behind
it goes on with the block. The induction is on the statement, for every beginning of its line,
since a chained alternative begins where the one before it was closed. -/
theorem blockLines_stmt : (s : Stmt) → s.isPlain → ∀ {depth : Nat}, 0 < depth →
    ∀ {opened : Int} {start rest : List Char}, Beginning depth opened start →
      BlockLines depth (lines rest) →
      BlockLines opened (lines (start ++ ((s.text depth).toList ++ '\n' :: rest)))
  | .define x e, hs, depth, hDepth, opened, start, rest, hStart, hRest => by
    rw [Stmt.isPlain, Bool.and_eq_true] at hs
    refine blockLines_inline hDepth hStart ?_ hRest
    exact inline_value (isInline_append (Inline.name hs.1).chars (isInline_of_all rfl)) hs.2
  | .declare x ty, hs, depth, hDepth, opened, start, rest, hStart, hRest => by
    have hType : Inline ty.text.toList := by
      cases ty
      exact .of_all (by decide)
    refine blockLines_inline hDepth hStart ?_ hRest
    change Inline ("var " ++ x ++ " " ++ ty.text).toList
    rw [String.toList_append]
    exact .append (isInline_append (isInline_append (isInline_of_all rfl) (Inline.name hs).chars)
      (isInline_of_all rfl)) hType
  | .assign x op e, hs, depth, hDepth, opened, start, rest, hStart, hRest => by
    rw [Stmt.isPlain, Bool.and_eq_true] at hs
    refine blockLines_inline hDepth hStart ?_ hRest
    have hTarget : ∀ c ∈ (x ++ " ").toList, isInline c :=
      isInline_append (Inline.name hs.1).chars (isInline_of_all rfl)
    exact inline_value (isInline_append (isInline_append hTarget (isInline_assignOp op))
      (isInline_of_all rfl)) hs.2
  | .step x op, hs, depth, hDepth, opened, start, rest, hStart, hRest => by
    rw [Stmt.isPlain, Bool.and_eq_true] at hs
    refine blockLines_inline hDepth hStart ?_ hRest
    change Inline (x ++ op.text).toList
    rw [String.toList_append]
    exact .append (Inline.name hs.1).chars (.unaryOp op)
  | .eval e, hs, depth, hDepth, opened, start, rest, hStart, hRest => by
    rw [Stmt.isPlain, Bool.and_eq_true] at hs
    exact blockLines_inline hDepth hStart (e.inline_text hs.2) hRest
  | .branch c body alt, hs, depth, hDepth, opened, start, rest, hStart, hRest => by
    rw [Stmt.isPlain, Bool.and_eq_true, Bool.and_eq_true] at hs
    have hText : ((Stmt.branch c body alt).text depth).toList ++ '\n' :: rest =
        "if ".toList ++ c.text.toList ++ " ".toList ++ '\x7b' :: '\n' ::
          ((linesOf (depth + 1) body).toList ++ ((tabs depth).toList ++
            '\x7d' :: ((alt.text depth).toList ++ '\n' :: rest))) := by
      rw [toList_branch]
      simp
    rw [hText]
    refine blockLines_open hDepth hStart ?_ ?_
    · simp only [List.forall_mem_append]
      exact ⟨⟨isInline_of_all rfl, (c.inline_text hs.1.1).chars⟩, isInline_of_all rfl⟩
    · exact blockLines_linesOf body hs.1.2 (Nat.succ_pos _)
        (blockLines_else alt hs.2 hDepth hRest)
  | .loop c body, hs, depth, hDepth, opened, start, rest, hStart, hRest => by
    rw [Stmt.isPlain, Bool.and_eq_true] at hs
    have hText : ((Stmt.loop c body).text depth).toList ++ '\n' :: rest =
        "for ".toList ++ c.text.toList ++ " ".toList ++ '\x7b' :: '\n' ::
          ((linesOf (depth + 1) body).toList ++ ((tabs depth).toList ++
            '\x7d' :: '\n' :: rest)) := by
      rw [toList_loop]
      simp
    rw [hText]
    refine blockLines_open hDepth hStart ?_ ?_
    · simp only [List.forall_mem_append]
      exact ⟨⟨isInline_of_all rfl, (c.inline_text hs.1).chars⟩, isInline_of_all rfl⟩
    · exact blockLines_linesOf body hs.2 (Nat.succ_pos _) (blockLines_close hDepth hRest)
  | .leave none, hs, depth, hDepth, opened, start, rest, hStart, hRest => by
    have hReturn : Inline "return".toList := .of_all (by decide)
    exact blockLines_inline hDepth hStart hReturn hRest
  | .leave (some e), hs, depth, hDepth, opened, start, rest, hStart, hRest => by
    refine blockLines_inline hDepth hStart ?_ hRest
    have hReturn : ∀ c ∈ "return ".toList, isInline c := isInline_of_all rfl
    exact inline_value hReturn hs
  | .block body, hs, depth, hDepth, opened, start, rest, hStart, hRest => by
    have hText : ((Stmt.block body).text depth).toList ++ '\n' :: rest =
        [] ++ '\x7b' :: '\n' :: ((linesOf (depth + 1) body).toList ++ ((tabs depth).toList ++
            '\x7d' :: '\n' :: rest)) :=
      toList_block body depth _
    rw [hText]
    refine blockLines_open hDepth hStart (fun c hc => nomatch hc) ?_
    exact blockLines_linesOf body hs (Nat.succ_pos _) (blockLines_close hDepth hRest)

theorem blockLines_else : (alt : Else) → alt.isPlain → ∀ {depth : Nat}, 0 < depth →
    ∀ {rest : List Char}, BlockLines depth (lines rest) →
      BlockLines ((depth + 1 : Nat) : Int) (lines ((tabs depth).toList ++
        '\x7d' :: ((alt.text depth).toList ++ '\n' :: rest)))
  | .none, _, depth, hDepth, rest, hRest => blockLines_close hDepth hRest
  | .block body, hs, depth, hDepth, rest, hRest => by
    have hText : (tabs depth).toList ++ '\x7d' :: (((Else.block body).text depth).toList ++
        '\n' :: rest) = (tabs depth).toList ++ "\x7d else ".toList ++ ([] ++ '\x7b' :: '\n' ::
          ((linesOf (depth + 1) body).toList ++ ((tabs depth).toList ++
            '\x7d' :: '\n' :: rest))) := by
      rw [toList_else]
      simp
    rw [hText]
    refine blockLines_open hDepth .alternative (fun c hc => nomatch hc) ?_
    exact blockLines_linesOf body hs (Nat.succ_pos _) (blockLines_close hDepth hRest)
  | .chain next, hs, depth, hDepth, rest, hRest => by
    rw [Else.isPlain, Bool.and_eq_true] at hs
    have hText : (tabs depth).toList ++ '\x7d' :: (((Else.chain next).text depth).toList ++
        '\n' :: rest) = (tabs depth).toList ++ "\x7d else ".toList ++
          ((next.text depth).toList ++ '\n' :: rest) := by
      rw [toList_elseIf]
      simp
    rw [hText]
    exact blockLines_stmt next hs.2 hDepth .alternative hRest

theorem blockLines_linesOf : (ss : List Stmt) → plainAll ss → ∀ {depth : Nat}, 0 < depth →
    ∀ {rest : List Char}, BlockLines depth (lines rest) →
      BlockLines depth (lines ((linesOf depth ss).toList ++ rest))
  | [], _, depth, hDepth, rest, hRest => hRest
  | s :: ss, hs, depth, hDepth, rest, hRest => by
    rw [plainAll, Bool.and_eq_true] at hs
    rw [toList_linesOf_cons]
    exact blockLines_stmt s hs.1 hDepth .tabs (blockLines_linesOf ss hs.2 hDepth hRest)

end

/-! ## Functions -/

/-- What stands behind some lines of a block is a block with the braces that they leave open. -/
theorem BlockLines.drop {opened : Int} {before behind : List (List Char)} {line : List Char}
    (h : BlockLines opened (before ++ line :: behind)) :
    BlockLines (opened + balance before.flatten) (line :: behind) := by
  induction before generalizing opened with
  | nil => simpa [balance] using h
  | cons first before ih =>
    generalize hLines : first :: before ++ line :: behind = ls at h
    cases h with
    | close => simp at hLines
    | line hFirst hRest =>
      obtain ⟨rfl, rfl⟩ := List.cons.inj hLines
      have hDrop := ih hRest
      rwa [Int.add_assoc, ← balance_append, ← List.flatten_cons] at hDrop

theorem BlockLines.balance_eq {opened : Int} {ls : List (List Char)} (h : BlockLines opened ls) :
    opened + balance ls.flatten = 0 := by
  induction h with
  | close => decide
  | line _ _ ih => rwa [List.flatten_cons, balance_append, ← Int.add_assoc]

theorem BlockLines.getLast? {opened : Int} {ls : List (List Char)} (h : BlockLines opened ls) :
    ls.getLast? = some ['\x7d'] := by
  induction h with
  | close => rfl
  | line _ _ ih =>
    rw [List.getLast?_cons, ih]
    rfl

section

variable {opened : Int} {line : List Char} {behind : List (List Char)}

theorem BlockLines.laidOut (h : BlockLines opened (line :: behind)) (hne : behind ≠ []) :
    LaidOut opened line := by
  cases h with
  | close => exact absurd rfl hne
  | line hLine _ => exact hLine

theorem BlockLines.indented (h : BlockLines opened (line :: behind)) : Indented opened line := by
  cases h with
  | close => rfl
  | line hLine _ => exact hLine.indented

end

theorem BlockLines.trimmed {opened : Int} {ls : List (List Char)} (h : BlockLines opened ls) :
    ∀ line ∈ ls, Trimmed line := by
  induction h with
  | close => exact List.forall_mem_singleton.mpr (by decide)
  | line hLine _ ih => exact List.forall_mem_cons.mpr ⟨hLine.trimmed, ih⟩

/-- The layout of a function: where its lines begin and end, which braces are open, and that the
last line closes them. -/
structure Layout (f : Function) : Prop where
  /-- The only line that is not indented is the blank one of an empty body. -/
  indented : ∀ before line behind, lines f.text.toList = before ++ line :: behind →
    Indented (balance before.flatten) line ∨ f.body = [] ∧ before.length = 1 ∧ line = []
  trimmed : ∀ line ∈ lines f.text.toList, Trimmed line
  /-- Between the first line and the last one some brace is open. -/
  positive : ∀ before line behind, lines f.text.toList = before ++ line :: behind →
    before ≠ [] → behind ≠ [] → ∀ part, part <+: line → 0 < balance (before.flatten ++ part)
  last : (lines f.text.toList).getLast? = some ['\x7d']
  closed : balance f.text.toList = 0

theorem lines_close : lines ['\x7d'] = [['\x7d']] :=
  List.splitOn_eq_singleton (by decide)

/-- The first line of a function opens its body. -/
theorem exists_firstLine {f : Function} (hf : f.isPlain) : ∃ first : List Char,
    f.text.toList = first ++ '\n' :: ((bodyLines f.body).toList ++ ['\x7d']) ∧
      '\n' ∉ first ∧ Indented 0 first ∧ Trimmed first ∧ balance first = 1 := by
  rw [Function.isPlain, Bool.and_eq_true, Bool.and_eq_true, List.all_eq_true] at hf
  have hParams : ∀ c ∈ (", ".intercalate (f.params.map Param.text)).toList, isInline c := by
    refine isInline_intercalate fun t ht => ?_
    obtain ⟨p, hp, rfl⟩ := List.mem_map.mp ht
    have hType : ∀ c ∈ p.type.text.toList, isInline c := by
      cases p.type
      exact isInline_of_all rfl
    have hName := (Inline.name (hf.1.2 p hp)).chars
    exact isInline_append (isInline_append hName (isInline_of_all rfl)) hType
  have hResult : ∀ c ∈ f.result.elim [] (fun _ => [' ', 'i', 'n', 't']), isInline c := by
    cases f.result with
    | none => exact isInline_of_all rfl
    | some ty => exact isInline_of_all rfl
  have hText := toList_function f []
  rw [List.append_nil] at hText
  have hHead : ∀ c ∈ 'f' :: ("unc ".toList ++ (f.name.toList ++
      '(' :: ((", ".intercalate (f.params.map Param.text)).toList ++
        ')' :: (f.result.elim [] (fun _ => [' ', 'i', 'n', 't']) ++ [' '])))), isInline c := by
    simp only [List.forall_mem_append, List.forall_mem_cons]
    exact ⟨rfl, isInline_of_all rfl, (Inline.name hf.1.1).chars, rfl, hParams, rfl, hResult, rfl,
      fun _ hc => nomatch hc⟩
  have hContinues := continues_open hHead
  refine ⟨_, ?_, hContinues.newline_not_mem, ?_, ?_, ?_⟩
  · rw [hText]
    simp
  · have hIndented := indented_tabs 0 (c := 'f') (by decide)
    exact hIndented _
  · rw [Trimmed, List.getLast?_concat]
    decide
  · rw [balance, count_open_append hHead, List.count_eq_zero.mpr hContinues.close_not_mem]
    rfl

/-- The lines behind the first one are a block, or those of an empty body. -/
theorem lines_body {body : List Stmt} (h : plainAll body) :
    BlockLines 1 (lines ((bodyLines body).toList ++ ['\x7d'])) ∨
      body = [] ∧ lines ((bodyLines body).toList ++ ['\x7d']) = [[], ['\x7d']] := by
  have hClose : BlockLines (1 : Nat) (lines ['\x7d']) := lines_close ▸ .close
  cases body with
  | nil => exact .inr ⟨rfl, by rw [bodyLines]; decide⟩
  | cons s ss => exact .inl (blockLines_linesOf (s :: ss) h Nat.one_pos hClose)

/-- Each of these lines is one of a block, but for the blank one of an empty body. -/
theorem drop_lines_body {body : List Stmt} (h : plainAll body) {line : List Char}
    {before behind : List (List Char)}
    (hLines : lines ((bodyLines body).toList ++ ['\x7d']) = before ++ line :: behind) :
    BlockLines (1 + balance before.flatten) (line :: behind) ∨
      body = [] ∧ before = [] ∧ line = [] := by
  rcases lines_body h with hBlock | ⟨hBody, hEmpty⟩
  · exact .inl (hLines ▸ hBlock).drop
  · rw [hEmpty] at hLines
    cases before with
    | nil => exact .inr ⟨hBody, rfl, (List.cons.inj hLines).1.symm⟩
    | cons blank before =>
      obtain ⟨rfl, hClose⟩ := List.cons.inj hLines
      exact .inl (hClose ▸ BlockLines.close).drop

/-- **The layout of plain functions.** -/
theorem layout_of_isPlain {f : Function} (hf : f.isPlain) : Layout f := by
  obtain ⟨first, hText, hNewline, hIndented, hTrimmed, hBalance⟩ := exists_firstLine hf
  have hPlain : plainAll f.body := (Bool.and_eq_true_iff.mp hf).2
  have hLines : lines f.text.toList = first :: lines ((bodyLines f.body).toList ++ ['\x7d']) := by
    rw [hText, lines_append_newline hNewline]
  have hOpened (before : List (List Char)) :
      balance (first :: before).flatten = 1 + balance before.flatten := by
    rw [List.flatten_cons, balance_append, hBalance]
  refine ⟨?indented, ?trimmed, ?positive, ?last, ?closed⟩
  case indented =>
    intro before line behind h
    rw [hLines] at h
    cases before with
    | nil =>
      obtain ⟨rfl, -⟩ := List.cons.inj h
      exact .inl hIndented
    | cons l before =>
      obtain ⟨rfl, hRest⟩ := List.cons.inj h
      rcases drop_lines_body hPlain hRest with hBlock | ⟨hEmpty, rfl, rfl⟩
      · exact .inl (hOpened before ▸ hBlock.indented)
      · exact .inr ⟨hEmpty, rfl, rfl⟩
  case trimmed =>
    rw [hLines]
    refine List.forall_mem_cons.mpr ⟨hTrimmed, ?_⟩
    rcases lines_body hPlain with hBlock | ⟨-, hEmpty⟩
    · exact hBlock.trimmed
    · rw [hEmpty]
      decide
  case positive =>
    intro before line behind h hBefore hBehind part hPart
    rw [hLines] at h
    cases before with
    | nil => exact absurd rfl hBefore
    | cons l before =>
      obtain ⟨rfl, hRest⟩ := List.cons.inj h
      rw [balance_append, hOpened]
      rcases drop_lines_body hPlain hRest with hBlock | ⟨-, rfl, rfl⟩
      · exact (hBlock.laidOut hBehind).positive part hPart
      · rw [List.prefix_nil.mp hPart]
        decide
  case last =>
    rw [hLines, List.getLast?_cons]
    rcases lines_body hPlain with hBlock | ⟨-, hEmpty⟩
    · rw [hBlock.getLast?]
      rfl
    · rw [hEmpty]
      rfl
  case closed =>
    rw [← balance_flatten_lines, hLines, hOpened]
    rcases lines_body hPlain with hBlock | ⟨-, hEmpty⟩
    · exact hBlock.balance_eq
    · rw [hEmpty]
      decide

/-- **Compiled functions are laid out by their braces.** -/
theorem layout_of_compile {rules : List Rule} {file source text : String}
    (h : compile rules file source = .ok text) :
    ∃ p out, Source.parse file source = .ok p ∧ compileProgram rules p = .ok out ∧
      out.text = text ∧ ∀ f ∈ out.functions, Layout f := by
  obtain ⟨p, out, hParse, hCompile, hText⟩ := exists_file_of_compile h
  have hPlain := File.isPlain_of_compileProgram hParse hCompile
  rw [File.isPlain, Bool.and_eq_true, List.all_eq_true] at hPlain
  exact ⟨p, out, hParse, hCompile, hText, fun f hf => layout_of_isPlain (hPlain.2 f hf)⟩

/-- A source text with an empty body and a chain of alternatives in a loop. -/
def ladderSource : String :=
  "int e() \x7b \x7d int f(int a) \x7b while (a) \x7b if (a < 3) return a; " ++
    "else if (a < 5) \x7b \x7d else a = a - 1; \x7d return 0; \x7d"

/-- What it is compiled to. -/
def ladderText : String :=
  "package main\n\nfunc e() int \x7b\n\n\x7d\n\nfunc f(a int) int \x7b\n\tfor a \x7b\n" ++
    "\t\tif a < 3 \x7b\n\t\t\treturn a\n\t\t\x7d else if a < 5 \x7b\n\t\t\x7d else \x7b\n" ++
    "\t\t\ta = a - 1\n\t\t\x7d\n\t\x7d\n\treturn 0\n\x7d"

theorem layout_of_compile_ladder :
    compile Rule.standard "f.c" ladderSource = .ok ladderText ∧
    ∃ p out, Source.parse "f.c" ladderSource = .ok p ∧
      compileProgram Rule.standard p = .ok out ∧ out.text = ladderText ∧
      ∀ f ∈ out.functions, Layout f := by
  have hChecked : (compile Rule.standard "f.c" ladderSource).toOption = some ladderText := by
    decide +kernel
  have hCompile := eq_ok_of_toOption hChecked
  exact ⟨hCompile, layout_of_compile hCompile⟩

end CToGo.Target
