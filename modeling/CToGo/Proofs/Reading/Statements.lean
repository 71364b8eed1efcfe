import CToGo.Proofs.Reading.RoundTrip

/-!
# Statements are told by their texts

The text of a statement and the line feed behind it tell the statement, whatever follows: the
first line shows which form the statement has, and a nested one is closed by a brace that has
one tab less in front of it than the lines before.

* `Stmt.isPlain`: the statements in question.
* `formOf`: the form of a statement, read off its first characters.
* `Stmt.text_inj`, `linesOf_inj`: **equal texts have equal statements.**
-/

namespace CToGo.Target

open Source (isWordStart isWordRest)

/-! ## Plain statements -/

def Expr.isCall : Expr → Bool
  | .call .. => true
  | _ => false

def Stmt.isBranch : Stmt → Bool
  | .branch .. => true
  | _ => false

mutual

/-- Whether the names of a statement are identifiers, its expressions are plain, those without a
use for their value are calls, steps go up or down, and alternatives are chained to branches. -/
def Stmt.isPlain : Stmt → Bool
  | .define name value => isName name && value.isPlain
  | .declare name _ => isName name
  | .assign target _ value => isName target && value.isPlain
  | .step target op => isName target && op != .negate
  | .eval e => e.isCall && e.isPlain
  | .branch condition thenBody elseBranch =>
    condition.isPlain && plainAll thenBody && elseBranch.isPlain
  | .loop condition body => condition.isPlain && plainAll body
  | .leave none => true
  | .leave (some value) => value.isPlain
  | .block body => plainAll body

def Else.isPlain : Else → Bool
  | .none => true
  | .block body => plainAll body
  | .chain next => next.isBranch && next.isPlain

def plainAll : List Stmt → Bool
  | [] => true
  | s :: rest => s.isPlain && plainAll rest

end

/-! ## Names and lines -/

/-- A name and where it ends are told by the text. -/
theorem isName_inj {x y : String} (hx : isName x) (hy : isName y) {rest rest' : List Char}
    (hRest : Apart rest) (hRest' : Apart rest') (h : x.toList ++ rest = y.toList ++ rest') :
    x = y ∧ rest = rest' := by
  obtain ⟨hNames, hEnds⟩ := append_inj_of_head (fun _ => isWordRest_of_isName hx)
    (fun _ => isWordRest_of_isName hy) (fun c hc => (hRest c hc).1) (fun c hc => (hRest' c hc).1) h
  exact ⟨String.toList_inj.mp hNames, hEnds⟩

theorem newline_not_mem_marks : ∀ m ∈ marks, '\n' ∉ m.toList := by decide

/-- A lexeme does not reach beyond its line. -/
theorem newline_of_nextLexeme? {text rest : List Char} {l : Lexeme}
    (h : nextLexeme? text = some (l, rest)) (hMem : '\n' ∈ text) : '\n' ∈ rest := by
  obtain ⟨used, rfl, hUsed⟩ := exists_readFrom h
  have hRun (hAll : ∀ c ∈ used, isWordRest c) : '\n' ∉ used := fun hMem => nomatch hAll _ hMem
  refine (List.mem_append.mp hMem).resolve_left ?_
  cases l with
  | number n => exact hRun hUsed.2
  | word x => exact hRun hUsed.2
  | mark m =>
    obtain ⟨hm, rfl⟩ := hUsed
    exact newline_not_mem_marks m hm

theorem Lexed.newline_not_mem {text : List Char} {ls : List Lexeme} (h : Lexed text ls) :
    '\n' ∉ text := by
  induction h with
  | done => simp
  | space hc _ ih =>
    intro hMem
    rcases List.mem_cons.mp hMem with rfl | hMem
    · cases hc
    · exact ih hMem
  | lexeme hl _ ih => exact fun hMem => ih (newline_of_nextLexeme? hl hMem)

/-- The text of a plain expression stands on one line. -/
theorem Expr.newline_not_mem_text {e : Expr} (he : e.isPlain) : '\n' ∉ e.text.toList := by
  obtain ⟨ls, hLexed, -⟩ := reads_text he
  exact hLexed.newline_not_mem

theorem Expr.text_injective {e e' : Expr} (he : e.isPlain) (he' : e'.isPlain)
    (h : e.text = e'.text) : e = e' :=
  (reads_text he).unique (h ▸ reads_text he')

/-- An expression at the end of a line, or in front of a fixed text there, is told. -/
theorem Expr.line_inj {e e' : Expr} (he : e.isPlain) (he' : e'.isPlain) {close : List Char}
    (hClose : '\n' ∉ close) {rest rest' : List Char}
    (h : e.text.toList ++ close ++ '\n' :: rest = e'.text.toList ++ close ++ '\n' :: rest') :
    e = e' ∧ rest = rest' := by
  have hLine {e : Expr} (he : e.isPlain) : ∀ c ∈ e.text.toList ++ close, c != '\n' := by
    intro c hc
    rw [bne_iff_ne]
    rintro rfl
    exact (List.mem_append.mp hc).elim (Expr.newline_not_mem_text he) hClose
  have hEnd {rest : List Char} : ∀ c, ('\n' :: rest).head? = some c → ¬ (c != '\n') := by
    simp
  obtain ⟨hTexts, hEnds⟩ := append_inj_of_head (hLine he) (hLine he') hEnd hEnd h
  refine ⟨Expr.text_injective he he' ?_, (List.cons.inj hEnds).2⟩
  exact String.toList_inj.mp (List.append_cancel_right hTexts)

theorem Expr.endOfLine_inj {e e' : Expr} (he : e.isPlain) (he' : e'.isPlain)
    {rest rest' : List Char}
    (h : e.text.toList ++ '\n' :: rest = e'.text.toList ++ '\n' :: rest') :
    e = e' ∧ rest = rest' :=
  Expr.line_inj he he' (List.not_mem_nil (a := '\n')) (by simpa using h)

/-! ## Forms -/

/-- The forms of statements. -/
inductive Form where
  | define | declare | assign | step | eval | branch | loop | leave | block
deriving DecidableEq

def Stmt.form : Stmt → Form
  | .define .. => .define
  | .declare .. => .declare
  | .assign .. => .assign
  | .step .. => .step
  | .eval .. => .eval
  | .branch .. => .branch
  | .loop .. => .loop
  | .leave .. => .leave
  | .block .. => .block

/-- The form of a statement that begins with no keyword, read off what follows its first name. -/
def formAfterName : List Char → Form
  | ' ' :: ':' :: _ => .define
  | ' ' :: _ => .assign
  | '+' :: _ => .step
  | '-' :: _ => .step
  | '\x7b' :: _ => .block
  | _ => .eval

/-- The form of a statement, read off its text. -/
def formOf (text : List Char) : Form :=
  let word := String.ofList (text.takeWhile isWordRest)
  if word = "var" then .declare
  else if word = "if" then .branch
  else if word = "for" then .loop
  else if word = "return" then .leave
  else formAfterName (text.dropWhile isWordRest)

/-! ## The characters of a statement

The equations with which proofs about texts open `Stmt.text`, `Else.text` and `linesOf`. -/

section

variable (x : String) (e : Expr) (body : List Stmt) (depth : Nat) (rest : List Char)

theorem toList_define : ((Stmt.define x e).text depth).toList ++ rest =
    x.toList ++ ' ' :: ':' :: '=' :: ' ' :: (e.text.toList ++ rest) := by
  change (x ++ " := " ++ e.text).toList ++ rest = _
  simp

theorem toList_declare (ty : Ty) : ((Stmt.declare x ty).text depth).toList ++ rest =
    'v' :: 'a' :: 'r' :: ' ' :: (x.toList ++ ' ' :: 'i' :: 'n' :: 't' :: rest) := by
  change ("var " ++ x ++ " " ++ ty.text).toList ++ rest = _
  simp [Ty.text]

theorem toList_assign (op : AssignOp) : ((Stmt.assign x op e).text depth).toList ++ rest =
    x.toList ++ ' ' :: (op.text.toList ++ ' ' :: (e.text.toList ++ rest)) := by
  change (x ++ " " ++ op.text ++ " " ++ e.text).toList ++ rest = _
  simp

theorem toList_step (op : UnaryOp) : ((Stmt.step x op).text depth).toList ++ rest =
    x.toList ++ (op.text.toList ++ rest) := by
  change (x ++ op.text).toList ++ rest = _
  simp

theorem toList_braced (lines : String) : (braced depth lines).toList ++ rest =
    '\x7b' :: '\n' :: (lines.toList ++ ((tabs depth).toList ++ '\x7d' :: rest)) := by
  simp [braced]

theorem toList_branch (alt : Else) : ((Stmt.branch e body alt).text depth).toList ++ rest =
    'i' :: 'f' :: ' ' :: (e.text.toList ++ [' ', '\x7b'] ++ '\n' ::
      ((linesOf (depth + 1) body).toList ++ ((tabs depth).toList ++ '\x7d' ::
        ((alt.text depth).toList ++ rest)))) := by
  change ("if " ++ e.text ++ " " ++ braced depth (linesOf (depth + 1) body) ++
    alt.text depth).toList ++ rest = _
  simp [braced]

theorem toList_loop : ((Stmt.loop e body).text depth).toList ++ rest =
    'f' :: 'o' :: 'r' :: ' ' :: (e.text.toList ++ [' ', '\x7b'] ++ '\n' ::
      ((linesOf (depth + 1) body).toList ++ ((tabs depth).toList ++ '\x7d' :: rest))) := by
  change ("for " ++ e.text ++ " " ++ braced depth (linesOf (depth + 1) body)).toList ++ rest = _
  simp [braced]

theorem toList_leave : ((Stmt.leave none).text depth).toList ++ rest =
    'r' :: 'e' :: 't' :: 'u' :: 'r' :: 'n' :: rest := by
  change "return".toList ++ rest = _
  simp

theorem toList_leaveWith : ((Stmt.leave (some e)).text depth).toList ++ rest =
    'r' :: 'e' :: 't' :: 'u' :: 'r' :: 'n' :: ' ' :: (e.text.toList ++ rest) := by
  change ("return " ++ e.text).toList ++ rest = _
  simp

theorem toList_block : ((Stmt.block body).text depth).toList ++ rest =
    '\x7b' :: '\n' ::
      ((linesOf (depth + 1) body).toList ++ ((tabs depth).toList ++ '\x7d' :: rest)) :=
  toList_braced depth rest _

theorem toList_else : ((Else.block body).text depth).toList ++ rest =
    ' ' :: 'e' :: 'l' :: 's' :: 'e' :: ' ' :: '\x7b' :: '\n' ::
      ((linesOf (depth + 1) body).toList ++ ((tabs depth).toList ++ '\x7d' :: rest)) := by
  change (" else " ++ braced depth (linesOf (depth + 1) body)).toList ++ rest = _
  simp [braced]

theorem toList_elseIf (s : Stmt) : ((Else.chain s).text depth).toList ++ rest =
    ' ' :: 'e' :: 'l' :: 's' :: 'e' :: ' ' :: ((s.text depth).toList ++ rest) := by
  change (" else " ++ s.text depth).toList ++ rest = _
  simp

theorem toList_linesOf_cons (s : Stmt) : (linesOf depth (s :: body)).toList ++ rest =
    (tabs depth).toList ++
      ((s.text depth).toList ++ '\n' :: ((linesOf depth body).toList ++ rest)) := by
  change (tabs depth ++ s.text depth ++ "\n" ++ linesOf depth body).toList ++ rest = _
  simp

end

theorem formOf_name {x : String} (hx : isName x) {c : Char} (hc : isWordRest c = false)
    (rest : List Char) : formOf (x.toList ++ c :: rest) = formAfterName (c :: rest) := by
  have hEnd : ∀ d, (c :: rest).head? = some d → ¬ isWordRest d := by
    intro d hd
    cases hd
    simp [hc]
  obtain ⟨hTake, hDrop⟩ := takeWhile_append_of_head (fun _ => isWordRest_of_isName hx) hEnd
  have hKeyword {k : String} (hk : k ∈ targetKeywords) : x ≠ k := by
    rintro rfl
    exact not_mem_targetKeywords_of_isName hx hk
  simp only [formOf, hTake, hDrop, String.ofList_toList]
  rw [if_neg (hKeyword (by decide)), if_neg (hKeyword (by decide)), if_neg (hKeyword (by decide)),
    if_neg (hKeyword (by decide))]

theorem formOf_call {e : Expr} (hCall : e.isCall) (he : e.isPlain) (rest : List Char) :
    formOf (e.text.toList ++ rest) = .eval := by
  cases e with
  | call f args =>
    rw [Expr.isPlain, Bool.and_eq_true, Bool.and_eq_true] at he
    obtain ⟨⟨hNamed, hf⟩, -⟩ := he
    have hText : (Expr.call f args).text.toList ++ rest = f.text.toList ++
        '(' :: ((", ".intercalate (textOfEach args)).toList ++ ')' :: rest) := by
      simp [Expr.text]
    rw [hText]
    cases f with
    | ident x =>
      rw [Expr.text, formOf_name hf rfl]
      rfl
    | selector p x =>
      rw [Expr.isPlain, Bool.and_eq_true] at hf
      have hSelector : (p ++ "." ++ x).toList = p.toList ++ '.' :: x.toList := by simp
      rw [Expr.text, hSelector, List.append_assoc]
      exact formOf_name hf.1 rfl _
    | _ => cases hNamed
  | _ => cases hCall

/-- The form of a plain statement is told by its text. -/
theorem formOf_text {s : Stmt} (hs : s.isPlain) (depth : Nat) (rest : List Char) :
    formOf ((s.text depth).toList ++ '\n' :: rest) = s.form := by
  cases s with
  | define x e =>
    rw [Stmt.isPlain, Bool.and_eq_true] at hs
    rw [toList_define, formOf_name hs.1 rfl]
    rfl
  | declare x ty =>
    rw [toList_declare]
    rfl
  | assign x op e =>
    rw [Stmt.isPlain, Bool.and_eq_true] at hs
    rw [toList_assign, formOf_name hs.1 rfl]
    cases op <;> rfl
  | step x op =>
    rw [Stmt.isPlain, Bool.and_eq_true, bne_iff_ne] at hs
    rw [toList_step]
    cases op with
    | negate => exact absurd rfl hs.2
    | increment => exact formOf_name hs.1 rfl _
    | decrement => exact formOf_name hs.1 rfl _
  | eval e =>
    rw [Stmt.isPlain, Bool.and_eq_true] at hs
    exact formOf_call hs.1 hs.2 _
  | branch c body alt =>
    rw [toList_branch]
    rfl
  | loop c body =>
    rw [toList_loop]
    rfl
  | leave value =>
    cases value with
    | none =>
      rw [toList_leave]
      rfl
    | some e =>
      rw [toList_leaveWith]
      rfl
  | block body =>
    rw [toList_block]
    rfl

/-! ## Equal texts -/

theorem tabs_succ (depth : Nat) : (tabs (depth + 1)).toList = (tabs depth).toList ++ ['\t'] := by
  simp [tabs, List.replicate_succ']

/-- A closing brace has fewer tabs in front of it than the lines before. -/
theorem close_ne_line (depth : Nat) (rest rest' : List Char) :
    (tabs depth).toList ++ '\x7d' :: rest ≠ (tabs (depth + 1)).toList ++ rest' := by
  rw [tabs_succ, List.append_assoc]
  intro h
  cases List.append_cancel_left h

/-- An alternative goes on with the line. -/
theorem newline_ne_else {alt : Else} (hAlt : alt ≠ .none) {depth : Nat}
    {rest rest' : List Char} : '\n' :: rest ≠ (alt.text depth).toList ++ rest' := by
  intro h
  cases alt with
  | none => exact hAlt rfl
  | block body =>
    rw [toList_else] at h
    cases h
  | chain next =>
    rw [toList_elseIf] at h
    cases h

theorem else_ne_elseIf {body : List Stmt} {s : Stmt} (hs : s.isBranch) {depth : Nat}
    {rest rest' : List Char} :
    ((Else.block body).text depth).toList ++ rest ≠
      ((Else.chain s).text depth).toList ++ rest' := by
  cases s with
  | branch c body' alt =>
    rw [toList_else, toList_elseIf, toList_branch]
    simp
  | _ => cases hs

theorem assignOp_inj {op op' : AssignOp} {rest rest' : List Char}
    (h : op.text.toList ++ ' ' :: rest = op'.text.toList ++ ' ' :: rest') :
    op = op' ∧ rest = rest' := by
  cases op <;> cases op' <;> simp_all [AssignOp.text]

theorem unaryOp_inj {op op' : UnaryOp} (hop : op ≠ .negate) (hop' : op' ≠ .negate)
    {rest rest' : List Char} (h : op.text.toList ++ rest = op'.text.toList ++ rest') :
    op = op' ∧ rest = rest' := by
  cases op <;> cases op' <;> simp_all [UnaryOp.text]

theorem apart_unaryOp (op : UnaryOp) (rest : List Char) : Apart (op.text.toList ++ rest) := by
  cases op <;> exact apart_cons rfl (by decide) _

section

variable {x x' : String} {e e' : Expr} {depth : Nat} {rest rest' : List Char}

theorem define_inj (h : (Stmt.define x e).isPlain) (h' : (Stmt.define x' e').isPlain)
    (hText : ((Stmt.define x e).text depth).toList ++ '\n' :: rest =
      ((Stmt.define x' e').text depth).toList ++ '\n' :: rest') :
    Stmt.define x e = .define x' e' ∧ rest = rest' := by
  rw [Stmt.isPlain, Bool.and_eq_true] at h h'
  rw [toList_define, toList_define] at hText
  obtain ⟨rfl, hValue⟩ := isName_inj h.1 h'.1 (apart_cons rfl (by decide) _)
    (apart_cons rfl (by decide) _) hText
  simp only [List.cons.injEq, true_and] at hValue
  obtain ⟨rfl, rfl⟩ := Expr.endOfLine_inj h.2 h'.2 hValue
  exact ⟨rfl, rfl⟩

theorem declare_inj {ty ty' : Ty} (h : (Stmt.declare x ty).isPlain)
    (h' : (Stmt.declare x' ty').isPlain)
    (hText : ((Stmt.declare x ty).text depth).toList ++ rest =
      ((Stmt.declare x' ty').text depth).toList ++ rest') :
    Stmt.declare x ty = .declare x' ty' ∧ rest = rest' := by
  rw [toList_declare, toList_declare] at hText
  simp only [List.cons.injEq, true_and] at hText
  obtain ⟨rfl, hRest⟩ := isName_inj h h' (apart_cons rfl (by decide) _)
    (apart_cons rfl (by decide) _) hText
  simp only [List.cons.injEq, true_and] at hRest
  exact ⟨rfl, hRest⟩

theorem assign_inj {op op' : AssignOp} (h : (Stmt.assign x op e).isPlain)
    (h' : (Stmt.assign x' op' e').isPlain)
    (hText : ((Stmt.assign x op e).text depth).toList ++ '\n' :: rest =
      ((Stmt.assign x' op' e').text depth).toList ++ '\n' :: rest') :
    Stmt.assign x op e = .assign x' op' e' ∧ rest = rest' := by
  rw [Stmt.isPlain, Bool.and_eq_true] at h h'
  rw [toList_assign, toList_assign] at hText
  obtain ⟨rfl, hOp⟩ := isName_inj h.1 h'.1 (apart_cons rfl (by decide) _)
    (apart_cons rfl (by decide) _) hText
  obtain ⟨rfl, hValue⟩ := assignOp_inj (List.cons.inj hOp).2
  obtain ⟨rfl, rfl⟩ := Expr.endOfLine_inj h.2 h'.2 hValue
  exact ⟨rfl, rfl⟩

theorem step_inj {op op' : UnaryOp} (h : (Stmt.step x op).isPlain)
    (h' : (Stmt.step x' op').isPlain)
    (hText : ((Stmt.step x op).text depth).toList ++ rest =
      ((Stmt.step x' op').text depth).toList ++ rest') :
    Stmt.step x op = .step x' op' ∧ rest = rest' := by
  rw [Stmt.isPlain, Bool.and_eq_true, bne_iff_ne] at h h'
  rw [toList_step, toList_step] at hText
  obtain ⟨rfl, hOp⟩ := isName_inj h.1 h'.1 (apart_unaryOp op _) (apart_unaryOp op' _) hText
  obtain ⟨rfl, rfl⟩ := unaryOp_inj h.2 h'.2 hOp
  exact ⟨rfl, rfl⟩

theorem eval_inj (h : (Stmt.eval e).isPlain) (h' : (Stmt.eval e').isPlain)
    (hText : ((Stmt.eval e).text depth).toList ++ '\n' :: rest =
      ((Stmt.eval e').text depth).toList ++ '\n' :: rest') :
    Stmt.eval e = .eval e' ∧ rest = rest' := by
  rw [Stmt.isPlain, Bool.and_eq_true] at h h'
  obtain ⟨rfl, rfl⟩ := Expr.endOfLine_inj h.2 h'.2 hText
  exact ⟨rfl, rfl⟩

theorem leave_inj {value value' : Option Expr} (h : (Stmt.leave value).isPlain)
    (h' : (Stmt.leave value').isPlain)
    (hText : ((Stmt.leave value).text depth).toList ++ '\n' :: rest =
      ((Stmt.leave value').text depth).toList ++ '\n' :: rest') :
    Stmt.leave value = .leave value' ∧ rest = rest' := by
  cases value with
  | none =>
    cases value' with
    | none => simpa [toList_leave] using hText
    | some e' => simp [toList_leave, toList_leaveWith] at hText
  | some e =>
    cases value' with
    | none => simp [toList_leave, toList_leaveWith] at hText
    | some e' =>
      rw [toList_leaveWith, toList_leaveWith] at hText
      simp only [List.cons.injEq, true_and] at hText
      obtain ⟨rfl, rfl⟩ := Expr.endOfLine_inj h h' hText
      exact ⟨rfl, rfl⟩

end

mutual

/-- **Statements.** The text of a plain statement and the line feed behind it tell the statement,
and where it ends. -/
theorem Stmt.text_inj : (s : Stmt) → s.isPlain → ∀ {s' : Stmt}, s'.isPlain →
    ∀ {depth : Nat} {rest rest' : List Char},
      (s.text depth).toList ++ '\n' :: rest = (s'.text depth).toList ++ '\n' :: rest' →
      s = s' ∧ rest = rest'
  | s, hs, s', hs', depth, rest, rest', h => by
    have hForm : s.form = s'.form := by
      rw [← formOf_text hs depth rest, h, formOf_text hs']
    cases s with
    | define x e =>
      cases s' with
      | define x' e' => exact define_inj hs hs' h
      | _ => cases hForm
    | declare x ty =>
      cases s' with
      | declare x' ty' =>
        obtain ⟨hEq, hRest⟩ := declare_inj hs hs' h
        exact ⟨hEq, (List.cons.inj hRest).2⟩
      | _ => cases hForm
    | assign x op e =>
      cases s' with
      | assign x' op' e' => exact assign_inj hs hs' h
      | _ => cases hForm
    | step x op =>
      cases s' with
      | step x' op' =>
        obtain ⟨hEq, hRest⟩ := step_inj hs hs' h
        exact ⟨hEq, (List.cons.inj hRest).2⟩
      | _ => cases hForm
    | eval e =>
      cases s' with
      | eval e' => exact eval_inj hs hs' h
      | _ => cases hForm
    | branch c body alt =>
      cases s' with
      | branch c' body' alt' =>
        rw [Stmt.isPlain, Bool.and_eq_true, Bool.and_eq_true] at hs hs'
        rw [toList_branch, toList_branch] at h
        simp only [List.cons.injEq, true_and] at h
        obtain ⟨rfl, hBody⟩ := Expr.line_inj hs.1.1 hs'.1.1 (by decide) h
        obtain ⟨rfl, hElse⟩ := linesOf_inj body hs.1.2 hs'.1.2 hBody
        obtain ⟨rfl, hRest⟩ := Else.text_inj alt hs.2 hs'.2 hElse
        exact ⟨rfl, hRest⟩
      | _ => cases hForm
    | loop c body =>
      cases s' with
      | loop c' body' =>
        rw [Stmt.isPlain, Bool.and_eq_true] at hs hs'
        rw [toList_loop, toList_loop] at h
        simp only [List.cons.injEq, true_and] at h
        obtain ⟨rfl, hBody⟩ := Expr.line_inj hs.1 hs'.1 (by decide) h
        obtain ⟨rfl, hRest⟩ := linesOf_inj body hs.2 hs'.2 hBody
        exact ⟨rfl, (List.cons.inj hRest).2⟩
      | _ => cases hForm
    | leave value =>
      cases s' with
      | leave value' => exact leave_inj hs hs' h
      | _ => cases hForm
    | block body =>
      cases s' with
      | block body' =>
        rw [Stmt.isPlain] at hs hs'
        rw [toList_block, toList_block] at h
        simp only [List.cons.injEq, true_and] at h
        obtain ⟨rfl, hRest⟩ := linesOf_inj body hs hs' h
        exact ⟨rfl, (List.cons.inj hRest).2⟩
      | _ => cases hForm

theorem Else.text_inj : (alt : Else) → alt.isPlain → ∀ {alt' : Else}, alt'.isPlain →
    ∀ {depth : Nat} {rest rest' : List Char},
      (alt.text depth).toList ++ '\n' :: rest = (alt'.text depth).toList ++ '\n' :: rest' →
      alt = alt' ∧ rest = rest'
  | .none, _, alt', _, depth, rest, rest', h => by
    cases alt' with
    | none => exact ⟨rfl, (List.cons.inj h).2⟩
    | block body' => exact absurd h (newline_ne_else (by simp))
    | chain next' => exact absurd h (newline_ne_else (by simp))
  | .block body, hs, alt', hs', depth, rest, rest', h => by
    cases alt' with
    | none => exact absurd h.symm (newline_ne_else (by simp))
    | block body' =>
      rw [toList_else, toList_else] at h
      simp only [List.cons.injEq, true_and] at h
      obtain ⟨rfl, hRest⟩ := linesOf_inj body hs hs' h
      exact ⟨rfl, (List.cons.inj hRest).2⟩
    | chain next' =>
      rw [Else.isPlain, Bool.and_eq_true] at hs'
      exact absurd h (else_ne_elseIf hs'.1)
  | .chain next, hs, alt', hs', depth, rest, rest', h => by
    rw [Else.isPlain, Bool.and_eq_true] at hs
    cases alt' with
    | none => exact absurd h.symm (newline_ne_else (by simp))
    | block body' => exact absurd h.symm (else_ne_elseIf hs.1)
    | chain next' =>
      rw [Else.isPlain, Bool.and_eq_true] at hs'
      rw [toList_elseIf, toList_elseIf] at h
      simp only [List.cons.injEq, true_and] at h
      obtain ⟨rfl, hRest⟩ := Stmt.text_inj next hs.2 hs'.2 h
      exact ⟨rfl, hRest⟩

theorem linesOf_inj : (ss : List Stmt) → plainAll ss → ∀ {ss' : List Stmt}, plainAll ss' →
    ∀ {depth : Nat} {rest rest' : List Char},
      (linesOf (depth + 1) ss).toList ++ ((tabs depth).toList ++ '\x7d' :: rest) =
        (linesOf (depth + 1) ss').toList ++ ((tabs depth).toList ++ '\x7d' :: rest') →
      ss = ss' ∧ rest = rest'
  | [], _, ss', _, depth, rest, rest', h => by
    cases ss' with
    | nil =>
      have hClose := List.append_cancel_left (List.append_cancel_left h)
      exact ⟨rfl, (List.cons.inj hClose).2⟩
    | cons s' ss' =>
      rw [toList_linesOf_cons] at h
      exact absurd h (close_ne_line depth rest _)
  | s :: ss, hs, ss', hs', depth, rest, rest', h => by
    rw [toList_linesOf_cons] at h
    cases ss' with
    | nil => exact absurd h.symm (close_ne_line depth rest' _)
    | cons s' ss' =>
      rw [plainAll, Bool.and_eq_true] at hs hs'
      rw [toList_linesOf_cons] at h
      obtain ⟨rfl, hLines⟩ := Stmt.text_inj s hs.1 hs'.1 (List.append_cancel_left h)
      obtain ⟨rfl, hRest⟩ := linesOf_inj ss hs.2 hs'.2 hLines
      exact ⟨rfl, hRest⟩

end

end CToGo.Target
