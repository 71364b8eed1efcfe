import CToGo.Proofs.Reading.Groupings
import Mathlib.Data.List.Induction

/-!
# No pair of parentheses can be spared

The text of an expression has exactly the groupings that the expression needs, all of them
parentheses. Without one of its pairs the text has too few to be read as the expression.

* `balanced`, `endsOperand`: what stands in a pair of parentheses, and where a parenthesis opens a
  list of arguments.
* `Expr.leads_text`: the text of an expression has no more groupings than it needs.
* `Place.groupings_without_pair`: without a pair of parentheses a text has one less.
* `parentheses_needed`: **without a pair of parentheses the text is not read as the expression.**
-/

namespace CToGo.Target

open Source (isWordRest)

/-! ## Pairs of parentheses -/

/-- Whether the parentheses of the text come in pairs, apart from the `depth` ones that have been
opened in front of it and are closed in it. -/
def balanced (depth : Nat) : List Char → Bool
  | [] => depth == 0
  | c :: cs =>
    if c = '(' then balanced (depth + 1) cs
    else if c = ')' then depth != 0 && balanced (depth - 1) cs
    else balanced depth cs

theorem getLast?_ne_of_balanced {depth : Nat} {cs : List Char} (h : balanced depth cs) :
    cs.getLast? ≠ some '(' := by
  induction cs generalizing depth with
  | nil => simp
  | cons c cs ih =>
    rw [balanced] at h
    cases cs with
    | nil =>
      intro hLast
      obtain rfl : c = '(' := by simpa using hLast
      cases h
    | cons d ds =>
      rw [List.getLast?_cons_cons]
      split at h
      · exact ih h
      · split at h
        · exact ih (Bool.and_eq_true_iff.mp h).2
        · exact ih h

/-- Whether an operand ends where the text does. A parenthesis behind an operand opens the
arguments of a call, and all other ones group. -/
def endsOperand (text : List Char) : Bool :=
  (text.reverse.dropWhile isSpace).head?.any fun c => isWordRest c || c == ')'

namespace Place

theorem after_eq_operand_iff (text : List Char) :
    operator.after text = operand ↔ endsOperand text := by
  induction text using List.reverseRecOn with
  | nil => decide
  | append_singleton text c ih =>
    have hStep : operator.after (text ++ [c]) = (operator.after text).next c := after_append ..
    rw [hStep, endsOperand, List.reverse_append, List.reverse_singleton, List.singleton_append,
      List.dropWhile_cons]
    generalize operator.after text = p at ih
    by_cases hSpace : isSpace c
    · rw [if_pos hSpace, ← endsOperand, ← ih, next, if_pos hSpace]
      cases p <;> decide
    · rw [if_neg hSpace, next, if_neg hSpace, List.head?_cons, Option.any_some]
      by_cases hOpen : c = '('
      · subst hOpen
        cases p <;> decide
      · by_cases hMinus : c = '-'
        · subst hMinus
          cases p <;> decide
        · rw [if_neg hOpen, if_neg hMinus]
          split <;> simp_all

end Place

/-! ## Tidy texts -/

namespace Place

/-- Whether the character is one that texts of expressions have at the place. No space follows a
sign or a parenthesis that groups, and the parenthesis of a call may be closed at once. -/
def allows (p : Place) (c : Char) : Bool :=
  (!isSpace c || p != sign && p != group) && (c != ')' || p == operand || p == list)

/-- Whether each character is one that texts of expressions have at its place. -/
def tidy : Place → List Char → Bool
  | _, [] => true
  | p, c :: cs => p.allows c && (p.next c).tidy cs

/-- Whether an expression may begin at the place. -/
def begins (p : Place) : Bool := p != operand && p != spacedSign

theorem tidy_append (p : Place) (xs ys : List Char) :
    p.tidy (xs ++ ys) = (p.tidy xs && (p.after xs).tidy ys) := by
  induction xs generalizing p with
  | nil => exact (Bool.true_and _).symm
  | cons x xs ih =>
    rw [List.cons_append, tidy, ih, tidy, Bool.and_assoc]
    rfl

theorem tidy_run (p : Place) {run : List Char} (hRun : ∀ c ∈ run, isWordRest c) : p.tidy run := by
  induction run generalizing p with
  | nil => rfl
  | cons c run ih =>
    obtain ⟨hc, hRest⟩ := List.forall_mem_cons.mp hRun
    have hSpace : ¬ isSpace c := not_isSpace_of_isWordRest hc
    have hClose : c ≠ ')' := by
      rintro rfl
      cases hc
    rw [tidy, ih _ hRest, allows]
    simp [hSpace, hClose]

end Place

/-- A tidy text that leads from one place to another and has `n` groupings. -/
structure Leads (p : Place) (text : List Char) (q : Place) (n : Nat) : Prop where
  tidy : p.tidy text
  after : p.after text = q
  groupings : p.groupings text = n

namespace Leads

variable {p q r : Place} {xs ys : List Char} {m n : Nat}

theorem append (h : Leads p xs q m) (h' : Leads q ys r n) : Leads p (xs ++ ys) r (m + n) where
  tidy := by rw [Place.tidy_append, h.tidy, h.after, h'.tidy, Bool.and_self]
  after := by rw [Place.after_append, h.after, h'.after]
  groupings := by rw [Place.groupings_append, h.groupings, h.after, h'.groupings]

theorem run (p : Place) {run : List Char} (hne : run ≠ []) (hRun : ∀ c ∈ run, isWordRest c) :
    Leads p run .operand 0 where
  tidy := p.tidy_run hRun
  after := (p.after_run hne hRun).1
  groupings := (p.after_run hne hRun).2

theorem name (p : Place) {x : String} (hx : isName x) : Leads p x.toList .operand 0 :=
  run p (toList_ne_nil_of_isName hx) fun _ => isWordRest_of_isName hx

theorem number (p : Place) (n : Nat) : Leads p (toString n).toList .operand 0 :=
  run p (toList_toString_ne_nil n) fun _ => isWordRest_of_mem_toString

theorem selector (p : Place) {package x : String} (hPackage : isName package) (hx : isName x) :
    Leads p (package ++ "." ++ x).toList .operand 0 := by
  have hPoint : Leads .operand ".".toList .operator 0 := ⟨rfl, rfl, rfl⟩
  rw [String.toList_append, String.toList_append]
  exact ((name p hPackage).append hPoint).append (name .operator hx)

theorem parenthesized {condition : Bool} {text : String}
    (h : ∀ p : Place, p.begins → Leads p text.toList .operand n) (hp : p.begins) :
    Leads p (parenthesized condition text).toList .operand (n + condition.toNat) := by
  cases condition with
  | false => exact h p hp
  | true =>
    have hOpen : Leads p "(".toList .group 1 := by
      cases p with
      | operand => cases hp
      | spacedSign => cases hp
      | _ => exact ⟨rfl, rfl, rfl⟩
    have hClose : Leads .operand ")".toList .operand 0 := ⟨rfl, rfl, rfl⟩
    have hText := (hOpen.append (h .group rfl)).append hClose
    rw [Nat.add_comm 1 n] at hText
    rw [Target.parenthesized, if_pos rfl, String.toList_append, String.toList_append]
    exact hText

theorem operator (op : BinaryOp) : Leads .operand (" " ++ op.text ++ " ").toList .operator 0 := by
  cases op <;> exact ⟨rfl, rfl, rfl⟩

theorem sign (hp : p.begins) : Leads p "-".toList .sign 0 := by
  cases p with
  | operand => cases hp
  | spacedSign => cases hp
  | _ => exact ⟨rfl, rfl, rfl⟩

end Leads

/-! ## The text of an expression has no more -/

mutual

/-- The text of an expression has the groupings that the expression needs. -/
theorem Expr.leads_text : (e : Expr) → e.isPlain → ∀ p : Place, p.begins →
    Leads p e.text.toList .operand e.groupings
  | .literal value, h, p, _ => by
    obtain ⟨n, rfl⟩ := Int.eq_ofNat_of_zero_le (of_decide_eq_true h)
    exact .number p n
  | .ident x, h, p, _ => .name p h
  | .selector package x, h, p, _ => by
    rw [Expr.isPlain, Bool.and_eq_true] at h
    exact .selector p h.1 h.2
  | .binary op a b, h, p, hp => by
    rw [Expr.isPlain, Bool.and_eq_true] at h
    have hLeft : Leads p (parenthesized (a.precedence < op.precedence) a.text).toList .operand _ :=
      .parenthesized (a.leads_text h.1) hp
    have hRight : Leads .operator (parenthesized (b.precedence ≤ op.precedence) b.text).toList
        .operand _ :=
      .parenthesized (b.leads_text h.2) rfl
    have hText := (hLeft.append (.operator op)).append hRight
    rw [Expr.text, Expr.groupings]
    simpa [String.append_assoc] using hText
  | .unary op e, h, p, hp => by
    rw [Expr.isPlain, Bool.and_eq_true, beq_iff_eq] at h
    obtain ⟨rfl, he⟩ := h
    have hOperand : Leads .sign (parenthesized (e.precedence < 4 || e.isNegative) e.text).toList
        .operand _ :=
      .parenthesized (e.leads_text he) rfl
    have hText := (Leads.sign hp).append hOperand
    rw [Nat.zero_add] at hText
    rw [Expr.text, Expr.groupings, String.toList_append]
    exact hText
  | .call f args, h, p, hp => by
    rw [Expr.isPlain, Bool.and_eq_true, Bool.and_eq_true] at h
    obtain ⟨⟨-, hf⟩, hArgs⟩ := h
    have hOpen : Leads .operand "(".toList .list 0 := ⟨rfl, rfl, rfl⟩
    have hClose : Leads (if args.isEmpty then .list else .operand) ")".toList .operand 0 := by
      cases args <;> exact ⟨rfl, rfl, rfl⟩
    have hText := (((f.leads_text hf p hp).append hOpen).append
      (leads_textOfEach args hArgs .list rfl)).append hClose
    rw [Expr.text, Expr.groupings, String.toList_append, String.toList_append,
      String.toList_append]
    exact hText

theorem leads_textOfEach : (es : List Expr) → plainEach es → ∀ p : Place, p.begins →
    Leads p (", ".intercalate (textOfEach es)).toList (if es.isEmpty then p else .operand)
      (groupingsOfEach es)
  | [], _, p, _ => ⟨rfl, rfl, rfl⟩
  | [e], h, p, hp => by
    rw [plainEach, Bool.and_eq_true] at h
    rw [textOfEach, textOfEach, String.intercalate_singleton, groupingsOfEach, groupingsOfEach]
    exact e.leads_text h.1 p hp
  | e :: e' :: es, h, p, hp => by
    rw [plainEach, Bool.and_eq_true] at h
    have hComma : Leads .operand ", ".toList .operator 0 := ⟨rfl, rfl, rfl⟩
    have hText := ((e.leads_text h.1 p hp).append hComma).append
      (leads_textOfEach (e' :: es) h.2 .operator rfl)
    rw [textOfEach, textOfEach, String.intercalate_cons_cons, groupingsOfEach,
      String.toList_append, String.toList_append]
    exact hText

end

/-! ## Without a pair of parentheses -/

namespace Place

theorem after_ne_spacedSign {p : Place} (hp : p ≠ spacedSign) {text : List Char}
    (h : p.tidy text) : p.after text ≠ spacedSign := by
  induction text generalizing p with
  | nil => exact hp
  | cons c text ih =>
    rw [tidy, Bool.and_eq_true] at h
    refine ih (fun hNext => ?_) h.2
    obtain ⟨hSpace, hSpaced⟩ := of_next_eq_spacedSign hNext
    have hSign : p ≠ sign := by
      rintro rfl
      simp [allows, hSpace] at h
    exact hp ((spaced_eq_spacedSign_iff hSign).mp hSpaced)

theorem getLast?_of_after_eq_list {p : Place} (hp : p ≠ list) {text : List Char}
    (h : p.after text = list) : text.getLast? = some '(' := by
  cases text using List.reverseRecOn with
  | nil => exact absurd h hp
  | append_singleton text c =>
    have hNext : (p.after text).next c = list := by
      rw [← h, after_append]
      rfl
    rw [List.getLast?_concat, of_next_eq_list hNext]

/-- Without one of its pairs a text has one grouping less: what stood in the pair is counted as
before, and ends with an operand. -/
theorem groupings_without_pair {before inside behind : List Char}
    (h : operator.tidy (before ++ '(' :: (inside ++ ')' :: behind))) (hPair : balanced 0 inside)
    (hGroups : operator.after before ≠ operand) :
    operator.groupings (before ++ '(' :: (inside ++ ')' :: behind)) =
      operator.groupings (before ++ inside ++ behind) + 1 := by
  rw [tidy_append, Bool.and_eq_true] at h
  obtain ⟨hBefore, hBehind⟩ := h
  have hSpaced : operator.after before ≠ spacedSign := after_ne_spacedSign (by decide) hBefore
  rw [groupings_append, List.append_assoc, groupings_append, Nat.add_assoc]
  congr 1
  generalize operator.after before = p at hGroups hSpaced hBehind
  have hNext : p.next '(' = group := if_neg hGroups
  have hOne : p.groups '(' = 1 := if_pos (.inl ⟨rfl, hGroups⟩)
  rw [tidy, hNext, tidy_append, tidy, Bool.and_eq_true, Bool.and_eq_true, Bool.and_eq_true]
    at hBehind
  obtain ⟨-, hInside, hClose, -⟩ := hBehind
  cases inside with
  | nil => cases hClose
  | cons c cs =>
    have hc : ¬ isSpace c := by
      intro hSpace
      rw [tidy, Bool.and_eq_true] at hInside
      simp [allows, hSpace] at hInside
    have hOperand : group.after (c :: cs) = operand := by
      have hNotList : group.after (c :: cs) ≠ list := fun hList =>
        getLast?_ne_of_balanced hPair (getLast?_of_after_eq_list (by decide) hList)
      rw [allows, Bool.and_eq_true] at hClose
      simpa [hNotList] using hClose.2
    have hSame : p = operand ↔ group = operand := iff_of_false hGroups (by decide)
    have hSign : c = '-' → (p = spacedSign ↔ group = spacedSign) :=
      fun _ => iff_of_false hSpaced (by decide)
    have hSkip : operand.groupings (')' :: behind) = operand.groupings behind := Nat.zero_add _
    rw [groupings, hOne, hNext, groupings_append, groupings_append,
      groupings_cons_congr hSame hc hSign, after_cons_congr hSame hc, hOperand, hSkip]
    omega

end Place

/-- **No pair of parentheses can be spared.** The text of a plain expression is read as the
expression, and without a pair of parentheses that groups it is not. -/
theorem parentheses_needed {e : Expr} (he : e.isPlain) {before inside behind : String}
    (hText : e.text = before ++ "(" ++ inside ++ ")" ++ behind) (hPair : balanced 0 inside.toList)
    (hGroups : ¬ endsOperand before.toList) :
    Reads (before ++ "(" ++ inside ++ ")" ++ behind) e ∧
      ¬ Reads (before ++ inside ++ behind) e := by
  refine ⟨hText ▸ reads_text he, fun hReads => ?_⟩
  have hLeads := e.leads_text he .operator rfl
  have hChars : e.text.toList =
      before.toList ++ '(' :: (inside.toList ++ ')' :: behind.toList) := by
    simp [hText]
  rw [hChars] at hLeads
  have hPlace : Place.operator.after before.toList ≠ .operand :=
    fun hOperand => hGroups ((Place.after_eq_operand_iff _).mp hOperand)
  have hOneLess := Place.groupings_without_pair hLeads.tidy hPair hPlace
  have hBound := hReads.groupings_le
  rw [String.toList_append, String.toList_append] at hBound
  rw [hLeads.groupings] at hOneLess
  omega

/-- Two negations, the inner one of a difference whose right operand is another one. -/
def nested : Expr :=
  .unary .negate (.unary .negate (.binary .sub (.ident "a")
    (.binary .sub (.literal 1) (.call (.ident "f") [.ident "b"]))))

theorem parentheses_needed_nested :
    (nested.isPlain ∧ nested.text = "-" ++ "(" ++ "-(a - (1 - f(b)))" ++ ")" ++ "" ∧
      balanced 0 "-(a - (1 - f(b)))".toList ∧ ¬ endsOperand "-".toList) ∧
    Reads ("-" ++ "(" ++ "-(a - (1 - f(b)))" ++ ")" ++ "") nested ∧
    ¬ Reads ("-" ++ "-(a - (1 - f(b)))" ++ "") nested := by
  have hPlain : nested.isPlain := by decide
  have hText : nested.text = "-" ++ "(" ++ "-(a - (1 - f(b)))" ++ ")" ++ "" := by decide +kernel
  have hPair : balanced 0 "-(a - (1 - f(b)))".toList := by decide +kernel
  have hGroups : ¬ endsOperand "-".toList := by decide +kernel
  exact ⟨⟨hPlain, hText, hPair, hGroups⟩, parentheses_needed hPlain hText hPair hGroups⟩

end CToGo.Target
