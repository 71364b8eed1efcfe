import CToGo.Proofs.Reading.RoundTrip
import Mathlib.Data.Bool.Basic

/-!
# The groupings that an expression needs

An expression is kept together by parentheses, and two signs in a row are kept apart by a
parenthesis or by a space. How many of these groupings an expression needs is told by its tree,
and every text that is read as the expression has at least so many.

* `Place`: what has just been read of an expression; `Place.groupings`: the groupings of a text.
* `Expr.groupings`: the groupings that an expression needs.
* `Expr.Read.groupings_le`, `Place.groupingsOf_of_lexed`: the lexemes that are read as an
  expression have them, and a text has those of its lexemes.
* `Reads.groupings_le`: **what is read as an expression has the groupings that it needs.**
-/

namespace CToGo.Target

open Source (isWordRest)

/-! ## Places -/

/-- What has just been read of an expression. -/
inductive Place where
  /-- An operator or a comma, or nothing yet. -/
  | operator
  /-- A sign. -/
  | sign
  /-- A sign and a space. -/
  | spacedSign
  /-- A parenthesis that groups. -/
  | group
  /-- The parenthesis of a call. -/
  | list
  /-- An operand. -/
  | operand
deriving DecidableEq, Inhabited, Repr

namespace Place

/-- The place behind a space. -/
def spaced : Place → Place
  | sign | spacedSign => spacedSign
  | operand => operand
  | operator | group | list => operator

/-- The place behind a character. -/
def next (p : Place) (c : Char) : Place :=
  if isSpace c then p.spaced
  else if c = '(' then if p = operand then list else group
  else if c = '-' then if p = operand then operator else sign
  else if isWordRest c || c == ')' then operand
  else operator

/-- Whether the character groups: a parenthesis that opens no list of arguments, or a sign that a
space keeps apart from another one. -/
def groups (p : Place) (c : Char) : Nat :=
  if c = '(' ∧ p ≠ operand ∨ c = '-' ∧ p = spacedSign then 1 else 0

/-- The place behind a text. -/
def after (p : Place) (text : List Char) : Place := text.foldl next p

/-- The number of groupings in a text. -/
def groupings : Place → List Char → Nat
  | _, [] => 0
  | p, c :: cs => p.groups c + (p.next c).groupings cs

theorem after_append (p : Place) (xs ys : List Char) :
    p.after (xs ++ ys) = (p.after xs).after ys :=
  List.foldl_append

theorem groupings_append (p : Place) (xs ys : List Char) :
    p.groupings (xs ++ ys) = p.groupings xs + (p.after xs).groupings ys := by
  induction xs generalizing p with
  | nil => exact (Nat.zero_add _).symm
  | cons x xs ih =>
    rw [List.cons_append, groupings, ih, groupings, Nat.add_assoc]
    rfl

@[simp] theorem spaced_spaced (p : Place) : p.spaced.spaced = p.spaced := by
  cases p <;> rfl

@[simp] theorem spaced_eq_operand_iff (p : Place) : p.spaced = operand ↔ p = operand := by
  cases p <;> decide

theorem spaced_eq_spacedSign_iff {p : Place} (hp : p ≠ sign) :
    p.spaced = spacedSign ↔ p = spacedSign := by
  cases p with
  | sign => exact absurd rfl hp
  | _ => decide

theorem spaced_ne_sign (p : Place) : p.spaced ≠ sign := by
  cases p <;> decide

theorem spaced_ne_list (p : Place) : p.spaced ≠ list := by
  cases p <;> decide

theorem next_of_isSpace (p : Place) {c : Char} (hc : isSpace c) : p.next c = p.spaced :=
  if_pos hc

theorem groups_eq_zero (p : Place) {c : Char} (hOpen : c ≠ '(') (hMinus : c ≠ '-') :
    p.groups c = 0 := by
  simp [groups, hOpen, hMinus]

theorem groups_of_isSpace (p : Place) {c : Char} (hc : isSpace c) : p.groups c = 0 := by
  refine p.groups_eq_zero ?_ ?_
  · rintro rfl
    cases hc
  · rintro rfl
    cases hc

/-- Only a space leads to a spaced sign. -/
theorem of_next_eq_spacedSign {p : Place} {c : Char} (h : p.next c = spacedSign) :
    isSpace c ∧ p.spaced = spacedSign := by
  grind [next]

/-- Only a parenthesis leads to a list. -/
theorem of_next_eq_list {p : Place} {c : Char} (h : p.next c = list) : c = '(' := by
  grind [next, spaced_ne_list]

/-- Behind a character that is no space, all places are the same but an operand. -/
theorem next_congr {p q : Place} (h : p = operand ↔ q = operand) {c : Char} (hc : ¬ isSpace c) :
    p.next c = q.next c := by
  simp [next, hc, h]

theorem groups_congr {p q : Place} (h : p = operand ↔ q = operand) {c : Char}
    (hSign : c = '-' → (p = spacedSign ↔ q = spacedSign)) : p.groups c = q.groups c := by
  unfold groups
  refine if_congr ?_ rfl rfl
  exact or_congr (and_congr_right' (not_congr h)) (and_congr_right hSign)

theorem after_cons_congr {p q : Place} (h : p = operand ↔ q = operand) {c : Char}
    (hc : ¬ isSpace c) (cs : List Char) : p.after (c :: cs) = q.after (c :: cs) := by
  rw [after, List.foldl_cons, next_congr h hc]
  rfl

theorem groupings_cons_congr {p q : Place} (h : p = operand ↔ q = operand) {c : Char}
    (hc : ¬ isSpace c) (hSign : c = '-' → (p = spacedSign ↔ q = spacedSign)) (cs : List Char) :
    p.groupings (c :: cs) = q.groupings (c :: cs) := by
  rw [groupings, groupings, next_congr h hc, groups_congr h hSign]

theorem not_isSpace_of_isWordRest {c : Char} (hc : isWordRest c) : ¬ isSpace c := by
  intro hSpace
  have hCases : c = ' ' ∨ c = '\t' ∨ c = '\r' := by simpa [isSpace, or_assoc] using hSpace
  rcases hCases with rfl | rfl | rfl <;> cases hc

theorem next_of_isWordRest (p : Place) {c : Char} (hc : isWordRest c) : p.next c = operand := by
  have hSpace := not_isSpace_of_isWordRest hc
  have hOpen : c ≠ '(' := by
    rintro rfl
    cases hc
  have hMinus : c ≠ '-' := by
    rintro rfl
    cases hc
  simp [next, hSpace, hOpen, hMinus, hc]

theorem groups_of_isWordRest (p : Place) {c : Char} (hc : isWordRest c) : p.groups c = 0 := by
  refine p.groups_eq_zero ?_ ?_
  · rintro rfl
    cases hc
  · rintro rfl
    cases hc

/-- A word or a number is an operand without groupings. -/
theorem after_run (p : Place) {run : List Char} (hne : run ≠ []) (hRun : ∀ c ∈ run, isWordRest c) :
    p.after run = operand ∧ p.groupings run = 0 := by
  induction run generalizing p with
  | nil => exact absurd rfl hne
  | cons c run ih =>
    obtain ⟨hc, hRest⟩ := List.forall_mem_cons.mp hRun
    have hStep : p.after (c :: run) = operand.after run := by
      rw [after, List.foldl_cons, p.next_of_isWordRest hc]
      rfl
    rw [hStep, groupings, p.next_of_isWordRest hc, p.groups_of_isWordRest hc, Nat.zero_add]
    cases run with
    | nil => exact ⟨rfl, rfl⟩
    | cons d run => exact ih operand (List.cons_ne_nil _ _) hRest

end Place

/-! ## What is read has its groupings -/

mutual

/-- The groupings that an expression needs: where it stands in another one that binds too
tightly, and where a sign follows another one. -/
def Expr.groupings : Expr → Nat
  | .literal _ | .ident _ | .selector .. => 0
  | .binary op a b =>
    (a.groupings + (decide (a.precedence < op.precedence)).toNat)
      + (b.groupings + (decide (b.precedence ≤ op.precedence)).toNat)
  | .unary _ e => e.groupings + (decide (e.precedence < 4) || e.isNegative).toNat
  | .call f args => f.groupings + groupingsOfEach args

def groupingsOfEach : List Expr → Nat
  | [] => 0
  | e :: es => e.groupings + groupingsOfEach es

end

/-- The number of groupings in a list of lexemes, each of which a space may follow. -/
def Place.groupingsOf : Place → List Lexeme → Nat
  | _, [] => 0
  | _, .number _ :: ls | _, .word _ :: ls => operand.groupingsOf ls
  | p, .mark m :: ls => p.groupings m.toList + (p.after m.toList).spaced.groupingsOf ls

namespace Place

variable (ls : List Lexeme)

theorem groupingsOf_opening {p : Place} (hp : p ≠ operand) :
    p.groupingsOf (.mark "(" :: ls) = 1 + operator.groupingsOf ls := by
  cases p with
  | operand => exact absurd rfl hp
  | _ => rfl

theorem groupingsOf_call : operand.groupingsOf (.mark "(" :: ls) = operator.groupingsOf ls :=
  Nat.zero_add _

theorem groupingsOf_closing : operand.groupingsOf (.mark ")" :: ls) = operand.groupingsOf ls :=
  Nat.zero_add _

theorem groupingsOf_none : operator.groupingsOf (.mark ")" :: ls) = operand.groupingsOf ls :=
  Nat.zero_add _

theorem groupingsOf_point : operand.groupingsOf (.mark "." :: ls) = operator.groupingsOf ls :=
  Nat.zero_add _

theorem groupingsOf_comma : operand.groupingsOf (.mark "," :: ls) = operator.groupingsOf ls :=
  Nat.zero_add _

theorem groupingsOf_binaryMark (op : BinaryOp) :
    operand.groupingsOf (.mark (binaryMark op) :: ls) = operator.groupingsOf ls := by
  cases op <;> exact Nat.zero_add _

theorem groupingsOf_sign : operator.groupingsOf (.mark "-" :: ls) = spacedSign.groupingsOf ls :=
  Nat.zero_add _

theorem groupingsOf_sign_sign :
    spacedSign.groupingsOf (.mark "-" :: ls) = 1 + spacedSign.groupingsOf ls :=
  rfl

end Place

/-- Whether an expression needs a grouping behind the place `p`, where one of tier `l` is wanted. -/
def Expr.grouped (e : Expr) (p : Place) (l : Tier) : Nat :=
  (decide (e.tier.rank < l.rank) || p == .spacedSign && e.isNegative).toNat

namespace Expr

theorem precedence_lt_iff (e : Expr) {n : Nat} (hn : n ≤ 5) :
    e.precedence < n ↔ e.tier.rank < n := by
  cases e with
  | binary op a b => rw [precedence, tier, rank_binaryTier]
  | unary => exact Iff.rfl
  | call => exact Iff.rfl
  | _ => exact iff_of_false (Nat.not_lt.mpr hn) (Nat.not_lt.mpr (Nat.le_succ_of_le hn))

theorem grouped_tier {e : Expr} (hNegative : e.isNegative = false) (p : Place) :
    e.grouped p e.tier = 0 := by
  rw [grouped, hNegative, Bool.and_false, Bool.or_false, decide_eq_false (Nat.lt_irrefl _)]
  rfl

theorem grouped_mono (e : Expr) (p : Place) {l tight : Tier} (hRank : l.rank ≤ tight.rank) :
    e.grouped p l ≤ e.grouped p tight := by
  refine Bool.toNat_le_toNat ?_
  rw [Bool.le_iff_imp]
  simp only [Bool.or_eq_true, decide_eq_true_iff]
  exact Or.imp_left fun h => Nat.lt_of_lt_of_le h hRank

/-- What binds too loosely for a precedence does so for a tier of that rank. -/
theorem toNat_le_grouped (e : Expr) (p : Place) {l : Tier} {n : Nat} (hn : n ≤ 5)
    (hRank : n ≤ l.rank) : (decide (e.precedence < n)).toNat ≤ e.grouped p l := by
  refine Bool.toNat_le_toNat ?_
  rw [Bool.le_iff_imp, decide_eq_true_iff, e.precedence_lt_iff hn]
  exact fun h => by rw [decide_eq_true (Nat.lt_of_lt_of_le h hRank), Bool.true_or]

theorem grouped_negated (e : Expr) :
    e.grouped .spacedSign .unary = (decide (e.precedence < 4) || e.isNegative).toNat := by
  have hRank : (e.precedence < 4) = (e.tier.rank < Tier.unary.rank) :=
    propext (e.precedence_lt_iff (by decide))
  rw [grouped, beq_self_eq_true, Bool.true_and, decide_eq_decide.mpr (Iff.of_eq hRank)]

end Expr

mutual

/-- What is read as an expression has the groupings that the expression needs, and one more if
it needs one where it stands. The operand of a sign is counted from behind a spaced one, where
another sign is a grouping of its own. -/
theorem Expr.Read.groupings_le {l : Tier} {ts rest : List Lexeme} {e : Expr} :
    Expr.Read l ts e rest → ∀ p, p = .operator ∨ p = .spacedSign →
      e.groupings + e.grouped p l + Place.operand.groupingsOf rest ≤ p.groupingsOf ts
  | .number n rest, p, hp => by
    have hNegative : (Expr.literal n).isNegative = false :=
      decide_eq_false (Int.not_lt.mpr (Int.natCast_nonneg n))
    have hNone : (Expr.literal n).grouped p .operand = 0 := Expr.grouped_tier hNegative p
    rw [hNone, Expr.groupings, Place.groupingsOf, Nat.zero_add]
  | .word x rest, p, hp => by
    have hNone : (Expr.ident x).grouped p .operand = 0 := Expr.grouped_tier rfl p
    rw [hNone, Expr.groupings, Place.groupingsOf, Nat.zero_add]
  | .qualified q x rest, p, hp => by
    have hNone : (Expr.selector q x).grouped p .operand = 0 := Expr.grouped_tier rfl p
    rw [hNone, Expr.groupings, Place.groupingsOf, Place.groupingsOf_point, Place.groupingsOf,
      Nat.zero_add]
  | @Expr.Read.parenthesized ts _ e h, p, hp => by
    have hInner := h.groupings_le .operator (.inl rfl)
    have hOne : e.grouped p .operand ≤ 1 := Bool.toNat_le _
    have hPlace : p ≠ .operand := by
      rintro rfl
      simp at hp
    rw [Place.groupingsOf_closing] at hInner
    rw [Place.groupingsOf_opening ts hPlace]
    omega
  | @Expr.Read.call _ _ _ f args hf hargs, p, hp => by
    have hFunction := hf.groupings_le p hp
    have hArgs := hargs.groupings_le
    have hNone : (Expr.call f args).grouped p .primary = 0 := Expr.grouped_tier rfl p
    rw [Place.groupingsOf_call] at hFunction
    rw [hNone, Expr.groupings]
    omega
  | @Expr.Read.negate ts _ e h, p, hp => by
    have hOperand := h.groupings_le .spacedSign (.inr rfl)
    rw [e.grouped_negated] at hOperand
    rw [Expr.groupings]
    rcases hp with rfl | rfl
    · rw [Place.groupingsOf_sign]
      exact hOperand
    · rw [Place.groupingsOf_sign_sign]
      have hOne : (Expr.unary .negate e).grouped .spacedSign .unary = 1 := rfl
      omega
  | @Expr.Read.binary l tight _ _ _ op a b hop hl ha hb, p, hp => by
    have hLeft := ha.groupings_le p hp
    have hRight := hb.groupings_le .operator (.inl rfl)
    have hBound : op.precedence < 5 := by cases op <;> decide
    have hRank : l.rank = op.precedence := hop ▸ rank_binaryTier op
    have hTight := Tier.rank_of_tighter hl
    have hNeedsLeft := a.toNat_le_grouped p (l := l) (Nat.le_of_lt hBound) hRank.ge
    have hNeedsRight := b.toNat_le_grouped .operator (l := tight) hBound (by omega)
    rw [decide_eq_decide.mpr Nat.lt_succ_iff] at hNeedsRight
    have hNone : (Expr.binary op a b).grouped p l = 0 := hop ▸ Expr.grouped_tier rfl p
    rw [Place.groupingsOf_binaryMark] at hLeft
    rw [hNone, Expr.groupings]
    omega
  | @Expr.Read.tighter l _ _ _ e hl h, p, hp => by
    have hTight := h.groupings_le p hp
    have hMono := e.grouped_mono p (l := l) (Nat.le_of_lt (Tier.rank_of_tighter hl).ge)
    omega

theorem Arguments.groupings_le {ts rest : List Lexeme} {es : List Expr} :
    Arguments ts es rest →
      groupingsOfEach es + Place.operand.groupingsOf rest ≤ Place.operator.groupingsOf ts
  | .none rest => by
    rw [groupingsOfEach, Place.groupingsOf_none]
    omega
  | .last h => by
    have hLast := h.groupings_le .operator (.inl rfl)
    rw [Place.groupingsOf_closing] at hLast
    rw [groupingsOfEach, groupingsOfEach]
    omega
  | .more h hs => by
    have hFirst := h.groupings_le .operator (.inl rfl)
    have hMore := hs.groupings_le
    rw [Place.groupingsOf_comma] at hFirst
    rw [groupingsOfEach]
    omega

end

/-- Whether a lexeme may be part of an expression. -/
def Lexeme.ofExpression : Lexeme → Bool
  | number _ | word _ => true
  | mark m => m == ")" || m == "," || Tier.comparison.continuations.contains m

mutual

theorem Expr.Read.ofExpression {l : Tier} {ts rest : List Lexeme} {e : Expr} :
    Expr.Read l ts e rest → (∀ k ∈ rest, k.ofExpression) → ∀ k ∈ ts, k.ofExpression
  | .number _ _, h => List.forall_mem_cons.mpr ⟨rfl, h⟩
  | .word _ _, h => List.forall_mem_cons.mpr ⟨rfl, h⟩
  | .qualified _ _ _, h =>
    List.forall_mem_cons.mpr ⟨rfl, List.forall_mem_cons.mpr ⟨rfl,
      List.forall_mem_cons.mpr ⟨rfl, h⟩⟩⟩
  | .parenthesized he, h =>
    List.forall_mem_cons.mpr ⟨rfl, he.ofExpression (List.forall_mem_cons.mpr ⟨rfl, h⟩)⟩
  | .call hf hargs, h =>
    hf.ofExpression (List.forall_mem_cons.mpr ⟨rfl, hargs.ofExpression h⟩)
  | .negate he, h => List.forall_mem_cons.mpr ⟨rfl, he.ofExpression h⟩
  | @Expr.Read.binary _ _ _ _ _ op _ _ _ _ ha hb, h => by
    have hMark : (Lexeme.mark (binaryMark op)).ofExpression := by cases op <;> decide
    exact ha.ofExpression (List.forall_mem_cons.mpr ⟨hMark, hb.ofExpression h⟩)
  | .tighter _ he, h => he.ofExpression h

theorem Arguments.ofExpression {ts rest : List Lexeme} {es : List Expr} :
    Arguments ts es rest → (∀ k ∈ rest, k.ofExpression) → ∀ k ∈ ts, k.ofExpression
  | .none _, h => List.forall_mem_cons.mpr ⟨rfl, h⟩
  | .last he, h => he.ofExpression (List.forall_mem_cons.mpr ⟨rfl, h⟩)
  | .more he hes, h => he.ofExpression (List.forall_mem_cons.mpr ⟨rfl, hes.ofExpression h⟩)

end

namespace Place

theorem head?_of_mem_marks : ∀ m ∈ marks, m.toList.head?.any fun c => !isSpace c := by decide

/-- A mark of an expression that leaves a sign behind is a sign. -/
theorem eq_sign_of_after (p : Place) :
    ∀ m ∈ marks, (Lexeme.mark m).ofExpression → p.after m.toList = sign → m = "-" := by
  cases p <;> decide

/-- A text has the groupings of its lexemes: a sign that follows another one is kept apart from
it by a space. -/
theorem groupingsOf_of_lexed {text : List Char} {ls : List Lexeme} (h : Lexed text ls)
    (hls : ∀ k ∈ ls, k.ofExpression) {p : Place} (hp : p = sign → text.head? ≠ some '-') :
    p.spaced.groupingsOf ls = p.groupings text := by
  induction h generalizing p with
  | done => rfl
  | @space c text ls hc _ ih =>
    rw [groupings, p.groups_of_isSpace hc, p.next_of_isSpace hc, Nat.zero_add,
      ← ih hls (fun hSign => absurd hSign p.spaced_ne_sign), p.spaced_spaced]
  | @lexeme text rest l ls hl _ ih =>
    obtain ⟨hFirst, hLater⟩ := List.forall_mem_cons.mp hls
    obtain ⟨used, rfl, hUsed⟩ := exists_readFrom hl
    cases l with
    | number n =>
      obtain ⟨hAfter, hNone⟩ := p.after_run hUsed.1 hUsed.2
      rw [groupings_append, hNone, hAfter, Nat.zero_add, groupingsOf]
      exact ih (p := operand) hLater nofun
    | word x =>
      obtain ⟨hAfter, hNone⟩ := p.after_run hUsed.1 hUsed.2
      rw [groupings_append, hNone, hAfter, Nat.zero_add, groupingsOf]
      exact ih (p := operand) hLater nofun
    | mark m =>
      obtain ⟨hm, rfl⟩ := hUsed
      have hNext : p.after m.toList = sign → rest.head? ≠ some '-' := by
        -- Two signs without a space between them would be another lexeme.
        intro hSign hMinus
        obtain rfl := p.eq_sign_of_after m hm hFirst hSign
        obtain ⟨rest, rfl⟩ := List.head?_eq_some_iff.mp hMinus
        have hTwo : nextLexeme? ('-' :: '-' :: rest) = some (.mark "--", rest) := rfl
        have hOne : nextLexeme? ('-' :: '-' :: rest) = some (.mark "-", '-' :: rest) := hl
        simp [hTwo] at hOne
      have hHead := head?_of_mem_marks m hm
      rw [groupings_append, groupingsOf, ← ih hLater hNext]
      cases hChars : m.toList with
      | nil =>
        rw [hChars] at hHead
        cases hHead
      | cons c cs =>
        rw [hChars] at hHead hp
        have hc : ¬ isSpace c := by simpa using hHead
        rw [after_cons_congr p.spaced_eq_operand_iff hc,
          groupings_cons_congr p.spaced_eq_operand_iff hc]
        rintro rfl
        exact spaced_eq_spacedSign_iff fun hSign => hp hSign rfl

end Place

/-- **Every text that is read as an expression has the groupings that it needs.** -/
theorem Reads.groupings_le {text : String} {e : Expr} (h : Reads text e) :
    e.groupings ≤ Place.operator.groupings text.toList := by
  obtain ⟨ls, hLexed, hRead⟩ := h
  have hLexemes := hRead.ofExpression (fun _ hk => nomatch hk)
  rw [← Place.groupingsOf_of_lexed (p := .operator) hLexed hLexemes nofun]
  exact Nat.le_trans (Nat.le_add_right _ _) (hRead.groupings_le .operator (.inl rfl))

end CToGo.Target
