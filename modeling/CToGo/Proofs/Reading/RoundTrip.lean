import CToGo.Proofs.Reading.Expressions
import CToGo.Target.Printer
import Mathlib.Data.List.Forall2

/-!
# Expressions are read as they were written

The text of an expression is built from the texts of its parts, so it is enough to know of
each way to put texts together how the result is read. A part is followed by more text; what
it is read as does not depend on that text as long as it continues neither a word nor a
number.

* `Expr.isPlain`: the expressions in question.
* `Spells`: a text is read as an expression of a tier, wherever it stands.
* `Expr.spells_text`: so is the text of every plain expression.
-/

namespace CToGo.Target

open Source (isWordStart isWordRest)

/-! ## Plain expressions -/

/-- Whether an expression is a name, possibly one of a package. -/
def Expr.isNamed : Expr → Bool
  | .ident _ | .selector .. => true
  | _ => false

mutual

/-- Whether the literals of an expression are not negative, its names are identifiers, its
unary operators are negations and the functions that it calls are given by name. -/
def Expr.isPlain : Expr → Bool
  | .literal value => decide (0 ≤ value)
  | .ident name => isName name
  | .selector package name => isName package && isName name
  | .binary _ left right => left.isPlain && right.isPlain
  | .unary op operand => op == .negate && operand.isPlain
  | .call function args => function.isNamed && function.isPlain && plainEach args

/-- Whether all expressions of a list are plain. -/
def plainEach : List Expr → Bool
  | [] => true
  | e :: rest => e.isPlain && plainEach rest

end

/-! ## Texts and tiers -/

/-- Wherever the text stands, it is read as the expression of tier `l`, unless a word or a
number at its end is continued. -/
def Spells (l : Tier) (text : String) (e : Expr) : Prop :=
  ∀ rest ls, Apart rest → Lexed rest ls →
    ∃ us, Lexed (text.toList ++ rest) us ∧ Expr.Read l us e ls

/-- How tightly a tier binds. -/
def Tier.rank : Tier → Nat
  | comparison => 1
  | sum => 2
  | product => 3
  | unary => 4
  | primary => 5
  | operand => 6

theorem Tier.rank_of_tighter {l tight : Tier} (hl : l.tighter? = some tight) :
    tight.rank = l.rank + 1 := by
  cases l <;> cases hl <;> rfl

theorem Tier.rank_comparison_le (l : Tier) : comparison.rank ≤ l.rank := by
  cases l <;> decide

theorem rank_binaryTier (op : BinaryOp) : (binaryTier op).rank = op.precedence := by
  cases op <;> rfl

theorem binaryMark_eq_text (op : BinaryOp) : binaryMark op = op.text := by
  cases op <;> rfl

theorem Tier.eq_of_rank {l l' : Tier} (h : l.rank = l'.rank) : l = l' := by
  revert h
  cases l <;> cases l' <;> decide

namespace Spells

variable {l tight : Tier} {text : String} {e : Expr}

theorem looser (hl : l.tighter? = some tight) (h : Spells tight text e) : Spells l text e := by
  intro rest ls hRest hls
  obtain ⟨us, hus, he⟩ := h rest ls hRest hls
  exact ⟨us, hus, .tighter hl he⟩

/-- What is read on one tier is read on all looser ones. -/
theorem of_rank_le {l' : Tier} (h : Spells l text e) (hRank : l'.rank ≤ l.rank) :
    Spells l' text e := by
  by_cases hEq : l'.rank = l.rank
  · exact Tier.eq_of_rank hEq ▸ h
  · have hNext : ∃ tight, l'.tighter? = some tight := by
      cases l' with
      | operand => cases l <;> simp [Tier.rank] at hRank hEq
      | _ => exact ⟨_, rfl⟩
    obtain ⟨tight, hTight⟩ := hNext
    have hMore := Tier.rank_of_tighter hTight
    exact (h.of_rank_le (by omega)).looser hTight
termination_by 6 - l'.rank
decreasing_by
  have hBound : l.rank ≤ 6 := by cases l <;> decide
  omega

theorem parenthesized (h : Spells .comparison text e) :
    Spells .operand ("(" ++ text ++ ")") e := by
  intro rest ls _ hls
  have hClose : Lexed (')' :: rest) (.mark ")" :: ls) := .lexeme rfl hls
  have hApart : Apart (')' :: rest) := by
    intro c hc
    cases hc
    decide
  obtain ⟨us, hus, he⟩ := h _ _ hApart hClose
  refine ⟨.mark "(" :: us, ?_, .parenthesized he⟩
  have hText : ("(" ++ text ++ ")").toList ++ rest = '(' :: (text.toList ++ ')' :: rest) := by
    simp
  rw [hText]
  exact .lexeme rfl hus

end Spells

theorem spells_number (n : Nat) : Spells .operand (toString n) (.literal n) := by
  intro rest ls hRest hls
  exact ⟨_, lexed_number n hRest hls, .number n ls⟩

theorem spells_word {x : String} (hx : isName x) : Spells .operand x (.ident x) := by
  intro rest ls hRest hls
  exact ⟨_, lexed_word hx (fun c hc => (hRest c hc).1) hls, .word x ls⟩

theorem spells_selector {p x : String} (hp : isName p) (hx : isName x) :
    Spells .operand (p ++ "." ++ x) (.selector p x) := by
  intro rest ls hRest hls
  have hName := lexed_word hx (fun c hc => (hRest c hc).1) hls
  obtain ⟨c, cs, hxs, hc⟩ := exists_isWordStart hx
  have hPoint : Lexed ('.' :: (x.toList ++ rest)) (.mark "." :: .word x :: ls) := by
    rw [hxs] at hName ⊢
    exact lexed_point hc hName
  have hApart : ∀ d, ('.' :: (x.toList ++ rest)).head? = some d → ¬ isWordRest d := by
    intro d hd
    cases hd
    decide
  refine ⟨_, ?_, .qualified p x ls⟩
  have hText : (p ++ "." ++ x).toList ++ rest = p.toList ++ '.' :: (x.toList ++ rest) := by simp
  rw [hText]
  exact lexed_word hp hApart hPoint

theorem apart_cons {c : Char} (hc : isWordRest c = false) (hPoint : c ≠ '.') (rest : List Char) :
    Apart (c :: rest) := by
  intro d hd
  cases hd
  exact ⟨by simp [hc], hPoint⟩

theorem spells_binary {op : BinaryOp} {l tight : Tier} {left right : String} {a b : Expr}
    (hop : binaryTier op = l) (hl : l.tighter? = some tight) (ha : Spells l left a)
    (hb : Spells tight right b) :
    Spells l (left ++ " " ++ op.text ++ " " ++ right) (.binary op a b) := by
  intro rest ls hRest hls
  obtain ⟨us, hus, hReadB⟩ := hb rest ls hRest hls
  obtain ⟨vs, hvs, hReadA⟩ := ha _ _ (apart_cons rfl (by decide) _) (lexed_operator op hus)
  rw [← binaryMark_eq_text] at hReadA
  refine ⟨vs, ?_, .binary hop hl hReadA hReadB⟩
  have hText : (left ++ " " ++ op.text ++ " " ++ right).toList ++ rest =
      left.toList ++ ' ' :: (op.text.toList ++ ' ' :: (right.toList ++ rest)) := by simp
  rw [hText]
  exact hvs

/-- The text begins with a character that a minus sign in front of it does not join. -/
def StartsApart (text : String) : Prop :=
  ∃ c cs, text.toList = c :: cs ∧ c ≠ '-' ∧ c ≠ '='

theorem spells_negate {text : String} {e : Expr} (h : Spells .unary text e)
    (hText : StartsApart text) : Spells .unary ("-" ++ text) (.unary .negate e) := by
  intro rest ls hRest hls
  obtain ⟨us, hus, he⟩ := h rest ls hRest hls
  obtain ⟨c, cs, hcs, hMinus, hEqual⟩ := hText
  refine ⟨_, ?_, .negate he⟩
  have hNegated : ("-" ++ text).toList ++ rest = '-' :: (text.toList ++ rest) := by simp
  rw [hNegated]
  rw [hcs] at hus ⊢
  exact lexed_minus hMinus hEqual hus

/-- The arguments of a call, each of which spells its expression. -/
theorem lexed_arguments {texts : List String} {args : List Expr}
    (h : List.Forall₂ (Spells .comparison) texts args) {rest : List Char} {ls : List Lexeme}
    (hls : Lexed rest ls) :
    ∃ us, Lexed ((", ".intercalate texts).toList ++ ')' :: rest) us ∧ Arguments us args ls := by
  have hClose : Lexed (')' :: rest) (.mark ")" :: ls) := .lexeme rfl hls
  induction h with
  | nil => exact ⟨_, hClose, .none ls⟩
  | @cons text e texts args he hs ih =>
    cases hs with
    | nil =>
      obtain ⟨us, hus, hRead⟩ := he _ _ (apart_cons rfl (by decide) rest) hClose
      exact ⟨us, by simpa using hus, .last hRead⟩
    | @cons text' e' texts args he' hs =>
      obtain ⟨us, hus, hArgs⟩ := ih
      have hComma : Lexed (',' :: ' ' :: ((", ".intercalate (text' :: texts)).toList ++
          ')' :: rest)) (.mark "," :: us) := .lexeme rfl (.space (c := ' ') rfl hus)
      obtain ⟨vs, hvs, hRead⟩ := he _ _ (apart_cons rfl (by decide) _) hComma
      refine ⟨vs, ?_, .more hRead hArgs⟩
      rw [String.intercalate_cons_cons]
      simpa using hvs

theorem spells_call {function : String} {f : Expr} {texts : List String} {args : List Expr}
    (hf : Spells .primary function f) (hs : List.Forall₂ (Spells .comparison) texts args) :
    Spells .primary (function ++ "(" ++ ", ".intercalate texts ++ ")") (.call f args) := by
  intro rest ls _ hls
  obtain ⟨us, hus, hArgs⟩ := lexed_arguments hs hls
  have hOpen : Lexed ('(' :: ((", ".intercalate texts).toList ++ ')' :: rest))
      (.mark "(" :: us) := .lexeme rfl hus
  obtain ⟨vs, hvs, hRead⟩ := hf _ _ (apart_cons rfl (by decide) _) hOpen
  refine ⟨vs, ?_, .call hRead hArgs⟩
  simpa using hvs

/-! ## The texts of expressions -/

/-- The tier that the text of an expression is read on. -/
def Expr.tier : Expr → Tier
  | .binary op _ _ => binaryTier op
  | .unary .. => .unary
  | .call .. => .primary
  | .literal _ | .ident _ | .selector .. => .operand

theorem Expr.precedence_le_rank (e : Expr) : e.precedence ≤ e.tier.rank := by
  cases e with
  | binary op a b =>
    rw [Expr.tier, rank_binaryTier]
    exact Nat.le_refl _
  | _ => simp [Expr.precedence, Expr.tier, Tier.rank]

theorem startsApart_of_isWordRest {text : String} {c : Char} (cs : List Char)
    (h : text.toList = c :: cs) (hc : isWordRest c) : StartsApart text := by
  refine ⟨c, cs, h, ?_, ?_⟩
  · rintro rfl
    cases hc
  · rintro rfl
    cases hc

theorem startsApart_of_isName {x : String} (hx : isName x) (rest : String) :
    StartsApart (x ++ rest) := by
  obtain ⟨c, cs, hxs, hc⟩ := exists_isWordStart hx
  refine startsApart_of_isWordRest (cs ++ rest.toList) ?_ (isWordRest_of_isWordStart hc)
  rw [String.toList_append, hxs, List.cons_append]

theorem startsApart_toString (n : Nat) : StartsApart (toString n) := by
  cases hd : Nat.toDigits 10 n with
  | nil => exact absurd hd Nat.toDigits_ne_nil
  | cons d ds =>
    have hDigit : d.isDigit := Nat.isDigit_of_mem_toDigits (by decide) (by decide)
      (hd ▸ List.mem_cons_self)
    refine startsApart_of_isWordRest (c := d) ds ?_ ?_
    · rw [Nat.toString_eq_repr, Nat.toList_repr, hd]
    · simp [isWordRest, Char.isAlphanum, hDigit]

theorem startsApart_parenthesized (text : String) : StartsApart ("(" ++ text ++ ")") :=
  ⟨'(', text.toList ++ [')'], by simp, by decide, by decide⟩

/-- A named expression begins with its name. -/
theorem startsApart_of_isNamed {f : Expr} (hNamed : f.isNamed) (hf : f.isPlain) (rest : String) :
    StartsApart (f.text ++ rest) := by
  cases f with
  | ident x =>
    rw [Expr.text]
    exact startsApart_of_isName hf rest
  | selector p x =>
    rw [Expr.isPlain, Bool.and_eq_true] at hf
    rw [Expr.text, String.append_assoc, String.append_assoc]
    exact startsApart_of_isName hf.1 _
  | _ => cases hNamed

/-- The operand of a negation that needs no parentheses. -/
theorem Expr.startsApart_text {e : Expr} (he : e.isPlain) (hPrecedence : 4 ≤ e.precedence)
    (hNegative : e.isNegative = false) : StartsApart e.text := by
  cases e with
  | literal value =>
    obtain ⟨n, rfl⟩ := Int.eq_ofNat_of_zero_le (of_decide_eq_true he)
    exact startsApart_toString n
  | ident x => simpa using startsApart_of_isNamed rfl he ""
  | selector p x => simpa using startsApart_of_isNamed rfl he ""
  | binary op a b =>
    have hBound : op.precedence ≤ 3 := by cases op <;> decide
    rw [Expr.precedence] at hPrecedence
    omega
  | unary op a =>
    cases op with
    | negate => cases hNegative
    | increment => simp [Expr.isPlain] at he
    | decrement => simp [Expr.isPlain] at he
  | call f args =>
    rw [Expr.isPlain, Bool.and_eq_true, Bool.and_eq_true] at he
    rw [Expr.text, String.append_assoc, String.append_assoc]
    exact startsApart_of_isNamed he.1.1 he.1.2 _

/-- An expression of tier `l` may stand in parentheses wherever one of tier `l'` is wanted, and
without them if it binds tightly enough. -/
theorem spells_parenthesized {condition : Bool} {l l' : Tier} {text : String} {e : Expr}
    (h : Spells l text e) (hCondition : condition = false → l'.rank ≤ l.rank) :
    Spells l' (parenthesized condition text) e := by
  cases condition with
  | false => exact h.of_rank_le (hCondition rfl)
  | true =>
    have hTightest : l'.rank ≤ Tier.operand.rank := by cases l' <;> decide
    exact (h.of_rank_le l.rank_comparison_le).parenthesized.of_rank_le hTightest

theorem spells_text_binary {op : BinaryOp} {a b : Expr} (ha : Spells a.tier a.text a)
    (hb : Spells b.tier b.text b) :
    Spells (binaryTier op) (Expr.binary op a b).text (.binary op a b) := by
  obtain ⟨tight, hTight⟩ : ∃ tight, (binaryTier op).tighter? = some tight := by
    cases op <;> exact ⟨_, rfl⟩
  have hRank := Tier.rank_of_tighter hTight
  rw [rank_binaryTier] at hRank
  have hLeft := a.precedence_le_rank
  have hRight := b.precedence_le_rank
  rw [Expr.text]
  refine spells_binary rfl hTight (spells_parenthesized ha fun h => ?_)
    (spells_parenthesized hb fun h => ?_)
  · rw [decide_eq_false_iff_not] at h
    rw [rank_binaryTier]
    omega
  · rw [decide_eq_false_iff_not] at h
    omega

theorem spells_text_negate {e : Expr} (hPlain : e.isPlain) (h : Spells e.tier e.text e) :
    Spells .unary (Expr.unary .negate e).text (.unary .negate e) := by
  have hRank := e.precedence_le_rank
  rw [Expr.text]
  refine spells_negate (spells_parenthesized h fun hBare => ?_) ?_
  · rw [Bool.or_eq_false_iff, decide_eq_false_iff_not] at hBare
    exact Nat.le_trans (Nat.not_lt.mp hBare.1) hRank
  · unfold parenthesized
    split
    · exact startsApart_parenthesized e.text
    · rename_i hBare
      rw [Bool.not_eq_true, Bool.or_eq_false_iff, decide_eq_false_iff_not] at hBare
      exact e.startsApart_text hPlain (Nat.not_lt.mp hBare.1) hBare.2

mutual

/-- The text of a plain expression is read as the expression. -/
theorem Expr.spells_text : (e : Expr) → e.isPlain → Spells e.tier e.text e
  | .literal value, h => by
    obtain ⟨n, rfl⟩ := Int.eq_ofNat_of_zero_le (of_decide_eq_true h)
    exact spells_number n
  | .ident x, h => spells_word h
  | .selector p x, h => by
    rw [Expr.isPlain, Bool.and_eq_true] at h
    exact spells_selector h.1 h.2
  | .binary op a b, h => by
    rw [Expr.isPlain, Bool.and_eq_true] at h
    exact spells_text_binary (a.spells_text h.1) (b.spells_text h.2)
  | .unary op e, h => by
    rw [Expr.isPlain, Bool.and_eq_true, beq_iff_eq] at h
    obtain ⟨rfl, he⟩ := h
    exact spells_text_negate he (e.spells_text he)
  | .call f args, h => by
    rw [Expr.isPlain, Bool.and_eq_true, Bool.and_eq_true] at h
    obtain ⟨⟨hNamed, hf⟩, hArgs⟩ := h
    have hTier : Tier.primary.rank ≤ f.tier.rank := by
      cases f with
      | ident => exact Nat.le_succ 5
      | selector => exact Nat.le_succ 5
      | _ => cases hNamed
    rw [Expr.text]
    exact spells_call ((f.spells_text hf).of_rank_le hTier) (spells_textOfEach args hArgs)

theorem spells_textOfEach : (es : List Expr) → plainEach es →
    List.Forall₂ (Spells .comparison) (textOfEach es) es
  | [], _ => .nil
  | e :: es, h => by
    rw [plainEach, Bool.and_eq_true] at h
    exact .cons ((e.spells_text h.1).of_rank_le e.tier.rank_comparison_le)
      (spells_textOfEach es h.2)

end

theorem reads_text {e : Expr} (h : e.isPlain) : Reads e.text e := by
  have hSpells := (e.spells_text h).of_rank_le e.tier.rank_comparison_le
  obtain ⟨us, hus, he⟩ := hSpells [] [] (fun _ hc => nomatch hc) .done
  rw [List.append_nil] at hus
  exact ⟨us, hus, he⟩

end CToGo.Target
