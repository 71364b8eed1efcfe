import CToGo.Proofs.Reading.Lexemes
import CToGo.Proofs.Sequence
import CToGo.Target.Tree

/-!
# The grammar of target expressions

Which expression a list of lexemes spells. Negation binds tighter than products, these
tighter than sums, and all six comparisons stand together on the loosest tier; every binary
operator groups to the left. Anything that yields a value may be called, several times in a
row, and a comma may stand behind the last argument.

* `Expr.Read l ts e rest`: the lexemes `ts` begin with the expression `e` of tier `l`, and
  `rest` follows.
* `Expr.Read.unique`: the grammar is unambiguous.
* `Reads`: a text is read as an expression.
-/

namespace CToGo.Target

/-! ## Rules -/

/-- The tiers of expressions, from the loosest to the tightest. -/
inductive Tier where
  | comparison | sum | product | unary
  /-- An operand and any number of lists of arguments. -/
  | primary
  | operand
deriving DecidableEq, Inhabited, Repr

/-- The next tighter tier. -/
def Tier.tighter? : Tier → Option Tier
  | comparison => some sum
  | sum => some product
  | product => some unary
  | unary => some primary
  | primary => some operand
  | operand => none

/-- The tier on which a binary operator joins its operands. -/
def binaryTier : BinaryOp → Tier
  | .mul | .div | .mod => .product
  | .add | .sub => .sum
  | .equal | .notEqual | .less | .greater | .lessEqual | .greaterEqual => .comparison

/-- How the target language writes a binary operator. -/
def binaryMark : BinaryOp → String
  | .add => "+"
  | .sub => "-"
  | .mul => "*"
  | .div => "/"
  | .mod => "%"
  | .equal => "=="
  | .notEqual => "!="
  | .less => "<"
  | .greater => ">"
  | .lessEqual => "<="
  | .greaterEqual => ">="

mutual

/-- The expressions of each tier. -/
inductive Expr.Read : Tier → List Lexeme → Expr → List Lexeme → Prop where
  | number (n : Nat) (rest : List Lexeme) :
    Expr.Read .operand (.number n :: rest) (.literal n) rest
  | word (x : String) (rest : List Lexeme) : Expr.Read .operand (.word x :: rest) (.ident x) rest
  | qualified (p x : String) (rest : List Lexeme) :
    Expr.Read .operand (.word p :: .mark "." :: .word x :: rest) (.selector p x) rest
  | parenthesized {ts rest : List Lexeme} {e : Expr} :
    Expr.Read .comparison ts e (.mark ")" :: rest) → Expr.Read .operand (.mark "(" :: ts) e rest
  | call {ts us rest : List Lexeme} {f : Expr} {args : List Expr} :
    Expr.Read .primary ts f (.mark "(" :: us) → Arguments us args rest →
    Expr.Read .primary ts (.call f args) rest
  | negate {ts rest : List Lexeme} {e : Expr} :
    Expr.Read .unary ts e rest → Expr.Read .unary (.mark "-" :: ts) (.unary .negate e) rest
  | binary {l tight : Tier} {ts us rest : List Lexeme} {op : BinaryOp} {a b : Expr} :
    binaryTier op = l → l.tighter? = some tight →
    Expr.Read l ts a (.mark (binaryMark op) :: us) → Expr.Read tight us b rest →
    Expr.Read l ts (.binary op a b) rest
  | tighter {l tight : Tier} {ts rest : List Lexeme} {e : Expr} :
    l.tighter? = some tight → Expr.Read tight ts e rest → Expr.Read l ts e rest

/-- The arguments of a call, with the parenthesis that closes them. -/
inductive Arguments : List Lexeme → List Expr → List Lexeme → Prop where
  | none (rest : List Lexeme) : Arguments (.mark ")" :: rest) [] rest
  | last {ts rest : List Lexeme} {e : Expr} :
    Expr.Read .comparison ts e (.mark ")" :: rest) → Arguments ts [e] rest
  | more {ts us rest : List Lexeme} {e : Expr} {es : List Expr} :
    Expr.Read .comparison ts e (.mark "," :: us) → Arguments us es rest →
    Arguments ts (e :: es) rest

end

/-- The text is read as the expression. -/
def Reads (text : String) (e : Expr) : Prop :=
  ∃ ls, Lexed text.toList ls ∧ Expr.Read .comparison ls e []

/-! ## First lexemes -/

/-- Whether an expression of the tier may begin with a minus sign. -/
def Tier.negates : Tier → Bool
  | comparison | sum | product | unary => true
  | primary | operand => false

/-- The lexemes that an expression of a tier begins with. -/
def Tier.starts (l : Tier) : Lexeme → Bool
  | .number _ | .word _ => true
  | .mark m => m == "(" || (m == "-" && l.negates)

theorem Tier.negates_of_tighter {l tight : Tier} (hl : l.tighter? = some tight)
    (h : tight.negates) : l.negates := by
  cases l <;> cases hl <;> first | rfl | exact h

theorem Tier.starts_of_tighter {l tight : Tier} (hl : l.tighter? = some tight) (k : Lexeme)
    (h : tight.starts k) : l.starts k := by
  cases k with
  | number n => rfl
  | word x => rfl
  | mark m =>
    simp only [Tier.starts, Bool.or_eq_true, Bool.and_eq_true] at h ⊢
    exact h.imp_right (And.imp_right (Tier.negates_of_tighter hl))

/-- The lexemes `ts` begin with one of tier `l`, and at least that one is read before `rest`. -/
def Begins (l : Tier) (ts rest : List Lexeme) : Prop :=
  ∃ k us, ts = k :: us ∧ l.starts k ∧ rest.length ≤ us.length

theorem Begins.length_lt {l : Tier} {ts rest : List Lexeme} (h : Begins l ts rest) :
    rest.length < ts.length := by
  obtain ⟨k, us, rfl, -, hLess⟩ := h
  exact Nat.lt_succ_of_le hLess

theorem Begins.trans {l : Tier} {ts us rest : List Lexeme} (h : Begins l ts us)
    (hLess : rest.length ≤ us.length) : Begins l ts rest := by
  obtain ⟨k, vs, rfl, hk, hvs⟩ := h
  exact ⟨k, vs, rfl, hk, Nat.le_trans hLess hvs⟩

mutual

theorem Expr.Read.begins {l : Tier} {ts rest : List Lexeme} {e : Expr} :
    Expr.Read l ts e rest → Begins l ts rest
  | .number _ _ => ⟨_, _, rfl, rfl, Nat.le_refl _⟩
  | .word _ _ => ⟨_, _, rfl, rfl, Nat.le_refl _⟩
  | .qualified _ _ _ => ⟨_, _, rfl, rfl, Nat.le_add_right _ 2⟩
  | .parenthesized h => ⟨_, _, rfl, rfl, by
    have hLess := h.begins.length_lt
    rw [List.length_cons] at hLess
    omega⟩
  | .call hf hargs => hf.begins.trans (Nat.le_of_lt (Nat.lt_succ_of_lt hargs.length_lt))
  | .negate h => ⟨_, _, rfl, rfl, Nat.le_of_lt h.begins.length_lt⟩
  | .binary _ _ ha hb => ha.begins.trans (Nat.le_of_lt (Nat.lt_succ_of_lt hb.begins.length_lt))
  | .tighter hl h => by
    obtain ⟨k, us, rfl, hk, hLess⟩ := h.begins
    exact ⟨k, us, rfl, Tier.starts_of_tighter hl k hk, hLess⟩

theorem Arguments.length_lt {ts rest : List Lexeme} {es : List Expr} :
    Arguments ts es rest → rest.length < ts.length
  | .none rest => Nat.lt_succ_self _
  | .last h => Nat.lt_trans (Nat.lt_succ_self _) h.begins.length_lt
  | .more h hs => by
    have hFirst := h.begins.length_lt
    have hRest := hs.length_lt
    rw [List.length_cons] at hFirst
    omega

end

/-! ## Where expressions end -/

/-- The marks that would continue an expression of a tier. -/
def Tier.continuations : Tier → List String
  | operand => ["."]
  | primary | unary => [".", "("]
  | product => [".", "(", "*", "/", "%"]
  | sum => [".", "(", "*", "/", "%", "+", "-"]
  | comparison =>
    [".", "(", "*", "/", "%", "+", "-", "==", "!=", "<", ">", "<=", ">="]

namespace Tier

/-- The lexemes `rest` do not continue an expression of tier `l`. -/
def Ends (l : Tier) (rest : List Lexeme) : Prop :=
  ∀ m ∈ l.continuations, rest.head? ≠ some (.mark m)

theorem Ends.tighter {l tight : Tier} {rest : List Lexeme} (hl : l.tighter? = some tight)
    (h : l.Ends rest) : tight.Ends rest := by
  intro m hm
  refine h m ?_
  cases l <;> cases hl <;> revert m <;> decide

theorem ends_mark {l : Tier} {m : String} (hm : m ∉ l.continuations) (rest : List Lexeme) :
    l.Ends (.mark m :: rest) := by
  intro m' hm' h
  rw [List.head?_cons, Option.some.injEq, Lexeme.mark.injEq] at h
  exact hm (h ▸ hm')

theorem Ends.not_paren {rest : List Lexeme} (h : primary.Ends rest) :
    rest.head? ≠ some (.mark "(") :=
  h "(" (by decide)

theorem ends_nil (l : Tier) : l.Ends [] := by
  intro m _ h
  cases h

theorem binaryMark_not_mem {l tight : Tier} {op : BinaryOp} (hop : binaryTier op = l)
    (hl : l.tighter? = some tight) : binaryMark op ∉ tight.continuations := by
  subst hop
  cases op <;> cases hl <;> decide

theorem binaryMark_mem (op : BinaryOp) : binaryMark op ∈ (binaryTier op).continuations := by
  cases op <;> decide

end Tier

theorem binaryMark_injective {op op' : BinaryOp} (h : binaryMark op = binaryMark op') :
    op = op' := by
  revert h
  cases op <;> cases op' <;> decide

/-! ## Chains -/

/-- A list of arguments in its parentheses. -/
inductive ArgumentList : List Lexeme → List Expr → List Lexeme → Prop where
  | mk {us rest : List Lexeme} {args : List Expr} :
    Arguments us args rest → ArgumentList (.mark "(" :: us) args rest

/-- An operator of tier `l` and its right operand. -/
inductive RightOperand (l tight : Tier) :
    List Lexeme → BinaryOp × Expr → List Lexeme → Prop where
  | mk {us rest : List Lexeme} {op : BinaryOp} {b : Expr} :
    binaryTier op = l → Expr.Read tight us b rest →
    RightOperand l tight (.mark (binaryMark op) :: us) (op, b) rest

theorem RightOperand.exists_mark {l tight : Tier} {ts rest : List Lexeme} {b : BinaryOp × Expr}
    (h : RightOperand l tight ts b rest) :
    ∃ us, ts = .mark (binaryMark b.1) :: us ∧ Expr.Read tight us b.2 rest := by
  obtain ⟨_, hb⟩ := h
  exact ⟨_, rfl, hb⟩

/-- A value called again and again. -/
def callEach (f : Expr) (lists : List (List Expr)) : Expr := lists.foldl .call f

/-- Operands joined to the left. -/
def joinLeft (a : Expr) (ops : List (BinaryOp × Expr)) : Expr :=
  ops.foldl (fun left (op, right) => .binary op left right) a

/-- A primary expression is an operand and the lists of arguments behind it. -/
theorem Expr.Read.exists_argumentLists {ts rest : List Lexeme} {e : Expr} :
    Expr.Read .primary ts e rest → ∃ f us lists, Expr.Read .operand ts f us ∧
      Repeated ArgumentList us lists rest ∧ e = callEach f lists
  | @Expr.Read.call _ _ _ _ args hf hargs => by
    obtain ⟨f, us, lists, hFirst, hLists, rfl⟩ := hf.exists_argumentLists
    exact ⟨f, us, lists ++ [args], hFirst, hLists.snoc (.mk hargs), by simp [callEach]⟩
  | @Expr.Read.binary _ _ _ _ _ op _ _ hop _ _ _ => by cases op <;> cases hop
  | .tighter hl h => by
    cases hl
    exact ⟨e, rest, [], h, .nil _, rfl⟩

/-- An expression of a binary tier is a first operand and what is joined to it. -/
theorem Expr.Read.exists_operands {l tight : Tier} {op : BinaryOp} (hop : binaryTier op = l)
    (hl : l.tighter? = some tight) {ts rest : List Lexeme} {e : Expr} :
    Expr.Read l ts e rest → ∃ a us ops, Expr.Read tight ts a us ∧
      Repeated (RightOperand l tight) us ops rest ∧ e = joinLeft a ops
  | .binary (b := b) hop' hl' ha hb => by
    obtain ⟨first, us, ops, hFirst, hops, rfl⟩ := ha.exists_operands hop hl
    rw [hl, Option.some.injEq] at hl'
    subst hl'
    exact ⟨first, us, ops ++ [(_, b)], hFirst, hops.snoc (.mk hop' hb), by simp [joinLeft]⟩
  | .tighter hl' h => by
    rw [hl, Option.some.injEq] at hl'
    subst hl'
    exact ⟨e, rest, [], h, .nil _, rfl⟩
  | .number .. => by cases op <;> cases hop
  | .word .. => by cases op <;> cases hop
  | .qualified .. => by cases op <;> cases hop
  | .parenthesized _ => by cases op <;> cases hop
  | .call .. => by cases op <;> cases hop
  | .negate _ => by cases op <;> cases hop

/-! ## Unambiguity -/

/-- At most one expression of tier `l` begins at a list of at most `n` lexemes. -/
def UniqueOn (l : Tier) (n : Nat) : Prop :=
  ∀ ts e e' rest rest', ts.length ≤ n → Expr.Read l ts e rest → Expr.Read l ts e' rest' →
    l.Ends rest → l.Ends rest' → e = e' ∧ rest = rest'

theorem Expr.Read.not_closing {l : Tier} {us rest : List Lexeme} {e : Expr} :
    ¬ Expr.Read l (.mark ")" :: us) e rest := by
  intro h
  obtain ⟨k, us, hk, hStarts, -⟩ := h.begins
  cases hk
  cases hStarts

theorem Arguments.unique {n : Nat} (hInner : UniqueOn .comparison n) {ts rest rest' : List Lexeme}
    {es es' : List Expr} (hn : ts.length ≤ n) (h' : Arguments ts es' rest') :
    Arguments ts es rest → es = es' ∧ rest = rest'
  | .none _ => by
    cases h' with
    | none => exact ⟨rfl, rfl⟩
    | last h' => exact absurd h' Expr.Read.not_closing
    | more h' _ => exact absurd h' Expr.Read.not_closing
  | .last h => by
    have hClose := Tier.ends_mark (l := .comparison) (m := ")") (by decide)
    have hComma := Tier.ends_mark (l := .comparison) (m := ",") (by decide)
    cases h' with
    | none => exact absurd h Expr.Read.not_closing
    | last h' =>
      obtain ⟨rfl, hRest⟩ := hInner _ _ _ _ _ hn h h' (hClose _) (hClose _)
      cases hRest
      exact ⟨rfl, rfl⟩
    | more h' _ =>
      obtain ⟨-, hRest⟩ := hInner _ _ _ _ _ hn h h' (hClose _) (hComma _)
      simp at hRest
  | .more h hs => by
    have hClose := Tier.ends_mark (l := .comparison) (m := ")") (by decide)
    have hComma := Tier.ends_mark (l := .comparison) (m := ",") (by decide)
    cases h' with
    | none => exact absurd h Expr.Read.not_closing
    | last h' =>
      obtain ⟨-, hRest⟩ := hInner _ _ _ _ _ hn h h' (hComma _) (hClose _)
      simp at hRest
    | more h' hs' =>
      obtain ⟨rfl, hRest⟩ := hInner _ _ _ _ _ hn h h' (hComma _) (hComma _)
      cases hRest
      have hLess := h.begins.length_lt
      rw [List.length_cons] at hLess
      obtain ⟨rfl, hRest⟩ := Arguments.unique hInner (by omega) hs' hs
      exact ⟨rfl, hRest⟩

theorem operand_unique {n : Nat} (hInner : ∀ m < n, UniqueOn .comparison m) :
    UniqueOn .operand n := by
  intro ts e e' rest rest' hn h h' hEnds hEnds'
  have hPoint {us : List Lexeme} (hus : Tier.operand.Ends (.mark "." :: us)) : False :=
    hus "." (by decide) rfl
  cases h with
  | number m rest =>
    cases h' with
    | number => exact ⟨rfl, rfl⟩
    | binary _ hl => cases hl
    | tighter hl => cases hl
  | word x rest =>
    cases h' with
    | word => exact ⟨rfl, rfl⟩
    | qualified => exact (hPoint hEnds).elim
    | binary _ hl => cases hl
    | tighter hl => cases hl
  | qualified p x rest =>
    cases h' with
    | word => exact (hPoint hEnds').elim
    | qualified => exact ⟨rfl, rfl⟩
    | binary _ hl => cases hl
    | tighter hl => cases hl
  | parenthesized h =>
    cases h' with
    | parenthesized h' =>
      have hClose := Tier.ends_mark (l := .comparison) (m := ")") (by decide)
      rw [List.length_cons] at hn
      obtain ⟨rfl, hRest⟩ := hInner _ hn _ _ _ _ _ (Nat.le_refl _) h h' (hClose _) (hClose _)
      cases hRest
      exact ⟨rfl, rfl⟩
    | binary _ hl => cases hl
    | tighter hl => cases hl
  | binary _ hl => cases hl
  | tighter hl => cases hl

theorem primary_unique {n : Nat} (hOperand : UniqueOn .operand n)
    (hInner : ∀ m < n, UniqueOn .comparison m) : UniqueOn .primary n := by
  intro ts e e' rest rest' hn h h' hEnds hEnds'
  obtain ⟨f, us, lists, hf, hLists, rfl⟩ := h.exists_argumentLists
  obtain ⟨f', us', lists', hf', hLists', rfl⟩ := h'.exists_argumentLists
  have hParen : ∀ ts args us, ArgumentList ts args us → ts.head? = some (.mark "(") := by
    rintro _ _ _ ⟨_⟩
    rfl
  have hFollow (ts : List Lexeme) (hts : ts.head? = some (.mark "(")) : Tier.operand.Ends ts := by
    intro m hm h
    rw [hts, Option.some.injEq, Lexeme.mark.injEq] at h
    subst h
    revert hm
    decide
  have hStart {us rest : List Lexeme} {lists : List (List Expr)}
      (hLists : Repeated ArgumentList us lists rest) (hRest : Tier.primary.Ends rest) :
      Tier.operand.Ends us := by
    cases hLists with
    | nil => exact hRest.tighter rfl
    | cons hArgs _ => exact hFollow _ (hParen _ _ _ hArgs)
  obtain ⟨rfl, rfl⟩ := hOperand _ _ _ _ _ hn hf hf' (hStart hLists hEnds) (hStart hLists' hEnds')
  have hLess := hf.begins.length_lt
  have hItem : ∀ ts args args' vs vs', ts.length ≤ us.length → ArgumentList ts args vs →
      ArgumentList ts args' vs' → Tier.operand.Ends vs → Tier.operand.Ends vs' →
      args = args' ∧ vs = vs' := by
    rintro _ args args' vs vs' hLength ⟨hArgs⟩ ⟨hArgs'⟩ _ _
    rw [List.length_cons] at hLength
    exact Arguments.unique (hInner _ (by omega)) (Nat.le_of_succ_le hLength) hArgs' hArgs
  obtain ⟨rfl, rfl⟩ := Repeated.unique (·.head? = some (.mark "(")) Tier.operand.Ends hParen
    hFollow (fun _ _ _ ⟨h⟩ => Nat.lt_succ_of_lt h.length_lt) hItem (Nat.le_refl _) hLists hLists'
    (hEnds.tighter rfl) (hEnds'.tighter rfl) hEnds.not_paren hEnds'.not_paren
  exact ⟨rfl, rfl⟩

theorem unary_unique {n : Nat} (hPrimary : UniqueOn .primary n)
    (hInner : ∀ m < n, UniqueOn .unary m) : UniqueOn .unary n := by
  intro ts e e' rest rest' hn h h' hEnds hEnds'
  have hMinus {us vs : List Lexeme} {f : Expr} (hf : Expr.Read .primary (.mark "-" :: us) f vs) :
      False := by
    obtain ⟨k, us, hk, hStarts, -⟩ := hf.begins
    cases hk
    cases hStarts
  cases h with
  | negate h =>
    cases h' with
    | negate h' =>
      rw [List.length_cons] at hn
      obtain ⟨rfl, rfl⟩ := hInner _ hn _ _ _ _ _ (Nat.le_refl _) h h' hEnds hEnds'
      exact ⟨rfl, rfl⟩
    | @binary _ _ _ _ _ op _ _ hop => cases op <;> cases hop
    | tighter hl h' =>
      cases hl
      exact (hMinus h').elim
  | @binary _ _ _ _ _ op _ _ hop => cases op <;> cases hop
  | tighter hl h =>
    cases hl
    cases h' with
    | negate h' => exact (hMinus h).elim
    | @binary _ _ _ _ _ op _ _ hop => cases op <;> cases hop
    | tighter hl' h' =>
      cases hl'
      exact hPrimary _ _ _ _ _ hn h h' (hEnds.tighter rfl) (hEnds'.tighter rfl)

/-- The lexemes `ts` begin with an operator of tier `l`. -/
def OperatorOf (l : Tier) (ts : List Lexeme) : Prop :=
  ∃ op, binaryTier op = l ∧ ts.head? = some (.mark (binaryMark op))

theorem Tier.Ends.not_operatorOf {l : Tier} {rest : List Lexeme} (h : l.Ends rest) :
    ¬ OperatorOf l rest := by
  rintro ⟨op, rfl, hRest⟩
  exact h _ (Tier.binaryMark_mem op) hRest

theorem binary_unique {l tight : Tier} {n : Nat} (op : BinaryOp) (hop : binaryTier op = l)
    (hl : l.tighter? = some tight) (hTight : UniqueOn tight n) : UniqueOn l n := by
  intro ts e e' rest rest' hn h h' hEnds hEnds'
  obtain ⟨a, us, ops, ha, hops, rfl⟩ := h.exists_operands hop hl
  obtain ⟨a', us', ops', ha', hops', rfl⟩ := h'.exists_operands hop hl
  have hBegins : ∀ ts b us, RightOperand l tight ts b us → OperatorOf l ts := by
    rintro _ _ _ ⟨hop, _⟩
    exact ⟨_, hop, rfl⟩
  have hFollow (ts : List Lexeme) : OperatorOf l ts → tight.Ends ts := by
    rintro ⟨op, hop, hts⟩ m hm h
    rw [hts, Option.some.injEq, Lexeme.mark.injEq] at h
    exact Tier.binaryMark_not_mem hop hl (h ▸ hm)
  have hStart {us rest : List Lexeme} {ops : List (BinaryOp × Expr)}
      (hops : Repeated (RightOperand l tight) us ops rest) (hRest : l.Ends rest) :
      tight.Ends us := by
    cases hops with
    | nil => exact hRest.tighter hl
    | cons hb _ => exact hFollow _ (hBegins _ _ _ hb)
  obtain ⟨rfl, rfl⟩ := hTight _ _ _ _ _ hn ha ha' (hStart hops hEnds) (hStart hops' hEnds')
  have hLess := ha.begins.length_lt
  have hItem : ∀ ts b b' vs vs', ts.length ≤ us.length → RightOperand l tight ts b vs →
      RightOperand l tight ts b' vs' → tight.Ends vs → tight.Ends vs' → b = b' ∧ vs = vs' := by
    intro ts b b' vs vs' hLength hb hb' hvs hvs'
    obtain ⟨ws, rfl, hRight⟩ := hb.exists_mark
    obtain ⟨ws', hws, hRight'⟩ := hb'.exists_mark
    rw [List.cons.injEq, Lexeme.mark.injEq] at hws
    obtain ⟨hOp, rfl⟩ := hws
    rw [List.length_cons] at hLength
    obtain ⟨hEq, rfl⟩ := hTight _ _ _ _ _ (by omega) hRight hRight' hvs hvs'
    exact ⟨Prod.ext (binaryMark_injective hOp) hEq, rfl⟩
  obtain ⟨rfl, rfl⟩ := Repeated.unique (OperatorOf l) tight.Ends hBegins hFollow
    (fun _ _ _ ⟨_, h⟩ => Nat.lt_succ_of_lt h.begins.length_lt) hItem (Nat.le_refl _) hops hops'
    (hEnds.tighter hl) (hEnds'.tighter hl) hEnds.not_operatorOf hEnds'.not_operatorOf
  exact ⟨rfl, rfl⟩

theorem uniqueOn (n : Nat) : ∀ l, UniqueOn l n := by
  induction n using Nat.strongRecOn with
  | ind n ih =>
    have hOperand := operand_unique fun m hm => ih m hm .comparison
    have hPrimary := primary_unique hOperand fun m hm => ih m hm .comparison
    have hUnary := unary_unique hPrimary fun m hm => ih m hm .unary
    have hProduct := binary_unique .mul rfl rfl hUnary
    have hSum := binary_unique .add rfl rfl hProduct
    have hComparison := binary_unique .equal rfl rfl hSum
    intro l
    cases l with
    | comparison => exact hComparison
    | sum => exact hSum
    | product => exact hProduct
    | unary => exact hUnary
    | primary => exact hPrimary
    | operand => exact hOperand

/-- The grammar is unambiguous: what is not continued behind it is read in one way only. -/
theorem Expr.Read.unique {l : Tier} {ts rest rest' : List Lexeme} {e e' : Expr}
    (h : Expr.Read l ts e rest) (h' : Expr.Read l ts e' rest') (hEnds : l.Ends rest)
    (hEnds' : l.Ends rest') : e = e' ∧ rest = rest' :=
  uniqueOn ts.length l ts e e' rest rest' (Nat.le_refl _) h h' hEnds hEnds'

/-- A text is read as at most one expression. -/
theorem Reads.unique {text : String} {e e' : Expr} (h : Reads text e) (h' : Reads text e') :
    e = e' := by
  obtain ⟨ls, hls, he⟩ := h
  obtain ⟨ls', hls', he'⟩ := h'
  obtain rfl := hls.unique hls'
  exact (he.unique he' (Tier.ends_nil _) (Tier.ends_nil _)).1

end CToGo.Target
