import CToGo.Proofs.Grammar.Unbraced
import CToGo.Proofs.Nesting.Pairs

/-!
# Parsing bodies without their braces

A parser succeeds on tokens in which a body that is one simple statement stands in braces, and it
is run again without these braces. As with soundness and completeness, the two runs are compared
for any parser `inner` of nested statements for which they have been compared, and then by
induction on the depth. With and without its braces a body costs the same, but only the braces
give it back. If the branch goes on behind the body, it goes on with less.

* `Mirrored`: what is asked of a parser of nested statements.
* `statement_mirrored`: statements without the braces of a body.
* `parseTokens_unbraced`: **the program is the same without the braces of a body**, unless a
  second alternative follows the body and does not fit in what is left of the budget.
-/

namespace CToGo.Source

namespace Parser

/-! ## Statements without statements inside -/

/-- A simple statement of the form that the next token decides. -/
def simpleForm : Parser (Span → Stmt) := do
  match ← peek? with
  | some (.keyword .kwReturn) =>
    advance
    leave
  | some kind => if kind.isTypeSpecifier then declaration else evaluation
  | none => evaluation

/-- A simple statement. -/
def simple : Parser Stmt := do
  let start ← here
  let form ← refunding simpleForm
  return form (← spanFrom start)

theorem simple_steady : Steady Stmt.bare simple := by
  have hForm : Agree FormsAlike simpleForm simpleForm := by
    refine agree_bind agree_peek? ?_
    rintro kind? _ rfl
    split
    · exact agree_then agree_advance leave_agree
    · exact agree_ite declaration_agree evaluation_agree
    · exact evaluation_agree
  refine agree_bind agree_here ?_
  intro start start' _
  refine agree_bind (agree_refunding hForm) ?_
  intro form form' hForm
  exact agree_spanned start start' hForm

theorem simple_closes {fork : Fork} :
    fork.Closes (Fork.Maps (Stmt.move fork.move)) simple simple := by
  have hForm : fork.Closes (Fork.FormsMoved fork.move) simpleForm simpleForm := by
    refine Fork.closes_bind Fork.follows_peek? fun kind? => ?_
    dsimp only [id]
    split
    · exact Fork.closes_then Fork.follows_advance Fork.leave_closes
    · exact Fork.closes_ite Fork.declaration_closes Fork.evaluation_closes
    · exact Fork.evaluation_closes
  refine Fork.closes_bind Fork.follows_here fun start => ?_
  refine Fork.Closes.spanned start hForm.refunding ?_
  intro form form' span hForm
  exact hForm span

/-- Where a simple statement begins, no other one is looked for. -/
theorem statementOver_eq_simple {inner : Parser Stmt} {s : Stream} {k : TokenKind}
    (hs : s.kinds.head? = some k) (hk : startsSimple k = true) :
    statementOver inner s = simple s := by
  have hForm : formOver inner s = simpleForm s := by
    rw [← s.peek?_eq_head?] at hs
    simp only [formOver, simpleForm, peek?, bind, EStateM.bind, get_eq, pure, EStateM.pure, hs]
    cases k with
    | keyword word => cases word <;> first | rfl | cases hk
    | symbol mark => cases mark <;> first | rfl | cases hk
    | _ => rfl
  have hRefunding : refunding (formOver inner) s = refunding simpleForm s := by
    rw [refunding_eq, refunding_eq, hForm]
  simp only [statementOver, simple, here, bind, EStateM.bind, get_eq, pure, EStateM.pure,
    hRefunding]

theorem statementOver_carries_simple {inner : Parser Stmt} {held : Bool} {st : Stmt}
    {us vs : List TokenKind} (hComplete : CompleteStmt inner)
    (h : Stmt.Spelled (us ++ vs) st vs) (hSimple : st.isSimple) (vs' : List TokenKind) :
    Carries held (Beside true (us ++ vs) (us ++ vs')) (statementOver inner) (statementOver inner)
      (fun a b => a.bare = b.bare) (Beside true vs vs') := by
  obtain ⟨k, pre, rfl, hk⟩ := (h.opensSimple hSimple).exists_cons
  have hEq : ∀ (s : Stream) (ws : List TokenKind), s.kinds = k :: pre ++ ws →
      statementOver inner s = simple s := by
    intro s ws hs
    exact statementOver_eq_simple (by rw [hs]; rfl) hk
  have hLeaves : Leaves simple (k :: pre ++ vs) vs := by
    intro s a t hs hRun
    rw [← hEq s vs hs] at hRun
    exact leaves_of_outcome (fun s hs => statementOver_complete hComplete s st vs (hs ▸ h))
      s a t hs hRun
  refine Carries.congr ?_ (fun s _ hP => hEq s vs hP.left) fun _ s' hP => hEq s' vs' hP.right
  exact carries_closes simple_steady (fun _ _ => simple_closes)
    (fun a => congrArg Stmt.bare (Stmt.move_id a)) hLeaves

/-! ## Nested statements -/

/-- A parser of statements that does the same with and without the braces of a body. -/
structure Mirrored (inner : Parser Stmt) : Prop where
  complete : CompleteStmt inner
  steady : Steady Stmt.bare inner
  follows : ∀ left right,
    Fork.Follows ⟨id, left, right⟩ (Fork.Maps (Stmt.move id)) inner inner
  progresses : Progresses inner
  /-- A simple statement ends with a token of its own. -/
  simple : ∀ {held : Bool} {us vs : List TokenKind} {st : Stmt}, Stmt.Spelled (us ++ vs) st vs →
    st.isSimple → ∀ vs', Carries held (Beside true (us ++ vs) (us ++ vs')) inner inner
      (fun a b => a.bare = b.bare) (Beside true vs vs')
  /-- A statement gives back what has been spent inside. -/
  unbraced : ∀ {held : Bool} {ts ts' rest : List TokenKind} {st : Stmt},
    Stmt.Unbraced held ts ts' st rest → Carries held (Beside true ts ts') inner inner
      (fun a b => a.bare = b.bare) (Beside true rest rest)

section

variable {inner : Parser Stmt} {held : Bool}

/-- The statements up to the brace that closes a block. -/
theorem statements_unbraced (hInner : Mirrored inner) {ts ts' rest : List TokenKind}
    {ss : List Stmt} (h : EachUnbraced held ts ts' ss rest) (hEnd : inBlock rest = false) :
    Carries held (Beside true ts ts')
      (manyWhile (fun s => !s.isAt (.symbol .rightBrace) && !s.isAt .endOfFile) inner)
      (manyWhile (fun s => !s.isAt (.symbol .rightBrace) && !s.isAt .endOfFile) inner)
      (fun as bs => as.map Stmt.bare = bs.map Stmt.bare) (Beside true rest rest) := by
  induction ss generalizing ts ts' with
  | nil => cases h
  | cons st ss ih =>
    have hLeft : inBlock ts = true := by
      cases h with
      | here hs _ => exact inBlock_of_spelled _ _ _ hs.spelled
      | later hs _ => exact inBlock_of_spelled _ _ _ hs
    have hRight : inBlock ts' = true := by
      obtain ⟨k, us, us', rfl, rfl⟩ := h.sameHead
      exact hLeft
    cases h with
    | here hs hss =>
      exact carries_manyWhile isAt_inBlock rfl hInner.progresses hLeft hRight
        (hInner.unbraced hs) (carries_manyWhile_alike isAt_inBlock
          (fun _ _ _ h => h.opens.length_lt) inBlock_of_spelled hInner.steady hInner.complete
          (repeated_of_eachSpelled hss) hEnd)
    | later hs hss =>
      -- The statement ends in front of the one behind it, which begins alike on both sides.
      obtain ⟨k, us, us', rfl, rfl⟩ := hss.sameHead
      refine carries_manyWhile isAt_inBlock rfl hInner.progresses hLeft hRight ?_ (ih hss)
      exact carries_follows hInner.steady hInner.follows
        (fun a => congrArg Stmt.bare (Stmt.move_id a))
        (leaves_of_outcome fun s h => hInner.complete s st _ (h ▸ hs))

theorem blockOver_unbraced (hInner : Mirrored inner) {ts ts' rest : List TokenKind} {b : Block}
    (h : Block.Unbraced held ts ts' b rest) :
    Carries held (Beside true ts ts') (blockOver inner) (blockOver inner)
      (fun a b => a.bare = b.bare) (Beside true rest rest) := by
  cases h with
  | mk hs =>
    refine carries_bind carries_here fun start start' _ => ?_
    refine carries_bind (R := fun as bs => as.map Stmt.bare = bs.map Stmt.bare)
      (Q := Beside true rest rest) (carries_refunding true ?_) fun as bs hStmts => ?_
    · refine carries_then (carries_spend _) ?_
      refine carries_then (carries_expectSymbol _ _ _) ?_
      refine carries_bind (statements_unbraced hInner hs rfl) fun as bs hStmts => ?_
      exact carries_then (carries_expectSymbol _ _ _) (carries_pure hStmts)
    · refine carries_spanned start start' fun _ _ => ?_
      rw [Block.bare, Block.bare, bareAll_eq_map, bareAll_eq_map, hStmts]

/-! ## Bodies -/

theorem beq_of_head_ne {k kind : TokenKind} {us : List TokenKind}
    (h : (k :: us).head? ≠ some kind) : (k == kind) = false := by
  rw [beq_eq_false_iff_ne]
  rintro rfl
  exact h rfl

theorem beq_of_startsSimple {k kind : TokenKind} (hk : startsSimple k = true)
    (hKind : startsSimple kind = false) : (k == kind) = false := by
  rw [beq_eq_false_iff_ne]
  rintro rfl
  exact Bool.false_ne_true (hKind.symm.trans hk)

/-- One statement in front of the brace that closes a block. -/
theorem statements_single (hInner : Mirrored inner) {s t : Stream} {as : List Stmt}
    {rest : List TokenKind} {st : Stmt}
    (hSpelled : Stmt.Spelled s.kinds st (.symbol .rightBrace :: rest))
    (hRun : manyWhile (fun s => !s.isAt (.symbol .rightBrace) && !s.isAt .endOfFile) inner s =
      .ok as t) :
    ∃ a, inner s = .ok a t ∧ as = [a] ∧ t.kinds = .symbol .rightBrace :: rest := by
  have hMore : inBlock s.kinds = true := inBlock_of_spelled _ _ _ hSpelled
  rw [manyWhile_of_more not_inBlock_of_nil hInner.progresses (by rw [isAt_inBlock, hMore])] at hRun
  obtain ⟨a, u, hFirst, hRun⟩ := bind_apply_eq_ok_iff.mp hRun
  have hu : u.kinds = .symbol .rightBrace :: rest :=
    leaves_of_outcome (fun s h => hInner.complete s st _ (h ▸ hSpelled)) s a u rfl hFirst
  obtain ⟨others, v, hOthers, hCons⟩ := bind_apply_eq_ok_iff.mp hRun
  rw [manyWhile_of_stop (by rw [isAt_inBlock, hu]; rfl)] at hOthers
  cases hOthers
  cases hCons
  exact ⟨a, hFirst, rfl, hu⟩

/-- A block of one statement costs what the statement costs behind the same payment. -/
theorem blockOver_single (hInner : Mirrored inner) {s t : Stream} {b : Block}
    {ts rest : List TokenKind} {st : Stmt} (hs : s.kinds = .symbol .leftBrace :: ts)
    (hSpelled : Stmt.Spelled ts st (.symbol .rightBrace :: rest))
    (hRun : blockOver inner s = .ok b t) :
    ∃ b' v, (do spend groupCost; advance; let a ← inner; return Block.mk [a] a.span) s = .ok b' v ∧
      b'.bare = b.bare ∧ t.kinds = rest := by
  obtain ⟨start, s₁, hHere, hRun⟩ := bind_apply_eq_ok_iff.mp hRun
  cases hHere
  obtain ⟨as, s₂, hRefunded, hRun⟩ := bind_apply_eq_ok_iff.mp hRun
  cases hRun
  obtain ⟨s₃, hBraces, rfl⟩ := refunding_eq_ok.mp hRefunded
  obtain ⟨_, u, hSpend, hAfter⟩ := bind_apply_eq_ok_iff.mp hBraces
  obtain ⟨_, s₄, hOpen, hAfter⟩ := bind_apply_eq_ok_iff.mp hAfter
  obtain ⟨-, rfl⟩ := expectSymbol_eq_ok.mp hOpen
  obtain ⟨as', s₅, hStmts, hAfter⟩ := bind_apply_eq_ok_iff.mp hAfter
  obtain ⟨_, s₆, hClose, hAfter⟩ := bind_apply_eq_ok_iff.mp hAfter
  obtain ⟨-, rfl⟩ := expectSymbol_eq_ok.mp hClose
  cases hAfter
  have hu : u.tail.kinds = ts := by
    have hPaid : Outcome (spend groupCost) s (fun _ t => t.kinds = s.kinds) fun _ => True :=
      outcome_spend trivial fun _ h => h
    unfold Outcome at hPaid
    rw [hSpend] at hPaid
    rw [Stream.kinds_tail, hPaid, hs, List.tail_cons]
  obtain ⟨a, hFirst, rfl, hEnd⟩ := statements_single hInner (hu ▸ hSpelled) hStmts
  refine ⟨.mk [a] a.span, s₅, ?_, rfl, ?_⟩
  · rw [bind_of_ok hSpend, bind_of_ok (p := advance) rfl, bind_of_ok hFirst]
    rfl
  · exact (Stream.kinds_tail s₅).trans (by rw [hEnd, List.tail_cons])

/-- The body without its braces spends what the block spends, and does not give it back. -/
theorem bodyOver_marked (hInner : Mirrored inner) {us rest : List TokenKind} {st : Stmt}
    (hSpelled : Stmt.Spelled (us ++ .symbol .rightBrace :: rest) st (.symbol .rightBrace :: rest))
    (hSimple : st.isSimple) :
    Carries held
      (Beside true (.symbol .leftBrace :: (us ++ .symbol .rightBrace :: rest)) (us ++ rest))
      (bodyOver inner) (bodyOver inner) (fun a b => a.bare = b.bare) (Beside false rest rest) := by
  have hBoth : Carries held
      (Beside true (.symbol .leftBrace :: (us ++ .symbol .rightBrace :: rest)) (us ++ rest))
      (do spend groupCost; advance; let a ← inner; return Block.mk [a] a.span)
      (do spend groupCost; let a ← inner; return Block.mk [a] a.span)
      (fun a b => a.bare = b.bare) (Beside true (.symbol .rightBrace :: rest) rest) := by
    refine carries_then (carries_spend _) (carries_advance_left ?_)
    refine carries_bind (hInner.simple hSpelled hSimple rest) fun a b hab => carries_pure ?_
    simp only [Block.bare, bareAll, hab]
  obtain ⟨k, pre, rfl, hk⟩ := (hSpelled.opensSimple hSimple).exists_cons
  refine carries_bind (carries_isAt _) ?_
  rintro _ _ ⟨rfl, rfl⟩
  rw [beq_of_startsSimple hk rfl, beq_self_eq_true, if_pos rfl, if_neg (by simp)]
  intro s s' b t hP hRun
  obtain ⟨b', v, hSingle, hBare, ht⟩ := blockOver_single hInner hP.left hSpelled hRun
  rcases hBoth s s' b' v hP hSingle with ⟨c, t', hRun', hSame, hEnd⟩ | hHeld
  · exact .inl ⟨c, t', hRun', hBare.symm.trans hSame, ht, hEnd.right, fun hFalse => nomatch hFalse⟩
  · exact .inr hHeld

theorem bodyOver_unbraced (hInner : Mirrored inner) {direct : Bool}
    {ts ts' rest : List TokenKind} {b : Block} (h : Body.Unbraced held direct ts ts' b rest) :
    Carries held (Beside true ts ts') (bodyOver inner) (bodyOver inner)
      (fun a b => a.bare = b.bare) (Beside (!direct) rest rest) := by
  cases h with
  | marked hs hSimple => exact bodyOver_marked hInner hs hSimple
  | braced hb =>
    have hBlock := blockOver_unbraced hInner hb
    cases hb with
    | mk _ =>
      refine carries_bind (carries_isAt _) ?_
      rintro _ _ ⟨rfl, rfl⟩
      rw [beq_self_eq_true, if_pos rfl]
      exact hBlock
  | single hNot hs =>
    have hStmt := hInner.unbraced hs
    obtain ⟨k, us, us', rfl, rfl⟩ := hs.sameHead
    refine carries_bind (carries_isAt _) ?_
    rintro _ _ ⟨rfl, rfl⟩
    rw [beq_of_head_ne hNot, if_neg (by simp)]
    refine carries_then (carries_spend _) (carries_bind hStmt fun a b hab => carries_pure ?_)
    simp only [Block.bare, bareAll, hab]

/-- A body in front of a token that is the same on both sides. -/
theorem bodyOver_before (hInner : Mirrored inner) {k : TokenKind} {bs us : List TokenKind}
    {b : Block} (h : Body.Spelled (bs ++ k :: us) b (k :: us)) (us' : List TokenKind) :
    Carries held (Beside true (bs ++ k :: us) (bs ++ k :: us')) (bodyOver inner) (bodyOver inner)
      (fun a b => a.bare = b.bare) (Beside true (k :: us) (k :: us')) :=
  carries_follows (bodyOver_steady hInner.steady)
    (fun left right => Fork.bodyOver_follows (hInner.follows left right) hInner.progresses)
    (fun b => congrArg Block.bare (Block.move_id b))
    (leaves_of_outcome fun _ hs => bodyOver_complete hInner.complete (hs ▸ h))

/-! ## Alternatives -/

theorem condition_carries (construct : String) {cs us : List TokenKind} {e : Expr}
    (h : Condition (cs ++ us) e us) (us' : List TokenKind) :
    Carries held (Beside true (cs ++ us) (cs ++ us')) (condition construct) (condition construct)
      (fun a b => a.bare = b.bare) (Beside true us us') :=
  carries_closes (condition_steady construct) (fun _ _ => Fork.condition_closes construct)
    (fun e => congrArg Expr.bare (Expr.move_id e))
    (leaves_of_outcome fun _ hs => condition_complete (hs ▸ h))

theorem elseOver_leaves (hInner : Mirrored inner) {ts rest : List TokenKind} {alt : Else}
    (h : Else.Spelled ts alt rest) : Leaves (elseOver inner) ts rest :=
  leaves_of_outcome fun _ hs => elseOver_complete hInner.complete (hs ▸ h)

theorem elseOver_of_none {s : Stream} (h : s.kinds.head? ≠ some (.keyword .kwElse)) :
    elseOver inner s = .ok .none s := by
  have hNot : s.isAt (.keyword .kwElse) = false :=
    Bool.eq_false_iff.mpr (mt (Stream.isAt_iff (by simp)).mp h)
  simp only [elseOver, accept, isAt, bind, EStateM.bind, get_eq, pure, EStateM.pure, hNot]
  rfl

/-- What follows the first alternative, whatever is left of the budget on either side. -/
theorem elseOver_apart (hInner : Mirrored inner) {ts rest : List TokenKind} {alt : Else}
    (h : Else.Spelled ts alt rest) (hHeld : held = alt.isPresent) :
    Carries held (Beside false ts ts) (elseOver inner) (elseOver inner)
      (fun a b => a.bare = b.bare) (Beside false rest rest) := by
  intro s s' a t hP hRun
  have hLeft : Outcome (elseOver inner) s (fun a t => a.bare = alt ∧ t.kinds = rest) IsTooDeep :=
    elseOver_complete hInner.complete (hP.left ▸ h)
  have hRight : Outcome (elseOver inner) s' (fun b t' => b.bare = alt ∧ t'.kinds = rest)
      IsTooDeep := elseOver_complete hInner.complete (hP.right ▸ h)
  unfold Outcome at hLeft hRight
  rw [hRun] at hLeft
  cases hRun' : elseOver inner s' with
  | ok b t' =>
    rw [hRun'] at hRight
    exact .inl ⟨b, t', rfl, hLeft.1.trans hRight.1.symm, hLeft.2, hRight.2,
      fun hFalse => nomatch hFalse⟩
  | error e t' =>
    rw [hRun'] at hRight
    obtain ⟨location, rfl⟩ := hRight
    refine .inr ⟨?_, location, t', rfl⟩
    rw [hHeld]
    cases h with
    | none hNot =>
      rw [elseOver_of_none (hP.right ▸ hNot)] at hRun'
      cases hRun'
    | block _ _ => rfl
    | chain _ _ => rfl

/-- What follows a body that is marked, or that has the marked one inside. -/
theorem elseOver_behind (hInner : Mirrored inner) {direct : Bool} {ts rest : List TokenKind}
    {alt : Else} (h : Else.Spelled ts alt rest) (hHeld : direct = true → held = alt.isPresent) :
    Carries held (Beside (!direct) ts ts) (elseOver inner) (elseOver inner)
      (fun a b => a.bare = b.bare) (Beside false rest rest) := by
  cases direct with
  | true => exact elseOver_apart hInner h (hHeld rfl)
  | false => exact (carries_alike (elseOver_steady hInner.steady) (elseOver_leaves hInner h)).forget

theorem elseOver_unbraced (hInner : Mirrored inner) {ts ts' rest : List TokenKind} {alt : Else}
    (h : Else.Unbraced held ts ts' alt rest) :
    Carries held (Beside true ts ts') (elseOver inner) (elseOver inner)
      (fun a b => a.bare = b.bare) (Beside false rest rest) := by
  cases h with
  | block hNot hb _ =>
    have hBody := bodyOver_unbraced hInner hb
    obtain ⟨k, us, k', us', rfl, rfl, hHeads⟩ := hb.heads
    have hk : (k == .keyword .kwIf) = false := beq_of_head_ne hNot
    have hk' : (k' == .keyword .kwIf) = false := by
      rcases hHeads with rfl | hSimple
      · exact hk
      · exact beq_of_startsSimple hSimple rfl
    refine carries_bind carries_accept ?_
    rintro _ _ ⟨rfl, rfl⟩
    rw [if_pos rfl]
    refine carries_bind (carries_isAt _) ?_
    rintro _ _ ⟨rfl, rfl⟩
    rw [hk, hk', if_neg (by simp)]
    refine carries_bind hBody.forget fun a b hab => ?_
    exact carries_pure (congrArg Else.block hab)
  | chain hIf hs =>
    have hStmt := hInner.unbraced hs
    obtain ⟨k, us, us', rfl, rfl⟩ := hs.sameHead
    obtain rfl : k = .keyword .kwIf := Option.some.inj hIf
    refine carries_bind carries_accept ?_
    rintro _ _ ⟨rfl, rfl⟩
    rw [if_pos rfl]
    refine carries_bind (carries_isAt _) ?_
    rintro _ _ ⟨rfl, rfl⟩
    rw [beq_self_eq_true, if_pos rfl]
    refine carries_then (carries_spend _) ?_
    refine carries_bind hStmt.forget fun a b hab => ?_
    exact carries_pure (congrArg Else.chain hab)

/-! ## Statements -/

theorem formOver_unbraced (hInner : Mirrored inner) {ts ts' rest : List TokenKind} {st : Stmt}
    (h : Stmt.Unbraced held ts ts' st rest) :
    Carries held (Beside true ts ts') (formOver inner) (formOver inner) FormsAlike
      (Beside false rest rest) := by
  cases h with
  | inThen hc hb halt hHeld =>
    refine carries_bind carries_peek? ?_
    rintro _ _ ⟨rfl, rfl⟩
    refine carries_then carries_advance ?_
    refine carries_bind (condition_carries "if" hc _) fun e e' he => ?_
    refine carries_bind (bodyOver_unbraced hInner hb) fun b b' hb => ?_
    refine carries_bind (elseOver_behind hInner halt hHeld) fun alt alt' halt => ?_
    refine carries_pure fun _ _ => ?_
    rw [Stmt.bare, Stmt.bare, he, hb, halt]
  | inElse hc hb halt =>
    refine carries_bind carries_peek? ?_
    rintro _ _ ⟨rfl, rfl⟩
    refine carries_then carries_advance ?_
    refine carries_bind (condition_carries "if" hc _) fun e e' he => ?_
    have hElse := elseOver_unbraced hInner halt
    obtain ⟨k, us, us', rfl, rfl⟩ := halt.sameHead
    refine carries_bind (bodyOver_before hInner hb us') fun b b' hb => ?_
    refine carries_bind hElse fun alt alt' halt => ?_
    refine carries_pure fun _ _ => ?_
    rw [Stmt.bare, Stmt.bare, he, hb, halt]
  | inLoop hc hb _ =>
    refine carries_bind carries_peek? ?_
    rintro _ _ ⟨rfl, rfl⟩
    refine carries_then carries_advance ?_
    refine carries_bind (condition_carries "while" hc _) fun e e' he => ?_
    have hBody := bodyOver_unbraced hInner hb
    refine carries_bind hBody.forget fun b b' hb => ?_
    refine carries_pure fun _ _ => ?_
    rw [Stmt.bare, Stmt.bare, he, hb]
  | inBlock hb =>
    have hBlock := blockOver_unbraced hInner hb
    cases hb with
    | mk _ =>
      refine carries_bind carries_peek? ?_
      rintro _ _ ⟨rfl, rfl⟩
      refine carries_bind hBlock.forget fun b b' hb => ?_
      refine carries_pure fun _ _ => ?_
      rw [Stmt.bare, Stmt.bare, hb]

theorem statementOver_unbraced (hInner : Mirrored inner) {ts ts' rest : List TokenKind}
    {st : Stmt} (h : Stmt.Unbraced held ts ts' st rest) :
    Carries held (Beside true ts ts') (statementOver inner) (statementOver inner)
      (fun a b => a.bare = b.bare) (Beside true rest rest) := by
  refine carries_bind carries_here fun start start' _ => ?_
  refine carries_bind (carries_refunding false (formOver_unbraced hInner h)) ?_
  intro form form' hForm
  exact carries_spanned start start' hForm

end

theorem statementWithin_mirrored (n : Nat) : Mirrored (statementWithin n) := by
  induction n with
  | zero =>
    have hFails : ∀ s a t, statementWithin 0 s ≠ .ok a t := fun s a t hRun => nomatch hRun
    exact ⟨statementWithin_complete 0, statementWithin_steady 0,
      fun _ _ => Fork.statementWithin_follows 0, Fork.statementWithin_progresses 0,
      fun _ _ _ => carries_of_fails hFails, fun _ => carries_of_fails hFails⟩
  | succ n ih =>
    exact ⟨statementWithin_complete (n + 1), statementWithin_steady (n + 1),
      fun _ _ => Fork.statementWithin_follows (n + 1), Fork.statementWithin_progresses (n + 1),
      statementOver_carries_simple ih.complete, statementOver_unbraced ih⟩

/-- What bounds the depth of a statement is the budget, which is the same on both sides. -/
theorem statement_carries {held : Bool} {ts ts' : List TokenKind} {Q : Stream → Stream → Prop}
    (h : ∀ n, Carries held (Beside true ts ts') (statementWithin n) (statementWithin n)
      (fun a b => a.bare = b.bare) Q) :
    Carries held (Beside true ts ts') statement statement (fun a b => a.bare = b.bare) Q := by
  intro s s' a t hP hRun
  have hSame : statement s' = statementWithin (s.budget + 1) s' := by
    rw [← hP.budget rfl]
    rfl
  rw [hSame]
  exact h (s.budget + 1) s s' a t hP hRun

theorem statement_mirrored : Mirrored statement where
  complete := statement_complete
  steady := statement_steady
  follows _ _ := Fork.statement_follows
  progresses := Fork.statement_progresses
  simple h hSimple vs' :=
    statement_carries fun n => (statementWithin_mirrored n).simple h hSimple vs'
  unbraced h := statement_carries fun n => (statementWithin_mirrored n).unbraced h

/-! ## Functions -/

theorem function_unbraced {held : Bool} {ts ts' rest : List TokenKind} {f : Function}
    (h : Function.Unbraced held ts ts' f rest) :
    Carries held (Beside true ts ts') function function (fun a b => a.bare = b.bare)
      (Beside true rest rest) := by
  cases h with
  | @mk k pre us vs vs' _ base ty f ps b hk hStars hParams hb =>
    have hBare : ∀ head, bareHead (Fork.moveHead id head) = bareHead head := by
      intro head
      rw [bareHead, Fork.moveHead, List.map_map]
      rfl
    have hHead : Carries held (Beside true ((k :: pre) ++ vs) ((k :: pre) ++ vs')) functionHead
        functionHead (fun a b => bareHead a = bareHead b) (Beside true vs vs') :=
      carries_closes functionHead_steady (fun _ _ => Fork.functionHead_closes) hBare
        (leaves_of_outcome fun _ hs => functionHead_complete hs hk hStars hParams)
    rw [function_eq]
    refine carries_bind carries_here fun start start' _ => ?_
    refine carries_bind hHead fun head head' hHead => ?_
    refine carries_bind (blockOver_unbraced statement_mirrored hb) fun b b' hb => ?_
    exact carries_spanned start start' (bare_function_of_head hHead hb)

/-! ## Programs -/

section

variable {held : Bool}

/-- A sequence of functions in front of other tokens begins with a function in front of them. -/
theorem exists_split_of_repeated {pre us : List TokenKind} {f : Function} {fs : List Function}
    (h : Repeated Function.Spelled (pre ++ us) (f :: fs) us) :
    ∃ used pre', pre = used ++ pre' ∧
      Function.Spelled (used ++ (pre' ++ us)) f (pre' ++ us) ∧
      Repeated Function.Spelled (pre' ++ us) fs us := by
  generalize hts : pre ++ us = ts at h
  cases h with
  | cons hf hfs =>
    obtain ⟨used, -, rfl⟩ := hf.opens.passes.exists_append
    obtain ⟨pre', -, rfl⟩ :=
      (passes_of_repeated (fun _ _ _ hf => hf.opens.passes) hfs).exists_append
    rw [← List.append_assoc] at hts
    exact ⟨used, pre', List.append_cancel_right hts, hf, hfs⟩

/-- The functions up to the end of the file. -/
theorem functions_unbraced {pre us us' vs rest : List TokenKind} {fs fs' : List Function}
    {f : Function} (hBefore : Repeated Function.Spelled (pre ++ us) fs us)
    (hf : Function.Unbraced held us us' f vs) (hAfter : Repeated Function.Spelled vs fs' rest)
    (hEnd : inFile rest = false) :
    Carries held (Beside true (pre ++ us) (pre ++ us'))
      (manyWhile (fun s => !s.isAt .endOfFile) function)
      (manyWhile (fun s => !s.isAt .endOfFile) function)
      (fun as bs => as.map Function.bare = bs.map Function.bare) (Beside true rest rest) := by
  have hGoesOn : ∀ {ts ts' g vs}, SameHead ts ts' → Function.Spelled ts g vs →
      inFile ts = true ∧ inFile ts' = true := by
    rintro _ _ g vs ⟨k, us, us', rfl, rfl⟩ hg
    have hLeft : inFile (k :: us) = true := inFile_of_spelled _ g vs hg
    exact ⟨hLeft, hLeft⟩
  induction fs generalizing pre with
  | nil =>
    have hNil : pre = [] := by
      generalize hts : pre ++ us = ts at hBefore
      cases hBefore
      exact List.append_cancel_right (hts.trans (List.nil_append us).symm)
    rw [hNil, List.nil_append, List.nil_append]
    obtain ⟨hLeft, hRight⟩ := hGoesOn hf.sameHead hf.spelled
    exact carries_manyWhile isAt_inFile rfl function_progresses hLeft hRight
      (function_unbraced hf) (carries_manyWhile_alike isAt_inFile
        (fun _ _ _ h => h.opens.length_lt) inFile_of_spelled function_steady function_complete
        hAfter hEnd)
  | cons g fs ih =>
    obtain ⟨used, pre', rfl, hg, hRest⟩ := exists_split_of_repeated hBefore
    rw [List.append_assoc, List.append_assoc]
    obtain ⟨hLeft, hRight⟩ := hGoesOn (hg.opens.sameHead (pre' ++ us')) hg
    refine carries_manyWhile isAt_inFile rfl function_progresses hLeft hRight ?_ (ih hRest)
    exact carries_closes function_steady (fun _ _ => Fork.function_closes)
      (fun g => congrArg Function.bare (Function.move_id g))
      (leaves_of_outcome fun s hs => function_complete s g _ (hs ▸ hg))

theorem program_unbraced {ts ts' : List TokenKind} {p : Program}
    (h : Program.Unbraced held ts ts' p) :
    Carries held (Beside true ts ts') program program (fun a b => a.bare = b.bare)
      (fun _ _ => True) := by
  cases h with
  | mk hBefore hf hAfter hEnd =>
    refine carries_bind carries_here fun start start' _ => ?_
    refine carries_bind (functions_unbraced hBefore hf hAfter hEnd) fun fs fs' hfs => ?_
    refine carries_bind carries_here fun stop stop' _ => ?_
    refine Carries.mono (carries_pure ?_) (fun _ _ hab => hab) fun _ _ _ => trivial
    simp only [Program.bare, hfs]

end

end Parser

/-- What is parsed is the program in which the body is marked. -/
theorem Program.Unbraced.bare_eq {held : Bool} {tokens : List Token} {ts' : List TokenKind}
    {q p : Program} (h : Program.Unbraced held (tokens.map (·.kind)) ts' q)
    (hParse : parseTokens tokens = .ok p) : p.bare = q := by
  obtain ⟨rest, hSpelled, hEnd, hSpan⟩ := h.spelled
  have hWhole := Parser.program_complete_of_repeated (s := .ofTokens tokens) hSpelled hEnd
  unfold parseTokens at hParse
  unfold Parser.Outcome at hWhole
  split at hParse
  · next p₁ t hRun =>
    cases hParse
    rw [hRun] at hWhole
    rw [hWhole, ← hSpan]
  · cases hParse

/-! ## Two functions with a marked body -/

/-- A branch or a loop with the given body. -/
def withBody (word : Keyword) (body : List TokenKind) : List TokenKind :=
  .keyword word :: ([.symbol .leftParen, .literal 1, .symbol .rightParen] ++ body)

/-- A function that consists of a branch or a loop with the given body. -/
def mainWithBody (word : Keyword) (body : List TokenKind) : List TokenKind :=
  .keyword .kwInt :: ([.identifier "main", .symbol .leftParen, .symbol .rightParen] ++
    .symbol .leftBrace :: withBody word body)

def returnOne : List TokenKind := [.keyword .kwReturn, .literal 1, .symbol .semicolon]

/-- The body `return 1;`, in braces or without them. -/
def returnBody (braced : Bool) (rest : List TokenKind) : List TokenKind :=
  if braced then .symbol .leftBrace :: (returnOne ++ .symbol .rightBrace :: rest)
  else returnOne ++ rest

/-- An alternative that returns the number 1, in parentheses. -/
def elseReturn (depth : Nat) (rest : List TokenKind) : List TokenKind :=
  .keyword .kwElse :: .symbol .leftBrace :: .keyword .kwReturn ::
    (List.replicate depth (.symbol .leftParen) ++ .literal 1 ::
      (List.replicate depth (.symbol .rightParen) ++
        .symbol .semicolon :: .symbol .rightBrace :: rest))

/-- A loop whose body is a `return`. -/
def returningLoop (braced : Bool) : List Token :=
  unlocatedTokens (mainWithBody .kwWhile (returnBody braced [.symbol .rightBrace, .endOfFile]))

/-- A branch with a `return` in both alternatives. -/
def returningBranch (depth : Nat) (braced : Bool) : List Token :=
  unlocatedTokens (mainWithBody .kwIf
    (returnBody braced (elseReturn depth [.symbol .rightBrace, .endOfFile])))

theorem spelled_one (rest : List TokenKind) :
    Expr.Spelled .assignment (.literal 1 :: rest) (.literal 1 nowhere) rest :=
  (Expr.Spelled.literal 1 rest).of_primary .assignment

theorem spelled_in_parentheses (n : Nat) {ts rest : List TokenKind} {e : Expr}
    (h : Expr.Spelled .assignment ts e (List.replicate n (.symbol .rightParen) ++ rest)) :
    Expr.Spelled .assignment (List.replicate n (.symbol .leftParen) ++ ts) e rest := by
  induction n generalizing rest with
  | zero => exact h
  | succ n ih =>
    rw [List.replicate_succ', List.append_assoc] at h
    exact (Expr.Spelled.parenthesized (ih h)).of_primary .assignment

theorem elseReturn_spelled (depth : Nat) (rest : List TokenKind) :
    ∃ b, Else.Spelled (elseReturn depth rest) (.block b) rest := by
  have hOne := spelled_in_parentheses depth
    (spelled_one (List.replicate depth (.symbol .rightParen) ++
      .symbol .semicolon :: .symbol .rightBrace :: rest))
  exact ⟨_, .block (by simp) (.braced (.mk (.cons (.leaveWith hOne) (.nil _))))⟩

theorem returnBody_unbraced (held : Bool) (rest : List TokenKind) :
    ∃ b, Body.Unbraced held true (returnBody true rest) (returnBody false rest) b rest :=
  ⟨_, .marked (.leaveWith (spelled_one _)) rfl⟩

theorem mainWithBody_unbraced {held : Bool} {word : Keyword} {us us' : List TokenKind} {st : Stmt}
    (h : Stmt.Unbraced held (withBody word us) (withBody word us') st
      [.symbol .rightBrace, .endOfFile]) :
    ∃ q, Program.Unbraced held ((unlocatedTokens (mainWithBody word us)).map (·.kind))
      ((unlocatedTokens (mainWithBody word us')).map (·.kind)) q := by
  have hBefore : Repeated Function.Spelled ([] ++ mainWithBody word us) []
      (mainWithBody word us) := .nil _
  have hFunction : Function.Unbraced held (mainWithBody word us) (mainWithBody word us') _ _ :=
    .mk .int (.none _ _) (.none _) (.mk (.here h (.nil _)))
  rw [map_kind_unlocatedTokens, map_kind_unlocatedTokens]
  exact ⟨_, .mk hBefore hFunction (.nil _) rfl⟩

theorem returningLoop_unbraced :
    ∃ q, Program.Unbraced false ((returningLoop true).map (·.kind))
      ((returningLoop false).map (·.kind)) q := by
  obtain ⟨b, hBody⟩ := returnBody_unbraced false [.symbol .rightBrace, .endOfFile]
  exact mainWithBody_unbraced (.inLoop (.mk (spelled_one _)) hBody fun _ => rfl)

theorem returningBranch_unbraced (depth : Nat) :
    ∃ q, Program.Unbraced true ((returningBranch depth true).map (·.kind))
      ((returningBranch depth false).map (·.kind)) q := by
  obtain ⟨alt, hElse⟩ := elseReturn_spelled depth [.symbol .rightBrace, .endOfFile]
  obtain ⟨b, hBody⟩ :=
    returnBody_unbraced true (elseReturn depth [.symbol .rightBrace, .endOfFile])
  exact mainWithBody_unbraced (.inThen (.mk (spelled_one _)) hBody hElse fun _ => rfl)

/-! ## The theorem -/

/-- **Tokens mean the same without the braces of a body.** Let a body that stands in braces, as
the body of a branch or of a loop, consist of one statement that has no statements inside. If
the tokens are parsed, so are the tokens without these braces, and as the same program up to
spans. If a second alternative follows the body (`held`), it may be refused for its nesting
instead, since what a body without braces has spent is not given back in front of it. -/
theorem parseTokens_unbraced {held : Bool} {tokens tokens' : List Token} {q p : Program}
    (hBody : Program.Unbraced held (tokens.map (·.kind)) (tokens'.map (·.kind)) q)
    (hParse : parseTokens tokens = .ok p) :
    BracesMissing (tokens.map (·.kind)) (tokens'.map (·.kind)) ∧ p.bare = q ∧
      ((∃ p', parseTokens tokens' = .ok p' ∧ p'.bare = p.bare) ∨
      (held = true ∧ ∃ location, parseTokens tokens' = .error (.tooDeep location))) := by
  refine ⟨hBody.bracesMissing, hBody.bare_eq hParse, ?_⟩
  have hCarries := Parser.program_unbraced hBody (.ofTokens tokens) (.ofTokens tokens')
  unfold parseTokens at hParse ⊢
  split at hParse
  · next p₁ t hRun =>
    cases hParse
    rcases hCarries p t ⟨rfl, rfl, fun _ => rfl⟩ hRun with
      ⟨p', t', hRun', hBare, -⟩ | ⟨hHeld, location, t', hRun'⟩
    · rw [hRun']
      exact .inl ⟨p', rfl, hBare.symm⟩
    · rw [hRun']
      exact .inr ⟨hHeld, location, rfl⟩
  · cases hParse

theorem parseTokens_unbraced_returningLoop :
    ∃ p p', parseTokens (returningLoop true) = .ok p ∧
      parseTokens (returningLoop false) = .ok p' ∧ p'.bare = p.bare := by
  obtain ⟨q, hBody⟩ := returningLoop_unbraced
  obtain ⟨p, hp⟩ : ∃ p, parseTokens (returningLoop true) = .ok p :=
    exists_eq_ok (by decide +kernel)
  rcases (parseTokens_unbraced hBody hp).2.2 with ⟨p', hp', hBare⟩ | ⟨hHeld, -⟩
  · exact ⟨p, p', hp, hp', hBare⟩
  · cases hHeld

/-- An alternative that is just not too deep is too deep without the braces in front of it. -/
theorem parseTokens_returningBranch :
    ∃ p, parseTokens (returningBranch 62 true) = .ok p ∧
      Program.Unbraced true ((returningBranch 62 true).map (·.kind))
        ((returningBranch 62 false).map (·.kind)) p.bare ∧
      parseTokens (returningBranch 62 false) = .error (.tooDeep nowhere.start) := by
  obtain ⟨q, hBody⟩ := returningBranch_unbraced 62
  obtain ⟨p, hp⟩ : ∃ p, parseTokens (returningBranch 62 true) = .ok p :=
    exists_eq_ok (by decide +kernel)
  obtain rfl : p.bare = q := hBody.bare_eq hp
  exact ⟨p, hp, hBody, eq_error_of_some (by decide +kernel)⟩

end CToGo.Source
