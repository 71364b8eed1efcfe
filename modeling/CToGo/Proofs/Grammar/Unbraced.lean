import CToGo.Proofs.Grammar.Programs

/-!
# Bodies without their braces

A body that consists of one statement means the same without its braces. The relations here are
the grammar with one such body marked: `Unbraced held ts ts' x rest` says that `ts` begins with a
spelling of `x` in front of `rest`, and that `ts'` is `ts` without the braces around a body of the
spelling that is an evaluation, a declaration or a `return`.

* `Stmt.Unbraced`, `Function.Unbraced`, `Program.Unbraced`: the relations. The body is `held` if
  it is the first alternative of a branch that has a second one.
* `Program.Unbraced.bracesMissing`: a pair of braces is missing, and nothing else.
* `Program.Unbraced.spelled`: with the braces, the tokens spell the program.
-/

namespace CToGo.Source

/-- Whether no other statement stands inside the statement. -/
def Stmt.isSimple : Stmt → Bool
  | .declare .. | .eval .. | .leave .. => true
  | .branch .. | .loop .. | .block .. => false

/-- Whether there is a second alternative. -/
def Else.isPresent : Else → Bool
  | .none => false
  | .block _ | .chain _ => true

/-! ## Rules -/

mutual

/-- A statement with a marked body. -/
inductive Stmt.Unbraced (held : Bool) :
    List TokenKind → List TokenKind → Stmt → List TokenKind → Prop where
  | inThen {direct : Bool} {cs us us' vs rest : List TokenKind} {e : Expr} {b : Block}
    {alt : Else} :
    Condition (cs ++ us) e us → Body.Unbraced held direct us us' b vs →
    Else.Spelled vs alt rest → (direct = true → held = alt.isPresent) →
    Stmt.Unbraced held (.keyword .kwIf :: (cs ++ us)) (.keyword .kwIf :: (cs ++ us'))
      (.branch e b alt nowhere) rest
  | inElse {cs bs vs vs' rest : List TokenKind} {e : Expr} {b : Block} {alt : Else} :
    Condition (cs ++ (bs ++ vs)) e (bs ++ vs) → Body.Spelled (bs ++ vs) b vs →
    Else.Unbraced held vs vs' alt rest →
    Stmt.Unbraced held (.keyword .kwIf :: (cs ++ (bs ++ vs)))
      (.keyword .kwIf :: (cs ++ (bs ++ vs'))) (.branch e b alt nowhere) rest
  | inLoop {direct : Bool} {cs us us' rest : List TokenKind} {e : Expr} {b : Block} :
    Condition (cs ++ us) e us → Body.Unbraced held direct us us' b rest →
    (direct = true → held = false) →
    Stmt.Unbraced held (.keyword .kwWhile :: (cs ++ us)) (.keyword .kwWhile :: (cs ++ us'))
      (.loop e b nowhere) rest
  | inBlock {ts ts' rest : List TokenKind} {b : Block} :
    Block.Unbraced held ts ts' b rest → Stmt.Unbraced held ts ts' (.block b nowhere) rest

/-- A block with a marked body inside. -/
inductive Block.Unbraced (held : Bool) :
    List TokenKind → List TokenKind → Block → List TokenKind → Prop where
  | mk {ts ts' rest : List TokenKind} {ss : List Stmt} :
    EachUnbraced held ts ts' ss (.symbol .rightBrace :: rest) →
    Block.Unbraced held (.symbol .leftBrace :: ts) (.symbol .leftBrace :: ts')
      (.mk ss nowhere) rest

/-- A sequence of statements, one of them with a marked body. -/
inductive EachUnbraced (held : Bool) :
    List TokenKind → List TokenKind → List Stmt → List TokenKind → Prop where
  | here {ts ts' us rest : List TokenKind} {s : Stmt} {ss : List Stmt} :
    Stmt.Unbraced held ts ts' s us → EachSpelled us ss rest →
    EachUnbraced held ts ts' (s :: ss) rest
  | later {pre us us' rest : List TokenKind} {s : Stmt} {ss : List Stmt} :
    Stmt.Spelled (pre ++ us) s us → EachUnbraced held us us' ss rest →
    EachUnbraced held (pre ++ us) (pre ++ us') (s :: ss) rest

/-- A body that is marked itself (`direct`), or that has the marked one inside. -/
inductive Body.Unbraced (held : Bool) :
    Bool → List TokenKind → List TokenKind → Block → List TokenKind → Prop where
  | marked {us rest : List TokenKind} {s : Stmt} :
    Stmt.Spelled (us ++ .symbol .rightBrace :: rest) s (.symbol .rightBrace :: rest) →
    s.isSimple →
    Body.Unbraced held true (.symbol .leftBrace :: (us ++ .symbol .rightBrace :: rest))
      (us ++ rest) (.mk [s] nowhere) rest
  | braced {ts ts' rest : List TokenKind} {b : Block} :
    Block.Unbraced held ts ts' b rest → Body.Unbraced held false ts ts' b rest
  | single {ts ts' rest : List TokenKind} {s : Stmt} :
    ts.head? ≠ some (.symbol .leftBrace) → Stmt.Unbraced held ts ts' s rest →
    Body.Unbraced held false ts ts' (.mk [s] nowhere) rest

/-- A second alternative with a marked body. -/
inductive Else.Unbraced (held : Bool) :
    List TokenKind → List TokenKind → Else → List TokenKind → Prop where
  | block {direct : Bool} {ts ts' rest : List TokenKind} {b : Block} :
    ts.head? ≠ some (.keyword .kwIf) → Body.Unbraced held direct ts ts' b rest →
    (direct = true → held = false) →
    Else.Unbraced held (.keyword .kwElse :: ts) (.keyword .kwElse :: ts') (.block b) rest
  | chain {ts ts' rest : List TokenKind} {s : Stmt} :
    ts.head? = some (.keyword .kwIf) → Stmt.Unbraced held ts ts' s rest →
    Else.Unbraced held (.keyword .kwElse :: ts) (.keyword .kwElse :: ts') (.chain s) rest

end

/-- A function with a marked body. -/
inductive Function.Unbraced (held : Bool) :
    List TokenKind → List TokenKind → Function → List TokenKind → Prop where
  | mk {k : TokenKind} {pre us vs vs' rest : List TokenKind} {base ty : Ty} {f : String}
    {ps : List Param} {b : Block} :
    BaseType k base → Stars (pre ++ vs) base ty (.identifier f :: .symbol .leftParen :: us) →
    Params us ps vs → Block.Unbraced held vs vs' b rest →
    Function.Unbraced held (k :: (pre ++ vs)) (k :: (pre ++ vs')) ⟨f, ps, ty, b, nowhere⟩ rest

/-- A whole stream of tokens with a marked body. The file ends with the stream or with a token
that says so. -/
inductive Program.Unbraced (held : Bool) : List TokenKind → List TokenKind → Program → Prop where
  | mk {pre us us' vs rest : List TokenKind} {fs fs' : List Function} {f : Function} :
    Repeated Function.Spelled (pre ++ us) fs us → Function.Unbraced held us us' f vs →
    Repeated Function.Spelled vs fs' rest → Parser.inFile rest = false →
    Program.Unbraced held (pre ++ us) (pre ++ us') ⟨fs ++ f :: fs', nowhere⟩

/-! ## The missing braces -/

/-- Behind `before`, the first tokens have braces around `body` that the second do not have. -/
def BracesMissing (ts ts' : List TokenKind) : Prop :=
  ∃ before body after, ts = before ++ .symbol .leftBrace :: (body ++ .symbol .rightBrace :: after) ∧
    ts' = before ++ (body ++ after)

theorem BracesMissing.behind {ts ts' : List TokenKind} (h : BracesMissing ts ts')
    (pre : List TokenKind) : BracesMissing (pre ++ ts) (pre ++ ts') := by
  obtain ⟨before, body, after, rfl, rfl⟩ := h
  exact ⟨pre ++ before, body, after, by simp, by simp⟩

theorem BracesMissing.cons {ts ts' : List TokenKind} (h : BracesMissing ts ts') (k : TokenKind) :
    BracesMissing (k :: ts) (k :: ts') :=
  h.behind [k]

mutual

theorem Stmt.Unbraced.bracesMissing {held : Bool} {ts ts' rest : List TokenKind} {s : Stmt} :
    Stmt.Unbraced held ts ts' s rest → BracesMissing ts ts'
  | .inThen _ h _ _ => (h.bracesMissing.behind _).cons _
  | .inElse _ _ h => ((h.bracesMissing.behind _).behind _).cons _
  | .inLoop _ h _ => (h.bracesMissing.behind _).cons _
  | .inBlock h => h.bracesMissing

theorem Block.Unbraced.bracesMissing {held : Bool} {ts ts' rest : List TokenKind} {b : Block} :
    Block.Unbraced held ts ts' b rest → BracesMissing ts ts'
  | .mk h => h.bracesMissing.cons _

theorem EachUnbraced.bracesMissing {held : Bool} {ts ts' rest : List TokenKind}
    {ss : List Stmt} : EachUnbraced held ts ts' ss rest → BracesMissing ts ts'
  | .here h _ => h.bracesMissing
  | .later _ h => h.bracesMissing.behind _

theorem Body.Unbraced.bracesMissing {held direct : Bool} {ts ts' rest : List TokenKind}
    {b : Block} : Body.Unbraced held direct ts ts' b rest → BracesMissing ts ts'
  | .marked _ _ => ⟨[], _, _, rfl, rfl⟩
  | .braced h => h.bracesMissing
  | .single _ h => h.bracesMissing

theorem Else.Unbraced.bracesMissing {held : Bool} {ts ts' rest : List TokenKind} {alt : Else} :
    Else.Unbraced held ts ts' alt rest → BracesMissing ts ts'
  | .block _ h _ => h.bracesMissing.cons _
  | .chain _ h => h.bracesMissing.cons _

end

theorem Program.Unbraced.bracesMissing {held : Bool} {ts ts' : List TokenKind} {p : Program}
    (h : Program.Unbraced held ts ts' p) : BracesMissing ts ts' := by
  cases h with
  | mk _ hf _ _ =>
    cases hf with
    | mk _ _ _ hb => exact ((hb.bracesMissing.behind _).cons _).behind _

/-! ## The spelling with the braces -/

mutual

theorem Stmt.Unbraced.spelled {held : Bool} {ts ts' rest : List TokenKind} {s : Stmt} :
    Stmt.Unbraced held ts ts' s rest → Stmt.Spelled ts s rest
  | .inThen hc hb halt _ => .branch hc hb.spelled halt
  | .inElse hc hb halt => .branch hc hb halt.spelled
  | .inLoop hc hb _ => .loop hc hb.spelled
  | .inBlock hb => .block hb.spelled

theorem Block.Unbraced.spelled {held : Bool} {ts ts' rest : List TokenKind} {b : Block} :
    Block.Unbraced held ts ts' b rest → Block.Spelled ts b rest
  | .mk hs => .mk hs.spelled

theorem EachUnbraced.spelled {held : Bool} {ts ts' rest : List TokenKind} {ss : List Stmt} :
    EachUnbraced held ts ts' ss rest → EachSpelled ts ss rest
  | .here hs hss => .cons hs.spelled hss
  | .later hs hss => .cons hs hss.spelled

theorem Body.Unbraced.spelled {held direct : Bool} {ts ts' rest : List TokenKind} {b : Block} :
    Body.Unbraced held direct ts ts' b rest → Body.Spelled ts b rest
  | .marked hs _ => .braced (.mk (.cons hs (.nil _)))
  | .braced hb => .braced hb.spelled
  | .single hNot hs => .single hNot hs.spelled

theorem Else.Unbraced.spelled {held : Bool} {ts ts' rest : List TokenKind} {alt : Else} :
    Else.Unbraced held ts ts' alt rest → Else.Spelled ts alt rest
  | .block hNot hb _ => .block hNot hb.spelled
  | .chain hIf hs => .chain hIf hs.spelled

end

theorem Function.Unbraced.spelled {held : Bool} {ts ts' rest : List TokenKind} {f : Function}
    (h : Function.Unbraced held ts ts' f rest) : Function.Spelled ts f rest := by
  cases h with
  | mk hk hs hps hb => exact .mk hk hs hps hb.spelled

theorem Program.Unbraced.spelled {held : Bool} {ts ts' : List TokenKind} {p : Program}
    (h : Program.Unbraced held ts ts' p) :
    ∃ rest, Repeated Function.Spelled ts p.functions rest ∧ Parser.inFile rest = false ∧
      p.span = nowhere := by
  cases h with
  | mk hBefore hf hAfter hEnd =>
    exact ⟨_, hBefore.append (.cons hf.spelled hAfter), hEnd, rfl⟩

/-! ## First tokens -/

/-- Both begin with the same token. -/
def SameHead (ts ts' : List TokenKind) : Prop := ∃ k us us', ts = k :: us ∧ ts' = k :: us'

theorem Block.Unbraced.sameHead {held : Bool} {ts ts' rest : List TokenKind} {b : Block}
    (h : Block.Unbraced held ts ts' b rest) : SameHead ts ts' := by
  cases h with
  | mk _ => exact ⟨_, _, _, rfl, rfl⟩

theorem Stmt.Unbraced.sameHead {held : Bool} {ts ts' rest : List TokenKind} {s : Stmt}
    (h : Stmt.Unbraced held ts ts' s rest) : SameHead ts ts' := by
  cases h with
  | inThen _ _ _ _ => exact ⟨_, _, _, rfl, rfl⟩
  | inElse _ _ _ => exact ⟨_, _, _, rfl, rfl⟩
  | inLoop _ _ _ => exact ⟨_, _, _, rfl, rfl⟩
  | inBlock hb => exact hb.sameHead

theorem Else.Unbraced.sameHead {held : Bool} {ts ts' rest : List TokenKind} {alt : Else}
    (h : Else.Unbraced held ts ts' alt rest) : SameHead ts ts' := by
  cases h with
  | block _ _ _ => exact ⟨_, _, _, rfl, rfl⟩
  | chain _ _ => exact ⟨_, _, _, rfl, rfl⟩

/-- The first token is among those that are read. -/
theorem Opens.exists_cons {P : TokenKind → Bool} {pre us : List TokenKind}
    (h : Opens P (pre ++ us) us) : ∃ k pre', pre = k :: pre' ∧ P k = true := by
  cases pre with
  | nil => exact absurd h.length_lt (Nat.lt_irrefl _)
  | cons k pre =>
    obtain ⟨k', hHead, hk'⟩ := h.head
    obtain rfl : k = k' := Option.some.inj hHead
    exact ⟨k, pre, rfl, hk'⟩

theorem Opens.sameHead {P : TokenKind → Bool} {pre us : List TokenKind}
    (h : Opens P (pre ++ us) us) (us' : List TokenKind) : SameHead (pre ++ us) (pre ++ us') := by
  obtain ⟨k, pre', rfl, -⟩ := h.exists_cons
  exact ⟨k, _, _, rfl, rfl⟩

theorem EachUnbraced.sameHead {held : Bool} {ts ts' rest : List TokenKind} {ss : List Stmt}
    (h : EachUnbraced held ts ts' ss rest) : SameHead ts ts' := by
  cases h with
  | here hs _ => exact hs.sameHead
  | later hs _ => exact hs.opens.sameHead _

theorem Function.Unbraced.sameHead {held : Bool} {ts ts' rest : List TokenKind} {f : Function}
    (h : Function.Unbraced held ts ts' f rest) : SameHead ts ts' := by
  cases h with
  | mk _ _ _ _ => exact ⟨_, _, _, rfl, rfl⟩

/-- The tokens that a statement without statements inside begins with. -/
def startsSimple : TokenKind → Bool
  | .keyword .kwReturn => true
  | k => k.isTypeSpecifier || startsExpr k

theorem startsSimple_of_isTypeSpecifier (k : TokenKind) (h : k.isTypeSpecifier) :
    startsSimple k := by
  unfold startsSimple
  split <;> simp_all

theorem startsSimple_of_startsExpr (k : TokenKind) (h : startsExpr k) : startsSimple k := by
  unfold startsSimple
  split <;> simp_all

theorem Stmt.Spelled.opensSimple {ts rest : List TokenKind} {s : Stmt}
    (h : Stmt.Spelled ts s rest) (hSimple : s.isSimple) : Opens startsSimple ts rest := by
  cases h with
  | declare h => exact (h.opens.mono startsSimple_of_isTypeSpecifier).tail (by simp)
  | define h he =>
    exact ((h.opens.mono startsSimple_of_isTypeSpecifier).tail (by simp)).trans
      (he.opens.passes.tail (by simp))
  | eval h => exact (h.opens.mono startsSimple_of_startsExpr).tail (by simp)
  | leave => exact ⟨_, _, rfl, rfl, by simp, .cons (by simp) (.refl rest)⟩
  | leaveWith h => exact ⟨_, _, rfl, rfl, by simp, h.opens.passes.tail (by simp)⟩
  | branch _ _ _ => cases hSimple
  | loop _ _ => cases hSimple
  | block _ => cases hSimple

/-- Without its braces, a body may begin with another token, but never with a brace or with
another `if`. -/
theorem Body.Unbraced.heads {held direct : Bool} {ts ts' rest : List TokenKind} {b : Block}
    (h : Body.Unbraced held direct ts ts' b rest) :
    ∃ k us k' us', ts = k :: us ∧ ts' = k' :: us' ∧ (k' = k ∨ startsSimple k' = true) := by
  cases h with
  | marked hs hSimple =>
    obtain ⟨k, us, rfl, hk⟩ := (hs.opensSimple hSimple).exists_cons
    exact ⟨_, _, k, _, rfl, rfl, .inr hk⟩
  | braced hb =>
    obtain ⟨k, us, us', rfl, rfl⟩ := hb.sameHead
    exact ⟨k, us, k, us', rfl, rfl, .inl rfl⟩
  | single _ hs =>
    obtain ⟨k, us, us', rfl, rfl⟩ := hs.sameHead
    exact ⟨k, us, k, us', rfl, rfl, .inl rfl⟩

end CToGo.Source
