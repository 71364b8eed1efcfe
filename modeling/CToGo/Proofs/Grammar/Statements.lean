import CToGo.Proofs.Grammar.Expressions
import CToGo.Source.Parser.Stmt

/-!
# Parsers of statements and the grammar

Soundness and completeness of the parsers of declarators, blocks and statements. As with
expressions, both are shown for any parser `inner` of nested statements that has them, and
then by induction on the depth. A statement ends with a token of its own or with the first
token that is no `else`, so completeness asks nothing of what follows.

* `statement_sound`, `statement_complete`: statements.
* `block_sound`, `block_complete`: blocks in braces.
-/

namespace CToGo.Source

namespace Parser

/-! ## Declarators -/

theorem baseType?_eq_some {k : TokenKind} {ty : Ty} : baseType? k = some ty ↔ BaseType k ty := by
  constructor
  · intro h
    unfold baseType? at h
    split at h <;> cases h <;> constructor
  · intro h
    cases h <;> rfl

theorem typeSpecifier_sound {s : Stream} :
    Outcome typeSpecifier s (fun ty s' => ∃ k, BaseType k ty ∧ s.kinds = k :: s'.kinds)
      fun _ => True := by
  unfold typeSpecifier
  rw [outcome_bind, outcome_peek?]
  split
  · rename_i ty h
    obtain ⟨k, hk, hty⟩ := Option.bind_eq_some_iff.mp h
    have hk := Stream.kinds_of_head? hk
    rw [outcome_bind]
    refine outcome_advance hk fun s₁ h₁ => ⟨k, baseType?_eq_some.mp hty, ?_⟩
    rw [hk, h₁]
  · exact trivial

theorem typeSpecifier_complete {s : Stream} {k : TokenKind} {ty : Ty} {rest : List TokenKind}
    {E : GrammarError → Prop} (hs : s.kinds = k :: rest) (hk : BaseType k ty) :
    Outcome typeSpecifier s (fun ty' s' => ty' = ty ∧ s'.kinds = rest) E := by
  unfold typeSpecifier
  rw [outcome_bind, outcome_peek?, hs, List.head?_cons, Option.bind_some,
    baseType?_eq_some.mpr hk]
  dsimp only
  rw [outcome_bind]
  exact outcome_advance hs fun s₁ h₁ => ⟨rfl, h₁⟩

/-- A single star. -/
inductive OneStar : List TokenKind → Unit → List TokenKind → Prop where
  | mk (rest : List TokenKind) : OneStar (.symbol .star :: rest) () rest

theorem stars_of_repeated {ts rest : List TokenKind} {us : List Unit}
    (h : Repeated OneStar ts us rest) (base : Ty) :
    Stars ts base (us.foldl (fun ty _ => .pointer ty) base) rest := by
  induction h generalizing base with
  | nil rest => exact .none base rest
  | cons hu _ ih =>
    cases hu
    exact .star (ih (.pointer base))

theorem exists_repeated_of_stars {ts rest : List TokenKind} {base ty : Ty}
    (h : Stars ts base ty rest) :
    ∃ us : List Unit, Repeated OneStar ts us rest ∧
      us.foldl (fun ty _ => .pointer ty) base = ty := by
  induction h with
  | none _ rest => exact ⟨[], .nil rest, rfl⟩
  | star _ ih =>
    obtain ⟨us, hus, hFold⟩ := ih
    exact ⟨() :: us, .cons (.mk _) hus, hFold⟩

/-- Whether the next token is a star. -/
def atStar (ts : List TokenKind) : Bool := ts.head? == some (.symbol .star)

theorem isAt_star (s : Stream) : s.isAt (.symbol .star) = atStar s.kinds := by
  rw [Bool.eq_iff_iff, Stream.isAt_iff (by simp)]
  simp [atStar]

theorem OneStar.length_lt (ts : List TokenKind) (u : Unit) (us : List TokenKind)
    (h : OneStar ts u us) : us.length < ts.length := by
  cases h
  exact Nat.lt_succ_self _

theorem pointers_sound {s : Stream} {base : Ty} {E : GrammarError → Prop} :
    Outcome (pointers base) s (fun ty s' => Stars s.kinds base ty s'.kinds) E := by
  unfold pointers
  rw [outcome_bind]
  refine (outcome_manyWhile id isAt_star rfl OneStar.length_lt fun s₁ h₁ => ?_).mono
    fun us s₁ hus => stars_of_repeated (by simpa using hus.1) base
  have h₁ := Stream.kinds_of_head? (by simpa [atStar] using h₁)
  refine outcome_advance h₁ fun s₂ h₂ => ?_
  rw [h₁, h₂]
  exact .mk _

theorem pointers_complete {s : Stream} {base ty : Ty} {rest : List TokenKind}
    {E : GrammarError → Prop} (h : Stars s.kinds base ty rest) (hStop : atStar rest = false) :
    Outcome (pointers base) s (fun ty' s' => ty' = ty ∧ s'.kinds = rest) E := by
  obtain ⟨us, hus, rfl⟩ := exists_repeated_of_stars h
  unfold pointers
  rw [outcome_bind]
  refine (outcome_manyWhile_of_repeated (fun _ => True) id isAt_star OneStar.length_lt
    (fun ts u us h => by cases h; rfl) (fun _ _ => trivial) ?_ hus trivial hStop).mono
      fun us' s₁ h₁ => ⟨by simpa using congrArg _ h₁.1, h₁.2⟩
  intro s₁ u us₁ hu _
  generalize hs₁ : s₁.kinds = ts at hu
  cases hu
  exact outcome_advance hs₁ fun s₂ h₂ => ⟨rfl, h₂⟩

theorem declarator_sound {s : Stream} {k : TokenKind} {base : Ty} {context : String}
    (hk : BaseType k base) :
    Outcome (declarator base context) s
      (fun d s' => Declared (k :: s.kinds) d.1 d.2 s'.kinds) fun _ => True := by
  unfold declarator
  rw [outcome_bind]
  refine pointers_sound.mono fun ty s₁ hty => ?_
  rw [outcome_bind]
  refine outcome_identifier (fun x s₂ h₂ => ?_) fun _ => trivial
  rw [h₂] at hty
  rw [outcome_bind]
  refine outcome_accept (by simp) (fun s₃ h₃ => ?_) fun _ => .plain hk hty
  rw [if_pos rfl, outcome_bind]
  refine outcome_expectSymbol (fun s₄ h₄ => ?_) fun _ => trivial
  rw [h₃, h₄] at hty
  exact .array hk hty

theorem declarator_complete {s : Stream} {base : Ty} {x context : String} {ty : Ty}
    {k : TokenKind} {rest : List TokenKind} {E : GrammarError → Prop} (hk : BaseType k base)
    (h : Declared (k :: s.kinds) x ty rest) (hStop : rest.head? ≠ some (.symbol .leftBracket)) :
    Outcome (declarator base context) s (fun d s' => d = (x, ty) ∧ s'.kinds = rest) E := by
  unfold declarator
  rw [outcome_bind]
  cases h with
  | plain hk' hStars =>
    obtain rfl : base = _ := Option.some.inj
      ((baseType?_eq_some.mpr hk).symm.trans (baseType?_eq_some.mpr hk'))
    refine (pointers_complete hStars rfl).mono fun ty' s₁ h₁ => ?_
    obtain ⟨rfl, h₁⟩ := h₁
    rw [outcome_bind]
    refine outcome_identifier_of_kinds h₁ fun s₂ h₂ => ?_
    rw [outcome_bind]
    refine outcome_accept (by simp) (fun s₃ h₃ => absurd (by rw [← h₂, h₃]; rfl) hStop) fun _ => ?_
    exact ⟨rfl, h₂⟩
  | array hk' hStars =>
    obtain rfl : base = _ := Option.some.inj
      ((baseType?_eq_some.mpr hk).symm.trans (baseType?_eq_some.mpr hk'))
    refine (pointers_complete hStars rfl).mono fun ty' s₁ h₁ => ?_
    obtain ⟨rfl, h₁⟩ := h₁
    rw [outcome_bind]
    refine outcome_identifier_of_kinds h₁ fun s₂ h₂ => ?_
    rw [outcome_bind]
    refine outcome_accept (by simp) (fun s₃ h₃ => ?_) fun h => absurd (by rw [h₂]; rfl) h
    rw [h₂, List.cons.injEq] at h₃
    rw [if_pos rfl, outcome_bind]
    exact outcome_expectSymbol_of_kinds h₃.2.symm fun s₄ h₄ => ⟨rfl, h₄⟩

/-! ## Soundness -/

/-- Whatever `p` returns is spelled by the tokens it has read. -/
def SoundStmt (p : Parser Stmt) : Prop :=
  ∀ s, Outcome p s (fun st s' => Stmt.Spelled s.kinds st.bare s'.kinds) fun _ => True

/-- Whether the next token may belong to a statement of a block. -/
def inBlock (ts : List TokenKind) : Bool :=
  ts.head? != none && ts.head? != some (.symbol .rightBrace) && ts.head? != some .endOfFile

theorem isAt_inBlock (s : Stream) :
    (!s.isAt (.symbol .rightBrace) && !s.isAt .endOfFile) = inBlock s.kinds := by
  unfold Stream.isAt inBlock
  rw [s.peek?_eq_head?]
  cases s.kinds.head? with
  | none => rfl
  | some k => simp [bne]

theorem not_inBlock_of_nil (s : Stream) (hs : s.tokens = []) :
    (!s.isAt (.symbol .rightBrace) && !s.isAt .endOfFile) = false := by
  rw [isAt_inBlock, Stream.kinds, hs]
  rfl

theorem eachSpelled_of_repeated {ts rest : List TokenKind} {ss : List Stmt}
    (h : Repeated Stmt.Spelled ts ss rest) : EachSpelled ts ss rest := by
  induction h with
  | nil rest => exact .nil rest
  | cons hs _ ih => exact .cons hs ih

theorem blockOver_sound {inner : Parser Stmt} (hInner : SoundStmt inner) (s : Stream) :
    Outcome (blockOver inner) s (fun b s' => Block.Spelled s.kinds b.bare s'.kinds)
      fun _ => True := by
  unfold blockOver
  rw [outcome_bind, outcome_here, outcome_bind]
  refine outcome_refunding ?_
  rw [outcome_bind]
  refine outcome_spend trivial fun s₁ h₁ => ?_
  rw [outcome_bind]
  refine outcome_expectSymbol (fun s₂ h₂ => ?_) fun _ => trivial
  rw [outcome_bind]
  refine (outcome_manyWhile Stmt.bare isAt_inBlock rfl (fun _ _ _ h => h.opens.length_lt)
    fun s _ => hInner s).mono fun ss s₃ hss => ?_
  rw [outcome_bind]
  refine outcome_expectSymbol (fun s₄ h₄ => ?_) fun _ => trivial
  rw [outcome_pure]
  intro s₅ h₅
  have hEach := eachSpelled_of_repeated hss.1
  rw [h₄, ← bareAll_eq_map] at hEach
  rw [outcome_bind, outcome_spanFrom, outcome_pure, h₅, ← h₁, h₂]
  exact .mk hEach

theorem bodyOver_sound {inner : Parser Stmt} (hInner : SoundStmt inner) (s : Stream) :
    Outcome (bodyOver inner) s (fun b s' => Body.Spelled s.kinds b.bare s'.kinds)
      fun _ => True := by
  unfold bodyOver
  rw [outcome_bind, outcome_isAt]
  split
  · exact (blockOver_sound hInner s).mono fun b s' hb => .braced hb
  · rename_i hNot
    rw [Stream.isAt_iff (by simp)] at hNot
    rw [outcome_bind]
    refine outcome_spend trivial fun s₁ h₁ => ?_
    rw [outcome_bind]
    refine (hInner s₁).mono fun st s₂ hst => ?_
    exact .single hNot (h₁ ▸ hst)

theorem condition_sound {construct : String} (s : Stream) :
    Outcome (condition construct) s (fun e s' => Condition s.kinds e.bare s'.kinds)
      fun _ => True := by
  unfold condition
  rw [outcome_bind]
  refine outcome_expectSymbol (fun s₁ h₁ => ?_) fun _ => trivial
  rw [outcome_bind]
  refine outcome_refunding ((expression_sound s₁).mono fun e s₂ he s₃ h₃ => ?_)
  rw [outcome_bind]
  refine outcome_expectSymbol (fun s₄ h₄ => ?_) fun _ => trivial
  rw [← h₃, h₄] at he
  rw [outcome_pure, h₁]
  exact .mk he

theorem elseOver_sound {inner : Parser Stmt} (hInner : SoundStmt inner) (s : Stream) :
    Outcome (elseOver inner) s (fun alt s' => Else.Spelled s.kinds alt.bare s'.kinds)
      fun _ => True := by
  unfold elseOver
  rw [outcome_bind]
  refine outcome_accept (by simp) (fun s₁ h₁ => ?_) fun hNot => .none hNot
  rw [if_pos rfl, outcome_bind, outcome_isAt]
  split
  · rename_i hIf
    rw [Stream.isAt_iff (by simp)] at hIf
    rw [outcome_bind]
    refine outcome_spend trivial fun s₂ h₂ => ?_
    rw [outcome_bind]
    refine (hInner s₂).mono fun st s₃ hst => ?_
    rw [h₂] at hst
    rw [outcome_pure, h₁]
    exact .chain hIf hst
  · rename_i hIf
    rw [Stream.isAt_iff (by simp)] at hIf
    rw [outcome_bind]
    refine (bodyOver_sound hInner s₁).mono fun b s₂ hb => ?_
    rw [outcome_pure, h₁]
    exact .block hIf hb

/-- The statement that a form makes of a span is spelled by the tokens `ts` before `rest`. -/
def FormSpelled (ts : List TokenKind) (form : Span → Stmt) (rest : List TokenKind) : Prop :=
  ∀ span, Stmt.Spelled ts (form span).bare rest

theorem branchOver_sound {inner : Parser Stmt} (hInner : SoundStmt inner) (s : Stream) :
    Outcome (branchOver inner) s
      (fun form s' => FormSpelled (.keyword .kwIf :: s.kinds) form s'.kinds) fun _ => True := by
  unfold branchOver
  rw [outcome_bind]
  refine (condition_sound s).mono fun e s₁ he => ?_
  rw [outcome_bind]
  refine (bodyOver_sound hInner s₁).mono fun b s₂ hb => ?_
  rw [outcome_bind]
  refine (elseOver_sound hInner s₂).mono fun alt s₃ halt => ?_
  exact fun _ => .branch he hb halt

theorem loopOver_sound {inner : Parser Stmt} (hInner : SoundStmt inner) (s : Stream) :
    Outcome (loopOver inner) s
      (fun form s' => FormSpelled (.keyword .kwWhile :: s.kinds) form s'.kinds)
      fun _ => True := by
  unfold loopOver
  rw [outcome_bind]
  refine (condition_sound s).mono fun e s₁ he => ?_
  rw [outcome_bind]
  refine (bodyOver_sound hInner s₁).mono fun b s₂ hb => ?_
  exact fun _ => .loop he hb

theorem leave_sound (s : Stream) :
    Outcome leave s
      (fun form s' => FormSpelled (.keyword .kwReturn :: s.kinds) form s'.kinds)
      fun _ => True := by
  unfold leave
  rw [outcome_bind, outcome_isAt]
  split
  · rw [outcome_bind, outcome_pure, outcome_bind]
    refine outcome_expectSymbol (fun s₁ h₁ => ?_) fun _ => trivial
    rw [outcome_pure, h₁]
    exact fun _ => .leave _
  · rw [outcome_bind, outcome_map]
    refine (expression_sound s).mono fun e s₁ he => ?_
    rw [outcome_bind]
    refine outcome_expectSymbol (fun s₂ h₂ => ?_) fun _ => trivial
    rw [h₂] at he
    exact fun _ => .leaveWith he

theorem declaration_sound (s : Stream) :
    Outcome declaration s (fun form s' => FormSpelled s.kinds form s'.kinds)
      fun _ => True := by
  unfold declaration
  rw [outcome_bind]
  refine typeSpecifier_sound.mono fun base s₁ hBase => ?_
  obtain ⟨k, hk, h₁⟩ := hBase
  rw [outcome_bind]
  refine (declarator_sound hk).mono fun d s₂ hd => ?_
  obtain ⟨x, ty⟩ := d
  rw [← h₁] at hd
  dsimp only
  rw [outcome_bind]
  refine outcome_accept (by simp) (fun s₃ h₃ => ?_) fun _ => ?_
  · rw [if_pos rfl, outcome_bind, outcome_map]
    refine (expression_sound s₃).mono fun e s₄ he => ?_
    rw [outcome_bind]
    refine outcome_expectSymbol (fun s₅ h₅ => ?_) fun _ => trivial
    rw [h₃] at hd
    rw [h₅] at he
    exact fun _ => .define hd he
  · rw [if_neg (by simp), outcome_bind, outcome_pure, outcome_bind]
    refine outcome_expectSymbol (fun s₃ h₃ => ?_) fun _ => trivial
    rw [h₃] at hd
    exact fun _ => .declare hd

theorem evaluation_sound (s : Stream) :
    Outcome evaluation s (fun form s' => FormSpelled s.kinds form s'.kinds)
      fun _ => True := by
  unfold evaluation
  rw [outcome_bind]
  refine (expression_sound s).mono fun e s₁ he => ?_
  rw [outcome_bind]
  refine outcome_expectSymbol (fun s₂ h₂ => ?_) fun _ => trivial
  rw [h₂] at he
  exact fun _ => .eval he

theorem formOver_sound {inner : Parser Stmt} (hInner : SoundStmt inner) (s : Stream) :
    Outcome (formOver inner) s (fun form s' => FormSpelled s.kinds form s'.kinds)
      fun _ => True := by
  unfold formOver
  rw [outcome_bind, outcome_peek?]
  split
  · rw [outcome_bind]
    exact (blockOver_sound hInner s).mono fun b s' hb _ => .block hb
  · rename_i hs
    have hs := Stream.kinds_of_head? hs
    rw [outcome_bind]
    refine outcome_advance hs fun s₁ h₁ => ?_
    rw [hs, ← h₁]
    exact branchOver_sound hInner s₁
  · rename_i hs
    have hs := Stream.kinds_of_head? hs
    rw [outcome_bind]
    refine outcome_advance hs fun s₁ h₁ => ?_
    rw [hs, ← h₁]
    exact loopOver_sound hInner s₁
  · rename_i hs
    have hs := Stream.kinds_of_head? hs
    rw [outcome_bind]
    refine outcome_advance hs fun s₁ h₁ => ?_
    rw [hs, ← h₁]
    exact leave_sound s₁
  · split
    · exact declaration_sound s
    · exact evaluation_sound s
  · exact evaluation_sound s

theorem statementOver_sound {inner : Parser Stmt} (hInner : SoundStmt inner) :
    SoundStmt (statementOver inner) := by
  intro s
  unfold statementOver
  rw [outcome_bind, outcome_here, outcome_bind]
  refine outcome_refunding ((formOver_sound hInner s).mono fun form s₁ hForm s₂ h₂ => ?_)
  rw [outcome_bind, outcome_spanFrom, outcome_pure, h₂]
  exact hForm _

theorem statementWithin_sound (n : Nat) : SoundStmt (statementWithin n) := by
  induction n with
  | zero =>
    intro s
    exact trivial
  | succ n ih => exact statementOver_sound ih

theorem statement_sound : SoundStmt statement :=
  fun s => statementWithin_sound (s.budget + 1) s

/-- Whatever `block` returns is spelled by the tokens it has read. -/
theorem block_sound (s : Stream) :
    Outcome block s (fun b s' => Block.Spelled s.kinds b.bare s'.kinds) fun _ => True :=
  blockOver_sound statement_sound s

/-! ## Completeness -/

/-- If the stream begins with a statement, then `p` returns it, unless the nesting is too
deep. -/
def CompleteStmt (p : Parser Stmt) : Prop :=
  ∀ s st rest, Stmt.Spelled s.kinds st rest →
    Outcome p s (fun st' s' => st'.bare = st ∧ s'.kinds = rest) IsTooDeep

theorem expression_complete_before {m : Symbol} (hm : m ∈ [.rightParen, .comma, .semicolon])
    {s : Stream} {e : Expr} {rest : List TokenKind}
    (h : Expr.Spelled .assignment s.kinds e (.symbol m :: rest)) :
    Outcome expression s (fun e' s' => e'.bare = e ∧ s'.kinds = .symbol m :: rest) IsTooDeep :=
  expression_complete s e _ h (Level.ends_assignment hm rest)

theorem repeated_of_eachSpelled {ts rest : List TokenKind} {ss : List Stmt}
    (h : EachSpelled ts ss rest) : Repeated Stmt.Spelled ts ss rest := by
  induction ss generalizing ts with
  | nil =>
    cases h
    exact .nil _
  | cons st ss ih =>
    cases h with
    | cons hst hss => exact .cons hst (ih hss)

theorem inBlock_of_spelled (ts : List TokenKind) (st : Stmt) (us : List TokenKind)
    (h : Stmt.Spelled ts st us) : inBlock ts := by
  obtain ⟨k, hk, hStart⟩ := h.opens.head
  unfold inBlock
  rw [hk]
  have hBrace : k ≠ .symbol .rightBrace := by
    rintro rfl
    cases hStart
  have hEnd : k ≠ .endOfFile := by
    rintro rfl
    cases hStart
  simp [hBrace, hEnd]

theorem blockOver_complete {inner : Parser Stmt} (hInner : CompleteStmt inner) {s : Stream}
    {b : Block} {rest : List TokenKind} (h : Block.Spelled s.kinds b rest) :
    Outcome (blockOver inner) s (fun b' s' => b'.bare = b ∧ s'.kinds = rest) IsTooDeep := by
  unfold blockOver
  rw [outcome_bind, outcome_here, outcome_bind]
  refine outcome_refunding ?_
  generalize hts : s.kinds = ts at h
  cases h with
  | mk hEach =>
    rw [outcome_bind]
    refine outcome_spend ⟨_, rfl⟩ fun s₁ h₁ => ?_
    rw [outcome_bind]
    refine outcome_expectSymbol_of_kinds (h₁.trans hts) fun s₂ h₂ => ?_
    rw [outcome_bind]
    refine (outcome_manyWhile_of_repeated (fun _ => True) Stmt.bare isAt_inBlock
      (fun _ _ _ h => h.opens.length_lt) inBlock_of_spelled (fun _ _ => trivial)
      (fun s st us hst _ => hInner s st us hst) (h₂ ▸ repeated_of_eachSpelled hEach) trivial
      rfl).mono fun ss s₃ hss => ?_
    rw [outcome_bind]
    refine outcome_expectSymbol_of_kinds hss.2 fun s₄ h₄ => ?_
    rw [outcome_pure]
    intro s₅ h₅
    rw [outcome_bind, outcome_spanFrom, outcome_pure, Block.bare, bareAll_eq_map, hss.1]
    exact ⟨rfl, h₅.trans h₄⟩

theorem bodyOver_complete {inner : Parser Stmt} (hInner : CompleteStmt inner) {s : Stream}
    {b : Block} {rest : List TokenKind} (h : Body.Spelled s.kinds b rest) :
    Outcome (bodyOver inner) s (fun b' s' => b'.bare = b ∧ s'.kinds = rest) IsTooDeep := by
  unfold bodyOver
  rw [outcome_bind, outcome_isAt]
  cases h with
  | braced h =>
    have hAt : s.isAt (.symbol .leftBrace) := by
      rw [Stream.isAt_iff (by simp)]
      generalize s.kinds = ts at h
      cases h
      rfl
    rw [if_pos hAt]
    exact blockOver_complete hInner h
  | @single _ _ st hNot h =>
    rw [if_neg (mt (Stream.isAt_iff (by simp)).mp hNot), outcome_bind]
    refine outcome_spend ⟨_, rfl⟩ fun s₁ h₁ => ?_
    rw [outcome_bind]
    refine (hInner s₁ st rest (h₁ ▸ h)).mono fun st' s₂ hst => ?_
    rw [outcome_pure, Block.bare, bareAll_eq_map, List.map_singleton, hst.1]
    exact ⟨rfl, hst.2⟩

theorem condition_complete {construct : String} {s : Stream} {e : Expr} {rest : List TokenKind}
    (h : Condition s.kinds e rest) :
    Outcome (condition construct) s (fun e' s' => e'.bare = e ∧ s'.kinds = rest) IsTooDeep := by
  unfold condition
  generalize hts : s.kinds = ts at h
  cases h with
  | mk h =>
    rw [outcome_bind]
    refine outcome_expectSymbol_of_kinds hts fun s₁ h₁ => ?_
    rw [outcome_bind]
    refine outcome_refunding ((expression_complete_before (by simp) (h₁ ▸ h)).mono
      fun e' s₂ he s₃ h₃ => ?_)
    rw [outcome_bind]
    exact outcome_expectSymbol_of_kinds (h₃.trans he.2) fun s₄ h₄ => ⟨he.1, h₄⟩

theorem elseOver_complete {inner : Parser Stmt} (hInner : CompleteStmt inner) {s : Stream}
    {alt : Else} {rest : List TokenKind} (h : Else.Spelled s.kinds alt rest) :
    Outcome (elseOver inner) s (fun alt' s' => alt'.bare = alt ∧ s'.kinds = rest)
      IsTooDeep := by
  unfold elseOver
  rw [outcome_bind]
  generalize hts : s.kinds = ts at h
  refine outcome_accept (by simp) (fun s₁ h₁ => ?_) fun hNot => ?_
  · rw [if_pos rfl, outcome_bind, outcome_isAt]
    rw [hts] at h₁
    cases h with
    | none hNot =>
      rw [h₁] at hNot
      exact absurd rfl hNot
    | block hIf hb =>
      obtain rfl := (List.cons.inj h₁).2
      rw [if_neg (mt (Stream.isAt_iff (by simp)).mp hIf), outcome_bind]
      refine (bodyOver_complete hInner hb).mono fun b' s₂ hb' => ?_
      rw [outcome_pure, Else.bare, hb'.1]
      exact ⟨rfl, hb'.2⟩
    | @chain _ _ st hIf hst =>
      obtain rfl := (List.cons.inj h₁).2
      rw [if_pos ((Stream.isAt_iff (by simp)).mpr hIf), outcome_bind]
      refine outcome_spend ⟨_, rfl⟩ fun s₂ h₂ => ?_
      rw [outcome_bind]
      refine (hInner s₂ st rest (h₂ ▸ hst)).mono fun st' s₃ hst' => ?_
      rw [outcome_pure, Else.bare, hst'.1]
      exact ⟨rfl, hst'.2⟩
  · rw [if_neg (by simp), outcome_pure]
    rw [hts] at hNot
    cases h with
    | none _ => exact ⟨rfl, hts⟩
    | block _ _ => exact absurd rfl hNot
    | chain _ _ => exact absurd rfl hNot

/-- The form makes the statement `st` of every span. -/
def FormOf (form : Span → Stmt) (st : Stmt) : Prop := ∀ span, (form span).bare = st

theorem branchOver_complete {inner : Parser Stmt} (hInner : CompleteStmt inner) {s : Stream}
    {e : Expr} {b : Block} {alt : Else} {us vs rest : List TokenKind}
    (he : Condition s.kinds e us) (hb : Body.Spelled us b vs) (halt : Else.Spelled vs alt rest) :
    Outcome (branchOver inner) s
      (fun form s' => FormOf form (.branch e b alt nowhere) ∧ s'.kinds = rest) IsTooDeep := by
  unfold branchOver
  rw [outcome_bind]
  refine (condition_complete he).mono fun e' s₁ he' => ?_
  obtain ⟨rfl, h₁⟩ := he'
  rw [outcome_bind]
  refine (bodyOver_complete hInner (h₁ ▸ hb)).mono fun b' s₂ hb' => ?_
  obtain ⟨rfl, h₂⟩ := hb'
  rw [outcome_bind]
  refine (elseOver_complete hInner (h₂ ▸ halt)).mono fun alt' s₃ halt' => ?_
  obtain ⟨rfl, h₃⟩ := halt'
  exact ⟨fun _ => rfl, h₃⟩

theorem loopOver_complete {inner : Parser Stmt} (hInner : CompleteStmt inner) {s : Stream}
    {e : Expr} {b : Block} {us rest : List TokenKind} (he : Condition s.kinds e us)
    (hb : Body.Spelled us b rest) :
    Outcome (loopOver inner) s
      (fun form s' => FormOf form (.loop e b nowhere) ∧ s'.kinds = rest) IsTooDeep := by
  unfold loopOver
  rw [outcome_bind]
  refine (condition_complete he).mono fun e' s₁ he' => ?_
  obtain ⟨rfl, h₁⟩ := he'
  rw [outcome_bind]
  refine (bodyOver_complete hInner (h₁ ▸ hb)).mono fun b' s₂ hb' => ?_
  obtain ⟨rfl, h₂⟩ := hb'
  exact ⟨fun _ => rfl, h₂⟩

theorem not_isAt_of_starts {P : TokenKind → Bool} {s : Stream} {rest : List TokenKind}
    (h : Opens P s.kinds rest) {m : Symbol} (hm : P (.symbol m) = false) :
    ¬ s.isAt (.symbol m) := by
  rw [Stream.isAt_iff (by simp)]
  obtain ⟨k, hk, hP⟩ := h.head
  rw [hk, Option.some.injEq]
  rintro rfl
  rw [hm] at hP
  cases hP

theorem leave_complete {s : Stream} {rest : List TokenKind}
    (hs : s.kinds = .symbol .semicolon :: rest) :
    Outcome leave s (fun form s' => FormOf form (.leave none nowhere) ∧ s'.kinds = rest)
      IsTooDeep := by
  have hAt : s.isAt (.symbol .semicolon) := by
    rw [Stream.isAt_iff (by simp), hs]
    rfl
  unfold leave
  rw [outcome_bind, outcome_isAt, if_pos hAt, outcome_bind, outcome_pure, outcome_bind]
  exact outcome_expectSymbol_of_kinds hs fun s₁ h₁ => ⟨fun _ => rfl, h₁⟩

theorem leaveWith_complete {s : Stream} {e : Expr} {rest : List TokenKind}
    (h : Expr.Spelled .assignment s.kinds e (.symbol .semicolon :: rest)) :
    Outcome leave s (fun form s' => FormOf form (.leave (some e) nowhere) ∧ s'.kinds = rest)
      IsTooDeep := by
  unfold leave
  rw [outcome_bind, outcome_isAt, if_neg (not_isAt_of_starts h.opens rfl), outcome_bind,
    outcome_map]
  refine (expression_complete_before (by simp) h).mono fun e' s₁ he => ?_
  obtain ⟨rfl, h₁⟩ := he
  rw [outcome_bind]
  exact outcome_expectSymbol_of_kinds h₁ fun s₂ h₂ => ⟨fun _ => rfl, h₂⟩

/-- The type and the declarator of a declaration, and then the parser `f`. -/
theorem declaration_head_complete {α : Type} {s : Stream} {x context : String} {ty : Ty}
    {us : List TokenKind} {f : String × Ty → Parser α} {Q : α → Stream → Prop}
    {E : GrammarError → Prop} (h : Declared s.kinds x ty us)
    (hStop : us.head? ≠ some (.symbol .leftBracket))
    (hf : ∀ s', s'.kinds = us → Outcome (f (x, ty)) s' Q E) :
    Outcome (typeSpecifier >>= fun base => declarator base context >>= f) s Q E := by
  obtain ⟨k, base, ts, hk, hs⟩ : ∃ k base ts, BaseType k base ∧ s.kinds = k :: ts := by
    generalize s.kinds = ts at h
    cases h with
    | plain hk _ => exact ⟨_, _, _, hk, rfl⟩
    | array hk _ => exact ⟨_, _, _, hk, rfl⟩
  rw [outcome_bind]
  refine (typeSpecifier_complete hs hk).mono fun base' s₁ h₁ => ?_
  obtain ⟨rfl, h₁⟩ := h₁
  rw [outcome_bind]
  refine (declarator_complete hk (by rw [h₁, ← hs]; exact h) hStop).mono fun d s₂ hd => ?_
  obtain ⟨rfl, h₂⟩ := hd
  exact hf s₂ h₂

theorem declare_complete {s : Stream} {x : String} {ty : Ty} {rest : List TokenKind}
    (h : Declared s.kinds x ty (.symbol .semicolon :: rest)) :
    Outcome declaration s
      (fun form s' => FormOf form (.declare x ty none nowhere) ∧ s'.kinds = rest)
      IsTooDeep := by
  unfold declaration
  refine declaration_head_complete h (by simp) fun s₁ h₁ => ?_
  dsimp only
  rw [outcome_bind]
  refine outcome_accept (by simp) (fun s₂ h₂ => ?_) fun _ => ?_
  · rw [h₁] at h₂
    cases h₂
  · rw [if_neg (by simp), outcome_bind, outcome_pure, outcome_bind]
    exact outcome_expectSymbol_of_kinds h₁ fun s₂ h₂ => ⟨fun _ => rfl, h₂⟩

theorem define_complete {s : Stream} {x : String} {ty : Ty} {e : Expr}
    {us rest : List TokenKind} (h : Declared s.kinds x ty (.symbol .equal :: us))
    (he : Expr.Spelled .assignment us e (.symbol .semicolon :: rest)) :
    Outcome declaration s
      (fun form s' => FormOf form (.declare x ty (some e) nowhere) ∧ s'.kinds = rest)
      IsTooDeep := by
  unfold declaration
  refine declaration_head_complete h (by simp) fun s₁ h₁ => ?_
  dsimp only
  rw [outcome_bind]
  refine outcome_accept (by simp) (fun s₂ h₂ => ?_) fun hNot => absurd (by rw [h₁]; rfl) hNot
  rw [h₁] at h₂
  obtain rfl := (List.cons.inj h₂).2
  rw [if_pos rfl, outcome_bind, outcome_map]
  refine (expression_complete_before (by simp) he).mono fun e' s₃ he' => ?_
  obtain ⟨rfl, h₃⟩ := he'
  rw [outcome_bind]
  exact outcome_expectSymbol_of_kinds h₃ fun s₄ h₄ => ⟨fun _ => rfl, h₄⟩

theorem evaluation_complete {s : Stream} {e : Expr} {rest : List TokenKind}
    (h : Expr.Spelled .assignment s.kinds e (.symbol .semicolon :: rest)) :
    Outcome evaluation s (fun form s' => FormOf form (.eval e nowhere) ∧ s'.kinds = rest)
      IsTooDeep := by
  unfold evaluation
  rw [outcome_bind]
  refine (expression_complete_before (by simp) h).mono fun e' s₁ he => ?_
  obtain ⟨rfl, h₁⟩ := he
  rw [outcome_bind]
  exact outcome_expectSymbol_of_kinds h₁ fun s₂ h₂ => ⟨fun _ => rfl, h₂⟩

/-- A statement of no other form begins with a type if it is a declaration, and is evaluated
if not. -/
theorem outcome_formOver_else {inner : Parser Stmt} {s : Stream} {k : TokenKind}
    {Q : (Span → Stmt) → Stream → Prop} {E : GrammarError → Prop} (hs : s.kinds.head? = some k)
    (hk : k.isTypeSpecifier ∨ startsExpr k)
    (h : Outcome (if k.isTypeSpecifier then declaration else evaluation) s Q E) :
    Outcome (formOver inner) s Q E := by
  unfold formOver
  rw [outcome_bind, outcome_peek?, hs]
  split
  · rename_i hEq
    cases hEq
    rcases hk with hk | hk <;> cases hk
  · rename_i hEq
    cases hEq
    rcases hk with hk | hk <;> cases hk
  · rename_i hEq
    cases hEq
    rcases hk with hk | hk <;> cases hk
  · rename_i hEq
    cases hEq
    rcases hk with hk | hk <;> cases hk
  · rename_i hEq
    cases hEq
    exact h
  · rename_i hEq
    cases hEq

theorem not_isTypeSpecifier_of_startsExpr {k : TokenKind} (h : startsExpr k) :
    ¬ k.isTypeSpecifier := by
  intro hk
  cases k with
  | keyword _ => cases h
  | _ => cases hk

theorem formOver_complete {inner : Parser Stmt} (hInner : CompleteStmt inner) {s : Stream}
    {st : Stmt} {rest : List TokenKind} (h : Stmt.Spelled s.kinds st rest) :
    Outcome (formOver inner) s (fun form s' => FormOf form st ∧ s'.kinds = rest)
      IsTooDeep := by
  generalize hts : s.kinds = ts at h
  cases h with
  | declare h =>
    obtain ⟨k, hk, hType⟩ := h.opens.head
    refine outcome_formOver_else (hts ▸ hk) (.inl hType) ?_
    rw [if_pos hType]
    exact declare_complete (hts ▸ h)
  | define h he =>
    obtain ⟨k, hk, hType⟩ := h.opens.head
    refine outcome_formOver_else (hts ▸ hk) (.inl hType) ?_
    rw [if_pos hType]
    exact define_complete (hts ▸ h) he
  | eval h =>
    obtain ⟨k, hk, hStart⟩ := h.opens.head
    refine outcome_formOver_else (hts ▸ hk) (.inr hStart) ?_
    rw [if_neg (not_isTypeSpecifier_of_startsExpr hStart)]
    exact evaluation_complete (hts ▸ h)
  | branch he hb halt =>
    unfold formOver
    rw [outcome_bind, outcome_peek?, hts, List.head?_cons]
    dsimp only
    rw [outcome_bind]
    exact outcome_advance hts fun s₁ h₁ => branchOver_complete hInner (h₁ ▸ he) hb halt
  | loop he hb =>
    unfold formOver
    rw [outcome_bind, outcome_peek?, hts, List.head?_cons]
    dsimp only
    rw [outcome_bind]
    exact outcome_advance hts fun s₁ h₁ => loopOver_complete hInner (h₁ ▸ he) hb
  | leave =>
    unfold formOver
    rw [outcome_bind, outcome_peek?, hts, List.head?_cons]
    dsimp only
    rw [outcome_bind]
    exact outcome_advance hts fun s₁ h₁ => leave_complete h₁
  | leaveWith h =>
    unfold formOver
    rw [outcome_bind, outcome_peek?, hts, List.head?_cons]
    dsimp only
    rw [outcome_bind]
    exact outcome_advance hts fun s₁ h₁ => leaveWith_complete (h₁ ▸ h)
  | block h =>
    have hAt : s.kinds.head? = some (.symbol .leftBrace) := by
      rw [hts]
      cases h
      rfl
    unfold formOver
    rw [outcome_bind, outcome_peek?, hAt]
    dsimp only
    rw [outcome_bind]
    refine (blockOver_complete hInner (hts ▸ h)).mono fun b' s₁ hb => ?_
    obtain ⟨rfl, h₁⟩ := hb
    exact ⟨fun _ => rfl, h₁⟩

theorem statementOver_complete {inner : Parser Stmt} (hInner : CompleteStmt inner) :
    CompleteStmt (statementOver inner) := by
  intro s st rest h
  unfold statementOver
  rw [outcome_bind, outcome_here, outcome_bind]
  refine outcome_refunding ((formOver_complete hInner h).mono fun form s₁ hForm s₂ h₂ => ?_)
  exact ⟨hForm.1 _, h₂.trans hForm.2⟩

theorem statementWithin_complete (n : Nat) : CompleteStmt (statementWithin n) := by
  induction n with
  | zero =>
    intro s st rest _
    exact ⟨_, rfl⟩
  | succ n ih => exact statementOver_complete ih

theorem statement_complete : CompleteStmt statement :=
  fun s => statementWithin_complete (s.budget + 1) s

/-- If the stream begins with a block, then `block` returns it, unless the nesting is too
deep. -/
theorem block_complete {s : Stream} {b : Block} {rest : List TokenKind}
    (h : Block.Spelled s.kinds b rest) :
    Outcome block s (fun b' s' => b'.bare = b ∧ s'.kinds = rest) IsTooDeep :=
  blockOver_complete statement_complete h

end Parser

end CToGo.Source
