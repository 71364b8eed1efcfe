import CToGo.Proofs.Grammar.Statements
import CToGo.Source.Parser.Program

/-!
# The parser decides the grammar

A stream of tokens that ends with its only end of the file is parsed exactly according to the
grammar, as far as the nesting budget allows.

* `parseTokens_decides`: what is parsed has a derivation, and what has one is parsed to that
  very tree or refused because the nesting is too deep, and for no other reason.
-/

namespace CToGo.Source

namespace Parser

/-! ## Functions -/

theorem param_sound (s : Stream) :
    Outcome param s (fun p s' => Param.Spelled s.kinds p.bare s'.kinds) fun _ => True := by
  unfold param
  rw [outcome_bind, outcome_here, outcome_bind]
  refine typeSpecifier_sound.mono fun base s₁ hBase => ?_
  obtain ⟨k, hk, h₁⟩ := hBase
  rw [outcome_bind]
  refine (declarator_sound hk).mono fun d s₂ hd => ?_
  rw [← h₁] at hd
  exact .mk hd

theorem param_complete (s : Stream) (p : Param) (us : List TokenKind)
    (h : Param.Spelled s.kinds p us) (hStop : us.head? ≠ some (.symbol .leftBracket)) :
    Outcome param s (fun p' s' => p'.bare = p ∧ s'.kinds = us) IsTooDeep := by
  unfold param
  rw [outcome_bind, outcome_here]
  cases h with
  | mk h => exact declaration_head_complete h hStop fun s₁ h₁ => ⟨rfl, h₁⟩

theorem isVoidAlone_iff {s : Stream} :
    isVoidAlone s ↔ ∃ rest, s.kinds = .keyword .kwVoid :: .symbol .rightParen :: rest := by
  unfold isVoidAlone
  rw [Bool.and_eq_true, Stream.isAt_iff (by simp), beq_iff_eq, Stream.peek?_eq_head?,
    Stream.kinds_tail]
  constructor
  · rintro ⟨h₁, h₂⟩
    have h₁ := Stream.kinds_of_head? h₁
    rw [h₁, List.tail_cons] at h₂
    exact ⟨_, by rw [h₁, Stream.kinds_of_head? h₂]⟩
  · rintro ⟨rest, h⟩
    simp [h]

theorem params_sound (s : Stream) :
    Outcome params s (fun ps s' => ∀ rest, s'.kinds = .symbol .rightParen :: rest →
      Params s.kinds (ps.map Param.bare) rest) fun _ => True := by
  unfold params
  rw [outcome_bind, outcome_isAt]
  split
  · intro rest h
    rw [h]
    exact .none rest
  · rw [outcome_bind, outcome_get]
    split
    · rename_i hVoid
      obtain ⟨rest, hs⟩ := isVoidAlone_iff.mp hVoid
      rw [outcome_bind]
      refine outcome_advance hs fun s₁ h₁ => ?_
      intro rest' h
      obtain rfl := (List.cons.inj (h₁.symm.trans h)).2
      rw [hs]
      exact .void rest
    · refine (outcome_commaSeparated Param.bare (fun _ _ _ h => h.passes) param_sound).mono
        fun ps s₁ hps rest h => ?_
      obtain ⟨p, ps', us, hEq, hp, hps'⟩ := hps
      rw [hEq]
      rw [h] at hps'
      exact .some hp hps'

theorem params_complete {s : Stream} {ps : List Param} {rest : List TokenKind}
    (h : Params s.kinds ps rest) :
    Outcome params s
      (fun ps' s' => ps'.map Param.bare = ps ∧ s'.kinds = .symbol .rightParen :: rest)
      IsTooDeep := by
  unfold params
  rw [outcome_bind, outcome_isAt]
  generalize hts : s.kinds = ts at h
  cases h with
  | none =>
    rw [if_pos ((Stream.isAt_iff (by simp)).mpr (by rw [hts]; rfl))]
    exact ⟨rfl, hts⟩
  | void =>
    rw [if_neg (by rw [Stream.isAt_iff (by simp), hts]; simp), outcome_bind, outcome_get,
      if_pos (isVoidAlone_iff.mpr ⟨rest, hts⟩), outcome_bind]
    exact outcome_advance hts fun s₁ h₁ => ⟨rfl, h₁⟩
  | @some _ us _ p ps hp hps =>
    cases hp with
    | mk h =>
      have hNot : ¬ s.isAt (.symbol .rightParen) :=
        not_isAt_of_starts (P := TokenKind.isTypeSpecifier) (hts ▸ h.opens) rfl
      have hVoid : ¬ isVoidAlone s := by
        rw [isVoidAlone_iff]
        rintro ⟨vs, hs⟩
        -- A declared name is never a parenthesis.
        rw [← hts, hs] at h
        cases h with
        | plain _ hStars => cases hStars
        | array _ hStars => cases hStars
      rw [if_neg hNot, outcome_bind, outcome_get, if_neg hVoid]
      refine outcome_commaSeparated_of_repeated
        (fun us => us.head? ≠ some (.symbol .leftBracket)) Param.bare
        (fun _ _ _ h => h.passes) ?_ param_complete (hts ▸ .mk h) hps (by simp) rfl
      intro us hComma hBracket
      rw [atComma, hBracket] at hComma
      cases hComma

/-- A function up to the parenthesis that closes its parameters. -/
def functionHead : Parser (String × List Param × Ty) := do
  let base ← typeSpecifier
  let returns ← pointers base
  let name ← identifier "function declaration"
  expectSymbol .leftParen "function declaration"
  let params ← params
  expectSymbol .rightParen "parameter list"
  return (name, params, returns)

theorem function_eq : function = (do
    let start ← here
    let head ← functionHead
    let body ← block
    return Function.mk head.1 head.2.1 head.2.2 body (← spanFrom start)) := by
  simp only [function, functionHead, bind_assoc, pure_bind]

/-- The head of a function without the spans of its parameters. -/
def bareHead (head : String × List Param × Ty) : String × List Param × Ty :=
  (head.1, head.2.1.map Param.bare, head.2.2)

theorem functionHead_sound (s : Stream) :
    Outcome functionHead s (fun head s' => ∃ k base ts us, s.kinds = k :: ts ∧ BaseType k base ∧
      Stars ts base head.2.2 (.identifier head.1 :: .symbol .leftParen :: us) ∧
      Params us (head.2.1.map Param.bare) s'.kinds) fun _ => True := by
  unfold functionHead
  rw [outcome_bind]
  refine typeSpecifier_sound.mono fun base s₁ hBase => ?_
  obtain ⟨k, hk, h₁⟩ := hBase
  rw [outcome_bind]
  refine pointers_sound.mono fun ty s₂ hty => ?_
  rw [outcome_bind]
  refine outcome_identifier (fun name s₃ h₃ => ?_) fun _ => trivial
  rw [outcome_bind]
  refine outcome_expectSymbol (fun s₄ h₄ => ?_) fun _ => trivial
  rw [outcome_bind]
  refine (params_sound s₄).mono fun ps s₅ hps => ?_
  rw [outcome_bind]
  refine outcome_expectSymbol (fun s₆ h₆ => ?_) fun _ => trivial
  rw [h₃, h₄] at hty
  exact ⟨k, base, s₁.kinds, s₄.kinds, h₁, hk, hty, hps _ h₆⟩

theorem functionHead_complete {s : Stream} {k : TokenKind} {ts us rest : List TokenKind}
    {base ty : Ty} {f : String} {ps : List Param} (hs : s.kinds = k :: ts)
    (hk : BaseType k base) (hStars : Stars ts base ty (.identifier f :: .symbol .leftParen :: us))
    (hParams : Params us ps rest) :
    Outcome functionHead s (fun head s' => bareHead head = (f, ps, ty) ∧ s'.kinds = rest)
      IsTooDeep := by
  unfold functionHead
  rw [outcome_bind]
  refine (typeSpecifier_complete hs hk).mono fun base s₁ h₁ => ?_
  obtain ⟨rfl, h₁⟩ := h₁
  rw [outcome_bind]
  refine (pointers_complete (h₁ ▸ hStars) rfl).mono fun ty s₂ h₂ => ?_
  obtain ⟨rfl, h₂⟩ := h₂
  rw [outcome_bind]
  refine outcome_identifier_of_kinds h₂ fun s₃ h₃ => ?_
  rw [outcome_bind]
  refine outcome_expectSymbol_of_kinds h₃ fun s₄ h₄ => ?_
  rw [outcome_bind]
  refine (params_complete (h₄ ▸ hParams)).mono fun ps s₅ h₅ => ?_
  obtain ⟨rfl, h₅⟩ := h₅
  rw [outcome_bind]
  exact outcome_expectSymbol_of_kinds h₅ fun s₆ h₆ => ⟨rfl, h₆⟩

theorem function_sound (s : Stream) :
    Outcome function s (fun f s' => Function.Spelled s.kinds f.bare s'.kinds)
      fun _ => True := by
  rw [function_eq, outcome_bind, outcome_here, outcome_bind]
  refine (functionHead_sound s).mono fun head s₁ hHead => ?_
  obtain ⟨k, base, ts, us, hs, hk, hStars, hParams⟩ := hHead
  rw [outcome_bind]
  refine (block_sound s₁).mono fun b s₂ hb => ?_
  rw [hs]
  exact .mk hk hStars hParams hb

theorem function_complete (s : Stream) (f : Function) (rest : List TokenKind)
    (h : Function.Spelled s.kinds f rest) :
    Outcome function s (fun f' s' => f'.bare = f ∧ s'.kinds = rest) IsTooDeep := by
  rw [function_eq, outcome_bind, outcome_here, outcome_bind]
  generalize hts : s.kinds = ts at h
  cases h with
  | mk hk hStars hps hb =>
    refine (functionHead_complete hts hk hStars hps).mono fun head s₁ hHead => ?_
    obtain ⟨hHead, h₁⟩ := hHead
    cases hHead
    rw [outcome_bind]
    refine (block_complete (h₁ ▸ hb)).mono fun b s₂ h₂ => ?_
    obtain ⟨rfl, h₂⟩ := h₂
    exact ⟨rfl, h₂⟩

/-! ## Programs -/

/-- Whether the file goes on. -/
def inFile (ts : List TokenKind) : Bool := ts.head? != none && ts.head? != some .endOfFile

theorem isAt_inFile (s : Stream) : (!s.isAt .endOfFile) = inFile s.kinds := by
  unfold Stream.isAt inFile
  rw [s.peek?_eq_head?]
  cases s.kinds.head? with
  | none => rfl
  | some k => simp [bne]

theorem not_inFile_of_nil (s : Stream) (hs : s.tokens = []) : (!s.isAt .endOfFile) = false := by
  rw [isAt_inFile, Stream.kinds, hs]
  rfl

theorem inFile_of_spelled (ts : List TokenKind) (f : Function) (us : List TokenKind)
    (h : Function.Spelled ts f us) : inFile ts := by
  obtain ⟨k, hk, hType⟩ := h.opens.head
  have hEnd : k ≠ .endOfFile := by
    rintro rfl
    cases hType
  rw [inFile, hk]
  simp [hEnd]

theorem program_sound (s : Stream) :
    Outcome program s (fun p s' => Repeated Function.Spelled s.kinds p.bare.functions s'.kinds ∧
      inFile s'.kinds = false) fun _ => True := by
  unfold program
  rw [outcome_bind, outcome_here, outcome_bind]
  exact outcome_manyWhile Function.bare isAt_inFile rfl (fun _ _ _ h => h.opens.length_lt)
    fun s _ => function_sound s

/-- Functions up to the end of the file, whatever stands behind it. -/
theorem program_complete_of_repeated {s : Stream} {fs : List Function} {rest : List TokenKind}
    (h : Repeated Function.Spelled s.kinds fs rest) (hEnd : inFile rest = false) :
    Outcome program s (fun p _ => p.bare = ⟨fs, nowhere⟩) IsTooDeep := by
  unfold program
  rw [outcome_bind, outcome_here, outcome_bind]
  refine (outcome_manyWhile_of_repeated (fun _ => True) Function.bare isAt_inFile
    (fun _ _ _ h => h.opens.length_lt) inFile_of_spelled (fun _ _ => trivial)
    (fun s f us hf _ => function_complete s f us hf) h trivial hEnd).mono fun fs s₁ hfs => ?_
  rw [outcome_bind, outcome_here, outcome_pure, Program.bare, hfs.1]

theorem program_complete {s : Stream} {p : Program} (h : Program.Spelled s.kinds p) :
    Outcome program s (fun p' _ => p'.bare = p) IsTooDeep := by
  refine (program_complete_of_repeated h.1 rfl).mono fun p' _ hBare => ?_
  rw [hBare, ← h.2]

end Parser

/-- The tokens end with the end of the file, which stands nowhere else. -/
def EndsOnce (tokens : List Token) : Prop :=
  ∃ init last, tokens = init ++ [last] ∧ last.kind = .endOfFile ∧
    ∀ t ∈ init, t.kind ≠ .endOfFile

theorem eq_singleton_of_passes {init rest : List TokenKind} (hInit : .endOfFile ∉ init)
    (h : Passes (init ++ [.endOfFile]) rest) (hEnd : Parser.inFile rest = false) :
    rest = [.endOfFile] := by
  obtain ⟨used, hUsed, hEq⟩ := h.exists_append
  cases rest with
  | nil =>
    rw [List.append_nil] at hEq
    exact absurd (by simp [← hEq]) hUsed
  | cons k rest =>
    have hk : k = .endOfFile := by simpa [Parser.inFile] using hEnd
    subst hk
    rcases List.eq_nil_or_concat rest with rfl | ⟨rest', k, rfl⟩
    · rfl
    · rw [List.concat_eq_append, ← List.cons_append, ← List.append_assoc] at hEq
      have hInit' := (List.append_inj' hEq rfl).1
      exact absurd (by simp [hInit']) hInit

theorem spelled_of_parseTokens {tokens : List Token} (hTokens : EndsOnce tokens) {p : Program}
    (h : parseTokens tokens = .ok p) : Program.Spelled (tokens.map (·.kind)) p.bare := by
  obtain ⟨init, last, rfl, hLast, hInit⟩ := hTokens
  have hSound := Parser.program_sound (.ofTokens (init ++ [last]))
  unfold Parser.Outcome at hSound
  unfold parseTokens at h
  split at h
  · rename_i p' s' hRun
    cases h
    rw [hRun] at hSound
    obtain ⟨hFunctions, hEnd⟩ := hSound
    have hPasses := passes_of_repeated (fun _ _ _ hf => hf.opens.passes) hFunctions
    have hKinds : (Parser.Stream.ofTokens (init ++ [last])).kinds =
        init.map (·.kind) ++ [.endOfFile] := by
      simp [Parser.Stream.kinds, Parser.Stream.ofTokens, hLast]
    rw [hKinds] at hPasses
    have hRest := eq_singleton_of_passes (by simpa using hInit) hPasses hEnd
    rw [hRest] at hFunctions
    exact ⟨hFunctions, rfl⟩
  · cases h

theorem parseTokens_of_spelled {tokens : List Token} {p : Program}
    (h : Program.Spelled (tokens.map (·.kind)) p) :
    (∃ p', parseTokens tokens = .ok p' ∧ p'.bare = p) ∨
      ∃ location, parseTokens tokens = .error (.tooDeep location) := by
  have hComplete := Parser.program_complete (s := .ofTokens tokens) h
  unfold Parser.Outcome at hComplete
  unfold parseTokens
  split at hComplete
  · rename_i p' s' hRun
    rw [hRun]
    exact .inl ⟨p', rfl, hComplete⟩
  · rename_i e s' hRun
    obtain ⟨location, rfl⟩ := hComplete
    rw [hRun]
    exact .inr ⟨location, rfl⟩

/-- **The parser decides the grammar.** Let the end of the file stand at the end of the tokens
and nowhere else. A program that is parsed has a derivation, up to spans. A program that has a
derivation is parsed, up to spans, unless the diagnostic is that the nesting is too deep. -/
theorem parseTokens_decides (tokens : List Token) (hTokens : EndsOnce tokens) :
    (∀ p, parseTokens tokens = .ok p → Program.Spelled (tokens.map (·.kind)) p.bare) ∧
    (∀ p, Program.Spelled (tokens.map (·.kind)) p →
      (∃ p', parseTokens tokens = .ok p' ∧ p'.bare = p) ∨
      ∃ e location, parseTokens tokens = .error e ∧
        e.toDiagnostic = .grammar "less deeply nested code" "nesting too deep" location) := by
  refine ⟨fun p h => spelled_of_parseTokens hTokens h, fun p h => ?_⟩
  rcases parseTokens_of_spelled h with hOk | ⟨location, hDeep⟩
  · exact .inl hOk
  · exact .inr ⟨_, location, hDeep, rfl⟩

/-- Tokens of the given kinds, which stand nowhere. -/
def unlocatedTokens (kinds : List TokenKind) : List Token := kinds.map fun k => ⟨k, nowhere⟩

theorem map_kind_unlocatedTokens (kinds : List TokenKind) :
    (unlocatedTokens kinds).map (·.kind) = kinds := by
  simp [unlocatedTokens, Function.comp_def]

/-- The tokens of a function in which an `else` could belong to either of two branches. -/
def danglingElse : List Token :=
  unlocatedTokens [.keyword .kwInt, .identifier "f", .symbol .leftParen, .keyword .kwVoid,
    .symbol .rightParen, .symbol .leftBrace,
    .keyword .kwIf, .symbol .leftParen, .identifier "a", .symbol .rightParen,
    .keyword .kwIf, .symbol .leftParen, .identifier "b", .symbol .rightParen,
    .keyword .kwReturn, .literal 1, .symbol .semicolon,
    .keyword .kwElse, .keyword .kwReturn, .symbol .minus, .identifier "a", .symbol .star,
    .literal 2, .symbol .semicolon,
    .symbol .rightBrace, .endOfFile]

theorem parseTokens_decides_danglingElse :
    ∃ p, parseTokens danglingElse = .ok p ∧ EndsOnce danglingElse ∧
      Program.Spelled (danglingElse.map (·.kind)) p.bare := by
  have hEnds : EndsOnce danglingElse :=
    ⟨danglingElse.dropLast, ⟨.endOfFile, nowhere⟩, rfl, rfl, by decide⟩
  obtain ⟨p, hp⟩ : ∃ p, parseTokens danglingElse = .ok p := ⟨_, rfl⟩
  exact ⟨p, hp, hEnds, (parseTokens_decides danglingElse hEnds).1 p hp⟩

end CToGo.Source
