import CToGo.Proofs.Grammar.Programs
import CToGo.Proofs.Scanning.Tokens

/-!
# The vocabulary of parsed programs

The literals and names of a parsed expression are those of its tokens, and the scanner
produces only some literals and names.

* `Expr.vocabulary`: the literals and names of an expression, as tokens.
* `Expr.Spelled.vocabulary_subset`, `Stmt.Spelled.vocabulary_subset`: they are among the
  tokens.
* `scanned_of_parse`: in a parsed program literals are not negative, and names are words.
-/

namespace CToGo.Source

/-! ## Expressions -/

mutual

/-- The literals and names of an expression. -/
def Expr.vocabulary : Expr → List TokenKind
  | .literal value _ => [.literal value]
  | .ident x _ => [.identifier x]
  | .binary _ left right _ => left.vocabulary ++ right.vocabulary
  | .unary _ operand _ _ => operand.vocabulary
  | .call callee args _ => .identifier callee :: vocabularyOfEach args
  | .assign _ target value _ => .identifier target :: value.vocabulary

def vocabularyOfEach : List Expr → List TokenKind
  | [] => []
  | e :: rest => e.vocabulary ++ vocabularyOfEach rest

end

mutual

@[simp] theorem Expr.vocabulary_bare : (e : Expr) → e.bare.vocabulary = e.vocabulary
  | .literal .. => rfl
  | .ident .. => rfl
  | .binary _ a b _ => by simp [Expr.bare, Expr.vocabulary, a.vocabulary_bare, b.vocabulary_bare]
  | .unary _ e _ _ => by simp [Expr.bare, Expr.vocabulary, e.vocabulary_bare]
  | .call _ args _ => by simp [Expr.bare, Expr.vocabulary, vocabularyOfEach_bareEach args]
  | .assign _ _ e _ => by simp [Expr.bare, Expr.vocabulary, e.vocabulary_bare]

theorem vocabularyOfEach_bareEach : (es : List Expr) →
    vocabularyOfEach (bareEach es) = vocabularyOfEach es
  | [] => rfl
  | e :: es => by
    simp [bareEach, vocabularyOfEach, e.vocabulary_bare, vocabularyOfEach_bareEach es]

end

theorem Passes.subset {ts rest : List TokenKind} (h : Passes ts rest) : rest ⊆ ts := by
  obtain ⟨used, -, rfl⟩ := h.exists_append
  exact List.subset_append_right used rest

theorem Names.mem {ts rest : List TokenKind} {x : String} (h : Names ts x rest) :
    .identifier x ∈ ts := by
  induction h with
  | bare x rest => exact List.mem_cons_self
  | parenthesized _ ih => exact List.mem_cons_of_mem _ ih

/-- What is read behind some tokens and a mark is among the tokens. -/
theorem subset_of_passes {vs ts us : List TokenKind} {k : TokenKind} (h : vs ⊆ us)
    (hPasses : Passes ts (k :: us)) : vs ⊆ ts := fun _ hv =>
  hPasses.subset (List.mem_cons_of_mem _ (h hv))

mutual

theorem Expr.Spelled.vocabulary_subset {l : Level} {ts rest : List TokenKind} {e : Expr} :
    Expr.Spelled l ts e rest → e.vocabulary ⊆ ts
  | .literal value rest => by simp [Expr.vocabulary]
  | .ident x rest => by simp [Expr.vocabulary]
  | .parenthesized h => List.subset_cons_of_subset _ h.vocabulary_subset
  | .call hf hargs => by
    rw [Expr.vocabulary, List.cons_subset]
    exact ⟨hf.mem, subset_of_passes hargs.vocabulary_subset hf.opens.passes⟩
  | .trailing _ hx => by simpa [Expr.vocabulary] using hx.mem
  | .negate h => List.subset_cons_of_subset _ h.vocabulary_subset
  | .leading _ hx => by simp [Expr.vocabulary, hx.mem]
  | .binary _ _ ha hb => by
    rw [Expr.vocabulary, List.append_subset]
    exact ⟨ha.vocabulary_subset, subset_of_passes hb.vocabulary_subset ha.opens.passes⟩
  | .assign hx he => by
    rw [Expr.vocabulary, List.cons_subset]
    exact ⟨hx.mem, subset_of_passes he.vocabulary_subset hx.opens.passes⟩
  | .tighter _ h => h.vocabulary_subset

theorem Arguments.vocabulary_subset {ts rest : List TokenKind} {es : List Expr} :
    Arguments ts es rest → vocabularyOfEach es ⊆ ts
  | .none _ => List.nil_subset _
  | .some h hs => by
    rw [vocabularyOfEach, List.append_subset]
    exact ⟨h.vocabulary_subset, List.Subset.trans hs.vocabulary_subset h.opens.passes.subset⟩

theorem MoreArguments.vocabulary_subset {ts rest : List TokenKind} {es : List Expr} :
    MoreArguments ts es rest → vocabularyOfEach es ⊆ ts
  | .done _ => List.nil_subset _
  | .comma h hs => by
    rw [vocabularyOfEach, List.append_subset]
    have hs := List.Subset.trans hs.vocabulary_subset h.opens.passes.subset
    exact ⟨List.subset_cons_of_subset _ h.vocabulary_subset, List.subset_cons_of_subset _ hs⟩

end

/-! ## Statements -/

/-- The literals and names of a statement, not counting nested statements. -/
def Stmt.vocabulary : Stmt → List TokenKind
  | .declare x _ init _ => .identifier x :: init.elim [] Expr.vocabulary
  | .eval e _ => e.vocabulary
  | .branch condition _ _ _ => condition.vocabulary
  | .loop condition _ _ => condition.vocabulary
  | .leave value _ => value.elim [] Expr.vocabulary
  | .block _ _ => []

@[simp] theorem Stmt.vocabulary_bare (s : Stmt) : s.bare.vocabulary = s.vocabulary := by
  cases s with
  | declare x ty init span => cases init <;> simp [bare, vocabulary]
  | leave value span => cases value <;> simp [bare, vocabulary]
  | _ => simp [bare, vocabulary]

mutual

theorem Stmt.walk_bare : (s : Stmt) → s.bare.walk = s.walk.map Stmt.bare
  | .declare .. => by simp [Stmt.bare, Stmt.walk]
  | .eval .. => by simp [Stmt.bare, Stmt.walk]
  | .branch _ b alt _ => by simp [Stmt.bare, Stmt.walk, b.walk_bare, alt.walk_bare]
  | .loop _ b _ => by simp [Stmt.bare, Stmt.walk, b.walk_bare]
  | .leave .. => by simp [Stmt.bare, Stmt.walk]
  | .block b _ => by simp [Stmt.bare, Stmt.walk, b.walk_bare]

theorem Block.walk_bare : (b : Block) → b.bare.walk = b.walk.map Stmt.bare
  | .mk ss _ => by simp [Block.bare, Block.walk, walkAll_bareAll ss]

theorem Else.walk_bare : (alt : Else) → alt.bare.walk = alt.walk.map Stmt.bare
  | .none => rfl
  | .block b => by simp [Else.bare, Else.walk, b.walk_bare]
  | .chain s => by simp [Else.bare, Else.walk, s.walk_bare]

theorem walkAll_bareAll : (ss : List Stmt) → walkAll (bareAll ss) = (walkAll ss).map Stmt.bare
  | [] => rfl
  | s :: ss => by simp [bareAll, walkAll, s.walk_bare, walkAll_bareAll ss]

end

def Stmt.isBranch : Stmt → Bool
  | .branch .. => true
  | _ => false

/-- Whether an alternative that is chained to the statement is a branch itself. -/
def Stmt.chainsBranch : Stmt → Bool
  | .branch _ _ (.chain next) _ => next.isBranch
  | _ => true

theorem Stmt.chainsBranch_bare (s : Stmt) : s.bare.chainsBranch = s.chainsBranch := by
  cases s with
  | branch condition body alt span =>
    cases alt with
    | chain next => cases next <;> rfl
    | _ => rfl
  | _ => rfl

/-- The vocabulary of each of the statements is among the tokens, and its alternative is chained
to a branch. -/
def SpelledWithin (ts : List TokenKind) (ss : List Stmt) : Prop :=
  ∀ s ∈ ss, s.vocabulary ⊆ ts ∧ s.chainsBranch

namespace SpelledWithin

variable {ts us : List TokenKind} {ss ss' : List Stmt}

theorem mono (h : SpelledWithin us ss) (hus : us ⊆ ts) : SpelledWithin ts ss := fun s hs =>
  ⟨List.Subset.trans (h s hs).1 hus, (h s hs).2⟩

theorem cons {s : Stmt} (hs : s.vocabulary ⊆ ts) (hChains : s.chainsBranch)
    (h : SpelledWithin ts ss) : SpelledWithin ts (s :: ss) := by
  intro t ht
  rcases List.mem_cons.mp ht with rfl | ht
  · exact ⟨hs, hChains⟩
  · exact h t ht

theorem append (h : SpelledWithin ts ss) (h' : SpelledWithin ts ss') :
    SpelledWithin ts (ss ++ ss') := by
  intro t ht
  rcases List.mem_append.mp ht with ht | ht
  · exact h t ht
  · exact h' t ht

theorem nil : SpelledWithin ts [] := fun _ ht => nomatch ht

end SpelledWithin

theorem Condition.vocabulary_subset {ts rest : List TokenKind} {e : Expr}
    (h : Condition ts e rest) : e.vocabulary ⊆ ts := by
  cases h with
  | mk h => exact List.subset_cons_of_subset _ h.vocabulary_subset

theorem Declared.mem {ts rest : List TokenKind} {x : String} {ty : Ty}
    (h : Declared ts x ty rest) : .identifier x ∈ ts := by
  cases h with
  | plain _ hs => exact List.mem_cons_of_mem _ (hs.passes.subset List.mem_cons_self)
  | array _ hs => exact List.mem_cons_of_mem _ (hs.passes.subset List.mem_cons_self)

/-- A statement that begins with `if` is a branch. -/
theorem Stmt.Spelled.isBranch {ts rest : List TokenKind} {s : Stmt} (h : Stmt.Spelled ts s rest)
    (hIf : ts.head? = some (.keyword .kwIf)) : s.isBranch := by
  have hOpens {P : TokenKind → Bool} {ts us : List TokenKind} (hts : Opens P ts us)
      (hIf : ts.head? = some (.keyword .kwIf)) : P (.keyword .kwIf) := by
    obtain ⟨k, hk, hP⟩ := hts.head
    rw [hIf, Option.some.injEq] at hk
    exact hk ▸ hP
  cases h with
  | declare hx => cases hOpens hx.opens hIf
  | define hx _ => cases hOpens hx.opens hIf
  | eval he => cases hOpens he.opens hIf
  | branch => rfl
  | loop => cases hIf
  | leave => cases hIf
  | leaveWith => cases hIf
  | block hb =>
    cases hb with
    | mk => cases hIf

theorem Else.Spelled.chainsBranch {ts rest : List TokenKind} {alt : Else}
    (h : Else.Spelled ts alt rest) (condition : Expr) (body : Block) :
    (Stmt.branch condition body alt nowhere).chainsBranch := by
  cases h with
  | none => rfl
  | block => rfl
  | chain hIf hs => exact hs.isBranch hIf

mutual

theorem Stmt.Spelled.vocabulary_subset {ts rest : List TokenKind} {s : Stmt} :
    Stmt.Spelled ts s rest → SpelledWithin ts s.walk
  | .declare h => .cons (List.cons_subset.mpr ⟨h.mem, List.nil_subset _⟩) rfl .nil
  | .define h he => .cons (List.cons_subset.mpr
      ⟨h.mem, subset_of_passes he.vocabulary_subset h.opens.passes⟩) rfl .nil
  | .eval h => .cons h.vocabulary_subset rfl .nil
  | .branch he hb halt => by
    have hBlock := hb.vocabulary_subset.mono he.passes.subset
    have hElse := halt.vocabulary_subset.mono
      (List.Subset.trans hb.opens.passes.subset he.passes.subset)
    exact .cons (List.subset_cons_of_subset _ he.vocabulary_subset) (halt.chainsBranch _ _)
      ((hBlock.append hElse).mono (List.subset_cons_self _ _))
  | .loop he hb => by
    have hBlock := hb.vocabulary_subset.mono he.passes.subset
    exact .cons (List.subset_cons_of_subset _ he.vocabulary_subset) rfl
      (hBlock.mono (List.subset_cons_self _ _))
  | .leave _ => .cons (List.nil_subset _) rfl .nil
  | .leaveWith h => .cons (List.subset_cons_of_subset _ h.vocabulary_subset) rfl .nil
  | .block h => .cons (List.nil_subset _) rfl h.vocabulary_subset

theorem Block.Spelled.vocabulary_subset {ts rest : List TokenKind} {b : Block} :
    Block.Spelled ts b rest → SpelledWithin ts b.walk
  | .mk h => h.vocabulary_subset.mono (List.subset_cons_self _ _)

theorem EachSpelled.vocabulary_subset {ts rest : List TokenKind} {ss : List Stmt} :
    EachSpelled ts ss rest → SpelledWithin ts (walkAll ss)
  | .nil _ => .nil
  | .cons h hs => h.vocabulary_subset.append (hs.vocabulary_subset.mono h.opens.passes.subset)

theorem Body.Spelled.vocabulary_subset {ts rest : List TokenKind} {b : Block} :
    Body.Spelled ts b rest → SpelledWithin ts b.walk
  | .braced h => h.vocabulary_subset
  | .single _ h => h.vocabulary_subset.append .nil

theorem Else.Spelled.vocabulary_subset {ts rest : List TokenKind} {alt : Else} :
    Else.Spelled ts alt rest → SpelledWithin ts alt.walk
  | .none _ => .nil
  | .block _ h => h.vocabulary_subset.mono (List.subset_cons_self _ _)
  | .chain _ h => h.vocabulary_subset.mono (List.subset_cons_self _ _)

end

/-! ## Programs -/

/-- The names of a function and its parameters. -/
def Function.vocabulary (f : Function) : List TokenKind :=
  .identifier f.name :: f.params.map (.identifier ·.name)

@[simp] theorem Function.vocabulary_bare (f : Function) : f.bare.vocabulary = f.vocabulary := by
  simp [vocabulary, bare, Param.bare]

/-- Every item of a sequence is read from some of its tokens. -/
theorem exists_of_mem_repeated {α : Type} {R : List TokenKind → α → List TokenKind → Prop}
    (hR : ∀ ts a us, R ts a us → Passes ts us) {ts rest : List TokenKind} {as : List α}
    (h : Repeated R ts as rest) {a : α} (ha : a ∈ as) : ∃ us vs, us ⊆ ts ∧ R us a vs := by
  induction h with
  | nil _ => cases ha
  | cons hb _ ih =>
    rcases List.mem_cons.mp ha with rfl | ha
    · exact ⟨_, _, List.Subset.refl _, hb⟩
    · obtain ⟨us, vs, hus, hItem⟩ := ih ha
      exact ⟨us, vs, List.Subset.trans hus (hR _ _ _ hb).subset, hItem⟩

theorem Param.Spelled.mem {ts rest : List TokenKind} {p : Param} (h : Param.Spelled ts p rest) :
    .identifier p.name ∈ ts := by
  cases h with
  | mk h => exact h.mem

theorem Params.mem {ts rest : List TokenKind} {ps : List Param} (h : Params ts ps rest)
    {p : Param} (hp : p ∈ ps) : .identifier p.name ∈ ts := by
  cases h with
  | none rest => cases hp
  | void rest => cases hp
  | some hFirst hMore =>
    rcases List.mem_cons.mp hp with rfl | hp
    · exact hFirst.mem
    · obtain ⟨us, vs, hus, hItem⟩ := exists_of_mem_repeated
        (fun _ _ _ => AfterComma.passes fun _ _ _ => Param.Spelled.passes) hMore hp
      cases hItem with
      | mk hItem => exact hFirst.passes.subset (hus (List.mem_cons_of_mem _ hItem.mem))

/-- The names and literals of a function are among its tokens. -/
theorem Function.Spelled.vocabulary_subset {ts rest : List TokenKind} {f : Function}
    (h : Function.Spelled ts f rest) : f.vocabulary ⊆ ts ∧ SpelledWithin ts f.body.walk := by
  cases h with
  | mk hk hs hps hb =>
    have hHead := (hs.passes.tail (by simp)).tail (by simp)
    refine ⟨List.cons_subset.mpr ⟨?_, fun k hParam => ?_⟩, ?_⟩
    · exact List.mem_cons_of_mem _ (hs.passes.subset List.mem_cons_self)
    · obtain ⟨p, hp, rfl⟩ := List.mem_map.mp hParam
      exact List.mem_cons_of_mem _ (hHead.subset (hps.mem hp))
    · have hBody := hb.vocabulary_subset.mono (hHead.trans hps.passes).subset
      exact hBody.mono (List.subset_cons_self _ _)

theorem Function.walk_bare (f : Function) : f.bare.body.walk = f.body.walk.map Stmt.bare :=
  f.body.walk_bare

/-- The vocabulary of a parsed program is among its tokens. -/
theorem vocabulary_subset_of_parseTokens {tokens : List Token} (hTokens : EndsOnce tokens)
    {p : Program} (h : parseTokens tokens = .ok p) {f : Function} (hf : f ∈ p.functions) :
    f.vocabulary ⊆ tokens.map (·.kind) ∧ SpelledWithin (tokens.map (·.kind)) f.body.walk := by
  obtain ⟨hSpelled, -⟩ := spelled_of_parseTokens hTokens h
  obtain ⟨us, vs, hus, hFunction⟩ := exists_of_mem_repeated
    (fun _ _ _ hg => hg.opens.passes) hSpelled (List.mem_map_of_mem hf)
  obtain ⟨hHead, hBody⟩ := hFunction.vocabulary_subset
  rw [Function.vocabulary_bare] at hHead
  rw [Function.walk_bare] at hBody
  refine ⟨List.Subset.trans hHead hus, fun s hs => ?_⟩
  have hs := hBody.mono hus s.bare (List.mem_map_of_mem hs)
  rwa [Stmt.vocabulary_bare, Stmt.chainsBranch_bare] at hs

/-! ## Scanned tokens -/

/-- The name is a letter or an underscore, then letters, digits and underscores. -/
def IsWord (x : String) : Prop :=
  ∃ c cs, x.toList = c :: cs ∧ isWordStart c ∧ ∀ d ∈ cs, isWordRest d

/-- What the scanner produces: literals that are not negative and names that are words. -/
def TokenKind.Scanned : TokenKind → Prop
  | .literal value => 0 ≤ value
  | .identifier x => IsWord x
  | _ => True

theorem Spells.scanned {text : List Char} {kind : TokenKind} (h : Spells text kind) :
    kind.Scanned := by
  cases h with
  | keyword k => trivial
  | @identifier c cs hc hcs _ => exact ⟨c, cs, String.toList_ofList, hc, hcs⟩
  | literal => exact Int.natCast_nonneg _
  | symbol m => trivial

/-- All tokens but the last one are spelled by a part of the text. -/
theorem spells_of_tokenize {file source : String} {tokens : List Token}
    (h : tokenize file source = .ok tokens) :
    EndsOnce tokens ∧ ∀ t ∈ tokens, t.kind = .endOfFile ∨ ∃ text, Spells text t.kind := by
  obtain ⟨ls, hLaid⟩ := exists_laid_of_tokenize h
  obtain ⟨init, place, hOk, hMarks, -⟩ := tokenize_of_laid file hLaid
  rw [h, Except.ok.injEq] at hOk
  subst hOk
  have hInit : ∀ t ∈ init, ∃ text, Spells text t.kind := by
    intro t ht
    obtain ⟨l, hl, hMark⟩ := exists_right_of_forall₂ hMarks ht
    exact ⟨l.text, hMark.kind ▸ hLaid.spells l hl⟩
  refine ⟨⟨init, _, rfl, rfl, ?_⟩, ?_⟩
  · intro t ht
    obtain ⟨text, hText⟩ := hInit t ht
    exact hText.ne_endOfFile
  · intro t ht
    rcases List.mem_append.mp ht with hLexeme | hLast
    · exact .inr (hInit t hLexeme)
    · rw [List.mem_singleton.mp hLast]
      exact .inl rfl

theorem parse_of_tokenize {file source : String} {tokens : List Token}
    (h : tokenize file source = .ok tokens) :
    parse file source = (parseTokens tokens).mapError Parser.GrammarError.toDiagnostic := by
  rw [parse, h]
  rfl

theorem exists_tokens_of_parse {file source : String} {p : Program}
    (h : parse file source = .ok p) :
    ∃ tokens, tokenize file source = .ok tokens ∧ parseTokens tokens = .ok p := by
  cases hTokens : tokenize file source with
  | error e =>
    rw [parse, hTokens] at h
    cases h
  | ok tokens =>
    rw [parse_of_tokenize hTokens] at h
    cases hp : parseTokens tokens with
    | error e =>
      rw [hp] at h
      cases h
    | ok q =>
      rw [hp] at h
      cases h
      exact ⟨tokens, rfl, hp⟩

/-- What the scanner and the grammar say of a statement: its vocabulary is what the scanner
produces, and its alternative is chained to a branch. -/
structure Stmt.Scanned (s : Stmt) : Prop where
  vocabulary : ∀ k ∈ s.vocabulary, k.Scanned
  chains : s.chainsBranch

/-- The vocabulary of a program that a source text spells has every property that a text's tokens
have. -/
theorem vocabulary_of_parse {P : TokenKind → Prop} (hEnd : P .endOfFile)
    (hSpells : ∀ {text : List Char} {kind : TokenKind}, Spells text kind → P kind)
    {file source : String} {p : Program} (h : parse file source = .ok p) {f : Function}
    (hf : f ∈ p.functions) :
    (∀ k ∈ f.vocabulary, P k) ∧
      ∀ s ∈ f.body.walk, (∀ k ∈ s.vocabulary, P k) ∧ s.chainsBranch := by
  obtain ⟨tokens, hTokens, hParse⟩ := exists_tokens_of_parse h
  obtain ⟨hEnds, hSpelled⟩ := spells_of_tokenize hTokens
  have hKinds : ∀ k ∈ tokens.map (·.kind), P k := by
    intro k hk
    obtain ⟨t, ht, rfl⟩ := List.mem_map.mp hk
    rcases hSpelled t ht with hLast | ⟨text, hText⟩
    · exact hLast ▸ hEnd
    · exact hSpells hText
  obtain ⟨hHead, hBody⟩ := vocabulary_subset_of_parseTokens hEnds hParse hf
  exact ⟨fun k hk => hKinds k (hHead hk),
    fun s hs => ⟨fun k hk => hKinds k ((hBody s hs).1 hk), (hBody s hs).2⟩⟩

/-- The vocabulary of a program that a source text spells is what the scanner produces. -/
theorem scanned_of_parse {file source : String} {p : Program} (h : parse file source = .ok p)
    {f : Function} (hf : f ∈ p.functions) :
    (∀ k ∈ f.vocabulary, k.Scanned) ∧ ∀ s ∈ f.body.walk, s.Scanned := by
  obtain ⟨hHead, hBody⟩ := vocabulary_of_parse (P := TokenKind.Scanned) trivial Spells.scanned h hf
  exact ⟨hHead, fun s hs => ⟨(hBody s hs).1, (hBody s hs).2⟩⟩

end CToGo.Source
