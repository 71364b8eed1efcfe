import CToGo.Proofs.Grammar.Vocabulary
import CToGo.Proofs.Lowering.Occurrence
import CToGo.Proofs.Reading.RoundTrip

/-!
# Compiled expressions are read as they were written

* `plain_of_compileProgram`: the expressions of a compiled source text are plain.
* `reads_text_iff`: the text of a plain expression is read as this expression and no other.
-/

namespace CToGo.Target

open Source (IsWord TokenKind)

/-! ## Names -/

theorem isName_of_isWord {x : String} (hWord : IsWord x) (hKeyword : x ∉ targetKeywords) :
    isName x := by
  obtain ⟨c, cs, hx, hc, hcs⟩ := hWord
  unfold isName
  rw [hx]
  simpa [hc, hKeyword] using hcs

theorem not_mem_targetKeywords_of_reservedUse? {ctx : Context} {x : String}
    (h : ctx.reservedUse? x = none) : x ∉ targetKeywords := by
  intro hx
  rw [Context.reservedUse?, if_pos hx] at h
  cases h

theorem not_mem_targetKeywords_of_reservedFunctionUse? {ctx : Context} {f : String}
    (h : ctx.reservedFunctionUse? f = none) : f ∉ targetKeywords := by
  unfold Context.reservedFunctionUse? at h
  split at h
  · cases h
  · rename_i hUse
    exact not_mem_targetKeywords_of_reservedUse? hUse

/-! ## Images -/

mutual

theorem isPlain_of_image {ctx : Context} (hFunctions : ∀ f ∈ ctx.functions, f ∉ targetKeywords)
    {e : Source.Expr} {e' : Expr} (h : ∀ k ∈ e.vocabulary, k.Scanned) :
    e.Image ctx e' → e'.isPlain
  | .literal value span => by
    have hValue : TokenKind.Scanned (.literal value) := h _ List.mem_cons_self
    exact decide_eq_true hValue
  | .ident hx =>
    isName_of_isWord (h _ List.mem_cons_self) (not_mem_targetKeywords_of_reservedUse? hx)
  | .binary ha hb => by
    rw [Source.Expr.vocabulary, List.forall_mem_append] at h
    rw [Expr.isPlain, isPlain_of_image hFunctions h.1 ha, isPlain_of_image hFunctions h.2 hb]
    rfl
  | .negate he => by
    rw [Source.Expr.vocabulary] at h
    rw [Expr.isPlain, isPlain_of_image hFunctions h he]
    rfl
  | .call hf hargs => by
    rw [Source.Expr.vocabulary, List.forall_mem_cons] at h
    rw [Expr.isPlain, Expr.isPlain, isName_of_isWord h.1 (hFunctions _ hf),
      plainEach_of_image hFunctions h.2 hargs]
    rfl

theorem plainEach_of_image {ctx : Context}
    (hFunctions : ∀ f ∈ ctx.functions, f ∉ targetKeywords) {es : List Source.Expr}
    {es' : List Expr} (h : ∀ k ∈ Source.vocabularyOfEach es, k.Scanned) :
    ImageEach ctx es es' → plainEach es'
  | .nil => rfl
  | .cons he hes => by
    rw [Source.vocabularyOfEach, List.forall_mem_append] at h
    rw [plainEach, isPlain_of_image hFunctions h.1 he, plainEach_of_image hFunctions h.2 hes]
    rfl

end

theorem isPlain_of_uses {ctx : Context} {inMain : Bool}
    (hFunctions : ∀ f ∈ ctx.functions, f ∉ targetKeywords) {s : Source.Stmt} {x : Expr}
    (hs : ∀ k ∈ s.vocabulary, k.Scanned) (h : Uses ctx inMain s x) : x.isPlain := by
  cases h with
  | init he => exact isPlain_of_image hFunctions (List.forall_mem_cons.mp hs).2 he
  | assigned he => exact isPlain_of_image hFunctions (List.forall_mem_cons.mp hs).2 he
  | evaluated he => exact isPlain_of_image hFunctions hs he
  | branch hc => exact isPlain_of_image hFunctions hs hc
  | loop hc => exact isPlain_of_image hFunctions hs hc
  | result he => exact isPlain_of_image hFunctions hs he
  | status _ he =>
    have hExit : isName "os" && isName "Exit" := by decide
    rw [Expr.isPlain, plainEach, isPlain_of_image hFunctions hs he, Expr.isPlain, hExit]
    rfl

theorem isPlain_of_bindings {ctx : Context} {params : List Source.Param} {bindings : List Stmt}
    (h : BindingsImage ctx params bindings) {x : Expr} (hx : x ∈ exprsOf bindings) :
    x.isPlain := by
  cases h with
  | plain => cases hx
  | arguments =>
    have hx : x = .call (.ident "len") [processArguments] ∨ x = processArguments := by
      simpa [bindArguments, exprsOf, Stmt.exprs] using hx
    rcases hx with rfl | rfl
    · decide
    · decide

/-! ## Compiled programs -/

theorem isPlain_of_function_image {ctx : Context} {f : Source.Function} {f' : Function}
    (hFunctions : ∀ f ∈ ctx.functions, f ∉ targetKeywords)
    (hScanned : ∀ s ∈ f.body.walk, ∀ k ∈ s.vocabulary, k.Scanned) (h : f.Image ctx f')
    {x : Expr} (hx : x ∈ exprsOf f'.body) : x.isPlain := by
  have hBody {inMain : Bool} {body : List Stmt} (hImage : ImageAll ctx inMain f.body.stmts body)
      (hx : x ∈ exprsOf body) : x.isPlain := by
    obtain ⟨s, hs, hUses⟩ := hImage.exists_uses hx
    refine isPlain_of_uses hFunctions (hScanned s ?_) hUses
    cases hb : f.body with
    | mk ss span => rwa [hb] at hs
  cases h with
  | entry _ _ _ hBindings hImage =>
    rw [exprsOf_append, List.mem_append] at hx
    rcases hx with hx | hx
    · exact isPlain_of_bindings hBindings hx
    · exact hBody hImage hx
  | plain _ _ _ _ hImage => exact hBody hImage hx

theorem functions_not_keywords {rules : List Rule} {p : Source.Program}
    {functions : List Function}
    (hImages : List.Forall₂ (Source.Function.Image (p.context rules)) p.functions functions) :
    ∀ f ∈ (p.context rules).functions, f ∉ targetKeywords := by
  intro name hName
  obtain ⟨f, hf, rfl⟩ := List.mem_map.mp hName
  obtain ⟨f', -, hImage⟩ := exists_right_of_forall₂ hImages hf
  exact not_mem_targetKeywords_of_reservedFunctionUse? hImage.reservedFunctionUse?

theorem plain_of_compileProgram {rules : List Rule} {file source : String} {p : Source.Program}
    {out : File} (hParse : Source.parse file source = .ok p)
    (hCompile : compileProgram rules p = .ok out) {x : Expr} (hx : x ∈ out.exprs) :
    x.isPlain := by
  obtain ⟨-, -, hImages⟩ := image_of_compileProgram hCompile
  have hFunctions := functions_not_keywords hImages
  obtain ⟨f', hf', hx⟩ := List.mem_flatMap.mp hx
  obtain ⟨f, hf, hImage⟩ := exists_left_of_forall₂ hImages hf'
  have hScanned := (Source.scanned_of_parse hParse hf).2
  exact isPlain_of_function_image hFunctions (fun s hs => (hScanned s hs).vocabulary) hImage hx

/-- **Reading back.** The text of a plain expression is read as this expression and as no other,
and all expressions of a compiled source text are plain. -/
theorem reads_text_iff :
    (∀ e : Expr, e.isPlain → ∀ e', Reads e.text e' ↔ e' = e) ∧
    (∀ rules file source p out, Source.parse file source = .ok p →
      compileProgram rules p = .ok out → ∀ e ∈ out.exprs, e.isPlain) := by
  refine ⟨fun e he e' => ⟨fun h => h.unique (reads_text he), ?_⟩, ?_⟩
  · rintro rfl
    exact reads_text he
  · intro rules file source p out hParse hCompile e he
    exact plain_of_compileProgram hParse hCompile he

/-- Two signs in a row, a right operand of equal precedence and one comparison inside another. -/
def crowded : Expr :=
  .binary .sub (.unary .negate (.unary .negate (.ident "a")))
    (.binary .sub (.literal 1)
      (.call (.ident "f") [.binary .equal (.binary .less (.ident "b") (.literal 2))
        (.binary .less (.ident "c") (.selector "os" "Args"))]))

/-- A source text with such an expression. -/
def crowdedSource : String := "int main(int n, char **v) \x7b return - -(n - (1 - 2)) < n; \x7d"

theorem exists_compiled_crowdedSource :
    ∃ p out, Source.parse "f.c" crowdedSource = .ok p ∧
      compileProgram Rule.standard p = .ok out := by
  have hChecked : (Source.parse "f.c" crowdedSource).toOption.any fun p =>
      (compileProgram Rule.standard p).toOption.isSome := by decide +kernel
  obtain ⟨p, hParse, hAccepted⟩ := exists_eq_ok_of_any hChecked
  obtain ⟨out, hOut⟩ := exists_eq_ok hAccepted
  exact ⟨p, out, hParse, hOut⟩

theorem reads_text_iff_crowded :
    (crowded.isPlain ∧ ∀ e', Reads crowded.text e' ↔ e' = crowded) ∧
    ∃ p out, Source.parse "f.c" crowdedSource = .ok p ∧
      compileProgram Rule.standard p = .ok out ∧ ∀ e ∈ out.exprs, e.isPlain := by
  have hPlain : crowded.isPlain := by decide
  obtain ⟨p, out, hParse, hCompile⟩ := exists_compiled_crowdedSource
  exact ⟨⟨hPlain, reads_text_iff.1 crowded hPlain⟩, p, out, hParse, hCompile,
    reads_text_iff.2 _ _ _ p out hParse hCompile⟩

end CToGo.Target
