import CToGo.Proofs.Lowering.Imports
import CToGo.Proofs.Reading.Compiled
import CToGo.Proofs.Reading.Statements

/-!
# Files are told by their texts

* `Function.text_inj`, `File.text_injective`: **equal texts have equal files.**
* `File.isPlain_of_compileProgram`: compiled files are among those of which this holds.
* `compile_injective`: **sources with the same compiled text have the same compiled file.**
-/

namespace CToGo.Target

open Source (TokenKind)

/-! ## Lists -/

/-- Items whose texts tell them and where they end make up lists with the same property, in front
of a text that no item begins. -/
theorem flatMap_inj {α : Type} {P : α → Prop} {E : List Char → Prop} {text : α → List Char}
    (hItem : ∀ {a a' : α} {rest rest' : List Char}, P a → P a' →
      text a ++ rest = text a' ++ rest' → a = a' ∧ rest = rest')
    (hEnd : ∀ {a : α} {rest rest' : List Char}, E rest → text a ++ rest' ≠ rest) :
    ∀ {as as' : List α} {rest rest' : List Char}, (∀ a ∈ as, P a) → (∀ a ∈ as', P a) →
      E rest → E rest' → as.flatMap text ++ rest = as'.flatMap text ++ rest' →
      as = as' ∧ rest = rest'
  | [], [], _, _, _, _, _, _, h => ⟨rfl, h⟩
  | [], a' :: as', rest, rest', _, _, hRest, _, h => by
    rw [List.flatMap_cons, List.append_assoc] at h
    exact absurd h.symm (hEnd hRest)
  | a :: as, [], rest, rest', _, _, _, hRest', h => by
    rw [List.flatMap_cons, List.append_assoc] at h
    exact absurd h (hEnd hRest')
  | a :: as, a' :: as', rest, rest', has, has', hRest, hRest', h => by
    rw [List.forall_mem_cons] at has has'
    rw [List.flatMap_cons, List.flatMap_cons, List.append_assoc, List.append_assoc] at h
    obtain ⟨rfl, hMore⟩ := hItem has.1 has'.1 h
    obtain ⟨rfl, hLeft⟩ := flatMap_inj hItem hEnd has.2 has'.2 hRest hRest' hMore
    exact ⟨rfl, hLeft⟩

/-- The items behind the first have the separator in front of them. -/
theorem toList_intercalate_cons (separator text : String) (texts : List String) :
    (separator.intercalate (text :: texts)).toList =
      text.toList ++ texts.flatMap fun t => separator.toList ++ t.toList := by
  induction texts generalizing text with
  | nil => simp
  | cons t texts ih =>
    rw [String.intercalate_cons_cons, String.toList_append, ih]
    simp

/-! ## Functions -/

/-- Whether all names of a function are identifiers and its statements are plain. -/
def Function.isPlain (f : Function) : Bool :=
  isName f.name && f.params.all (isName ·.name) && plainAll f.body

theorem param_inj {p p' : Param} (hp : isName p.name) (hp' : isName p'.name)
    {rest rest' : List Char} (h : p.text.toList ++ rest = p'.text.toList ++ rest') :
    p = p' ∧ rest = rest' := by
  have hText (p : Param) (rest : List Char) : p.text.toList ++ rest =
      p.name.toList ++ ' ' :: 'i' :: 'n' :: 't' :: rest := by
    simp [Param.text, Ty.text]
  rw [hText, hText] at h
  obtain ⟨hName, hRest⟩ := isName_inj hp hp' (apart_cons rfl (by decide) _)
    (apart_cons rfl (by decide) _) h
  simp only [List.cons.injEq, true_and] at hRest
  cases p
  cases p'
  cases hName
  exact ⟨rfl, hRest⟩

theorem params_inj {ps ps' : List Param} (hps : ∀ p ∈ ps, isName p.name)
    (hps' : ∀ p ∈ ps', isName p.name) {rest rest' : List Char}
    (h : (", ".intercalate (ps.map Param.text)).toList ++ ')' :: rest =
      (", ".intercalate (ps'.map Param.text)).toList ++ ')' :: rest') :
    ps = ps' ∧ rest = rest' := by
  have hFirst {p : Param} (hp : isName p.name) {rest rest' : List Char} :
      p.text.toList ++ rest ≠ ')' :: rest' := by
    obtain ⟨c, cs, hcs, hc⟩ := exists_isWordStart hp
    rw [Param.text, String.append_assoc, String.toList_append, hcs]
    intro hEq
    cases hEq
    cases hc
  cases ps with
  | nil =>
    cases ps' with
    | nil => exact ⟨rfl, (List.cons.inj h).2⟩
    | cons p' ps' =>
      rw [List.map_cons, toList_intercalate_cons, List.append_assoc] at h
      exact absurd h.symm (hFirst (hps' p' List.mem_cons_self))
  | cons p ps =>
    rw [List.map_cons, toList_intercalate_cons, List.append_assoc] at h
    cases ps' with
    | nil => exact absurd h (hFirst (hps p List.mem_cons_self))
    | cons p' ps' =>
      rw [List.forall_mem_cons] at hps hps'
      rw [List.map_cons, toList_intercalate_cons, List.append_assoc] at h
      obtain ⟨rfl, hMore⟩ := param_inj hps.1 hps'.1 h
      rw [List.flatMap_map, List.flatMap_map] at hMore
      have hItem {p p' : Param} {rest rest' : List Char} (hp : isName p.name)
          (hp' : isName p'.name) (hEq : ", ".toList ++ p.text.toList ++ rest =
            ", ".toList ++ p'.text.toList ++ rest') : p = p' ∧ rest = rest' := by
        rw [List.append_assoc, List.append_assoc] at hEq
        exact param_inj hp hp' (List.append_cancel_left hEq)
      obtain ⟨rfl, hRest⟩ := flatMap_inj (E := fun rest => rest.head? = some ')') hItem
        (by rintro p _ rest' hEnd rfl; cases hEnd) hps.2 hps'.2 rfl rfl hMore
      exact ⟨rfl, (List.cons.inj hRest).2⟩

/-- The empty body has a blank line, and every line of another one begins with a tab. -/
theorem body_inj {body body' : List Stmt} (hs : plainAll body) (hs' : plainAll body')
    {rest rest' : List Char}
    (h : (bodyLines body).toList ++ '\x7d' :: rest = (bodyLines body').toList ++ '\x7d' :: rest') :
    body = body' ∧ rest = rest' := by
  have hTab (s : Stmt) (ss : List Stmt) (rest : List Char) :
      ∃ more, (bodyLines (s :: ss)).toList ++ rest = '\t' :: more :=
    ⟨_, toList_linesOf_cons ss 1 rest s⟩
  cases body with
  | nil =>
    cases body' with
    | nil => simpa [bodyLines] using h
    | cons s' ss' =>
      obtain ⟨more, hMore⟩ := hTab s' ss' ('\x7d' :: rest')
      rw [hMore] at h
      cases h
  | cons s ss =>
    cases body' with
    | nil =>
      obtain ⟨more, hMore⟩ := hTab s ss ('\x7d' :: rest)
      rw [hMore] at h
      cases h
    | cons s' ss' =>
      have hLines : (linesOf (0 + 1) (s :: ss)).toList ++ ((tabs 0).toList ++ '\x7d' :: rest) =
          (linesOf (0 + 1) (s' :: ss')).toList ++ ((tabs 0).toList ++ '\x7d' :: rest') := h
      exact linesOf_inj _ hs hs' hLines

theorem toList_function (f : Function) (rest : List Char) : f.text.toList ++ rest =
    'f' :: 'u' :: 'n' :: 'c' :: ' ' :: (f.name.toList ++
      '(' :: ((", ".intercalate (f.params.map Param.text)).toList ++
        ')' :: (f.result.elim [] (fun _ => [' ', 'i', 'n', 't']) ++
          ' ' :: '\x7b' :: '\n' :: ((bodyLines f.body).toList ++ '\x7d' :: rest)))) := by
  obtain ⟨name, params, result, body⟩ := f
  cases result <;> simp [Function.text, braced, Ty.text, tabs]

theorem result_inj {result result' : Option Ty} {rest rest' : List Char}
    (h : result.elim [] (fun _ => [' ', 'i', 'n', 't']) ++ ' ' :: '\x7b' :: rest =
      result'.elim [] (fun _ => [' ', 'i', 'n', 't']) ++ ' ' :: '\x7b' :: rest') :
    result = result' ∧ rest = rest' := by
  cases result with
  | none =>
    cases result' with
    | none => simpa using h
    | some ty' => simp at h
  | some ty =>
    cases result' with
    | none => simp at h
    | some ty' =>
      cases ty
      cases ty'
      simpa using h

/-- **Functions.** The text of a plain function tells the function, and where it ends. -/
theorem Function.text_inj {f f' : Function} (hf : f.isPlain) (hf' : f'.isPlain)
    {rest rest' : List Char} (h : f.text.toList ++ rest = f'.text.toList ++ rest') :
    f = f' ∧ rest = rest' := by
  rw [Function.isPlain, Bool.and_eq_true, Bool.and_eq_true, List.all_eq_true] at hf hf'
  rw [toList_function, toList_function] at h
  simp only [List.cons.injEq, true_and] at h
  obtain ⟨hName, hParams⟩ := isName_inj hf.1.1 hf'.1.1 (apart_cons rfl (by decide) _)
    (apart_cons rfl (by decide) _) h
  obtain ⟨hParams, hResult⟩ := params_inj hf.1.2 hf'.1.2 (List.cons.inj hParams).2
  obtain ⟨hResult, hBody⟩ := result_inj hResult
  obtain ⟨hBody, hRest⟩ := body_inj hf.2 hf'.2 (List.cons.inj hBody).2
  cases f
  cases f'
  cases hName
  cases hParams
  cases hResult
  cases hBody
  exact ⟨rfl, hRest⟩

/-! ## Files -/

/-- Whether all names of a file are identifiers and its functions are plain. -/
def File.isPlain (f : File) : Bool :=
  isName f.package && f.imports.all isName && f.functions.all Function.isPlain

/-- The text of the imports, with the blank line in front of it. -/
def importSection (imports : List String) : List Char :=
  if imports.isEmpty then [] else '\n' :: '\n' :: (importText imports).toList

/-- The text of a function, with the blank line in front of it. -/
def functionSection (f : Function) : List Char := '\n' :: '\n' :: f.text.toList

theorem toList_file (f : File) : f.text.toList = "package ".toList ++ (f.package.toList ++
    (importSection f.imports ++ f.functions.flatMap functionSection)) := by
  obtain ⟨package, imports, functions⟩ := f
  rw [File.text, List.cons_append, toList_intercalate_cons, List.flatMap_append, List.flatMap_map]
  cases imports with
  | nil =>
    simp [importSection]
    rfl
  | cons path paths =>
    simp [importSection]
    rfl

theorem toList_importText (paths : List String) (rest : List Char) :
    (importText paths).toList ++ rest = "import (\n".toList ++
      (paths.flatMap (fun path => '\t' :: '"' :: (path.toList ++ ['"', '\n'])) ++ ')' :: rest) := by
  simp [importText, List.flatMap_map]

theorem path_inj {path path' : String} (hPath : isName path) (hPath' : isName path')
    {rest rest' : List Char}
    (h : '\t' :: '"' :: (path.toList ++ ['"', '\n']) ++ rest =
      '\t' :: '"' :: (path'.toList ++ ['"', '\n']) ++ rest') :
    path = path' ∧ rest = rest' := by
  simp only [List.cons_append, List.append_assoc, List.cons.injEq, true_and] at h
  obtain ⟨rfl, hRest⟩ := isName_inj hPath hPath' (apart_cons rfl (by decide) _)
    (apart_cons rfl (by decide) _) h
  simp only [List.nil_append, List.cons.injEq, true_and] at hRest
  exact ⟨rfl, hRest⟩

/-- Behind a blank line stands the keyword of what follows. -/
theorem importSection_ne {path : String} {paths : List String} {rest : List Char}
    {fs : List Function} :
    importSection (path :: paths) ++ rest ≠ fs.flatMap functionSection := by
  have hImport : importSection (path :: paths) ++ rest =
      '\n' :: '\n' :: ((importText (path :: paths)).toList ++ rest) := rfl
  rw [hImport, toList_importText]
  cases fs with
  | nil => exact List.cons_ne_nil _ _
  | cons f fs =>
    have hFunction : (f :: fs).flatMap functionSection =
        '\n' :: '\n' :: (f.text.toList ++ fs.flatMap functionSection) := rfl
    rw [hFunction, toList_function]
    intro hEq
    cases hEq

theorem imports_inj {paths paths' : List String} (hPaths : ∀ path ∈ paths, isName path)
    (hPaths' : ∀ path ∈ paths', isName path) {fs fs' : List Function}
    (h : importSection paths ++ fs.flatMap functionSection =
      importSection paths' ++ fs'.flatMap functionSection) :
    paths = paths' ∧ fs.flatMap functionSection = fs'.flatMap functionSection := by
  cases paths with
  | nil =>
    cases paths' with
    | nil => exact ⟨rfl, h⟩
    | cons path' paths' => exact absurd h.symm importSection_ne
  | cons path paths =>
    cases paths' with
    | nil => exact absurd h importSection_ne
    | cons path' paths' =>
      have hTexts : (importText (path :: paths)).toList ++ fs.flatMap functionSection =
          (importText (path' :: paths')).toList ++ fs'.flatMap functionSection :=
        (List.cons.inj (List.cons.inj h).2).2
      rw [toList_importText, toList_importText] at hTexts
      obtain ⟨hEq, hRest⟩ := flatMap_inj (E := fun rest => rest.head? = some ')')
        (fun hPath hPath' hEq => path_inj hPath hPath' hEq)
        (by rintro path _ rest' hEnd rfl; cases hEnd) hPaths hPaths' rfl rfl
        (List.append_cancel_left hTexts)
      exact ⟨hEq, (List.cons.inj hRest).2⟩

theorem functions_inj {fs fs' : List Function} (hfs : ∀ f ∈ fs, f.isPlain)
    (hfs' : ∀ f ∈ fs', f.isPlain)
    (h : fs.flatMap functionSection = fs'.flatMap functionSection) : fs = fs' := by
  have hItem {f f' : Function} {rest rest' : List Char} (hf : f.isPlain) (hf' : f'.isPlain)
      (hEq : functionSection f ++ rest = functionSection f' ++ rest') : f = f' ∧ rest = rest' :=
    Function.text_inj hf hf' (List.cons.inj (List.cons.inj hEq).2).2
  have hEnd {f : Function} {rest rest' : List Char} (hRest : rest = []) :
      functionSection f ++ rest' ≠ rest := hRest ▸ List.cons_ne_nil _ _
  rw [← List.append_nil (fs.flatMap _), ← List.append_nil (fs'.flatMap _)] at h
  exact (flatMap_inj hItem hEnd hfs hfs' rfl rfl h).1

/-- **Files.** Plain files with the same text are the same. -/
theorem File.text_injective {f f' : File} (hf : f.isPlain) (hf' : f'.isPlain)
    (h : f.text = f'.text) : f = f' := by
  rw [File.isPlain, Bool.and_eq_true, Bool.and_eq_true, List.all_eq_true, List.all_eq_true]
    at hf hf'
  have hSection (paths : List String) (fs : List Function) :
      Apart (importSection paths ++ fs.flatMap functionSection) := by
    cases paths with
    | cons path paths => exact apart_cons rfl (by decide) _
    | nil =>
      cases fs with
      | nil => exact fun _ hc => nomatch hc
      | cons g fs => exact apart_cons rfl (by decide) _
  rw [← String.toList_inj, toList_file, toList_file] at h
  obtain ⟨hPackage, hSections⟩ := isName_inj hf.1.1 hf'.1.1 (hSection _ _) (hSection _ _)
    (List.append_cancel_left h)
  obtain ⟨hImports, hFunctions⟩ := imports_inj hf.1.2 hf'.1.2 hSections
  have hFunctions := functions_inj hf.2 hf'.2 hFunctions
  cases f
  cases f'
  cases hPackage
  cases hImports
  cases hFunctions
  rfl

/-! ## Compiled files -/

theorem isName_of_allows {ctx : Context} {x : String} (hx : ctx.Allows x)
    (hScanned : TokenKind.Scanned (.identifier x)) : isName x :=
  isName_of_isWord hScanned (not_mem_targetKeywords_of_reservedUse? hx)

mutual

theorem isPlain_of_stmt_image {ctx : Context} {inMain : Bool}
    (hFunctions : ∀ f ∈ ctx.functions, f ∉ targetKeywords) {s : Source.Stmt} {s' : Stmt}
    (h : ∀ t ∈ s.walk, t.Scanned) (hImage : s.Image ctx inMain s') : s'.isPlain := by
  have hs := h s s.mem_walk_self
  have hExpr {x : Expr} : Uses ctx inMain s x → x.isPlain :=
    isPlain_of_uses hFunctions hs.vocabulary
  cases hImage with
  | declare hx => exact isName_of_allows hx (hs.vocabulary _ List.mem_cons_self)
  | define hx he =>
    have hName := isName_of_allows hx (hs.vocabulary _ List.mem_cons_self)
    exact Bool.and_eq_true_iff.mpr ⟨hName, hExpr (.init he)⟩
  | assign hx he =>
    have hName := isName_of_allows hx (hs.vocabulary _ List.mem_cons_self)
    exact Bool.and_eq_true_iff.mpr ⟨hName, hExpr (.assigned he)⟩
  | step hop hx =>
    have hName := isName_of_allows hx (hs.vocabulary _ List.mem_cons_self)
    exact Bool.and_eq_true_iff.mpr ⟨hName, bne_iff_ne.mpr hop⟩
  | call he =>
    refine Bool.and_eq_true_iff.mpr ⟨?_, hExpr (.evaluated he)⟩
    cases he
    rfl
  | branch hc hss halt =>
    rw [Source.Stmt.walk, List.forall_mem_cons, List.forall_mem_append] at h
    have hBody := plainAll_of_image hFunctions h.2.1 hss
    have hElse := isPlain_of_else_image hFunctions hs.chains h.2.2 halt
    rw [Stmt.isPlain, hExpr (.branch hc), hBody, hElse]
    rfl
  | loop hc hss =>
    rw [Source.Stmt.walk, List.forall_mem_cons] at h
    rw [Stmt.isPlain, hExpr (.loop hc), plainAll_of_image hFunctions h.2 hss]
    rfl
  | leave => rfl
  | result _ he => exact hExpr (.result he)
  | status hMain he => exact hExpr (.status hMain he)
  | block hss =>
    rw [Source.Stmt.walk, List.forall_mem_cons] at h
    exact plainAll_of_image hFunctions h.2 hss

theorem isPlain_of_else_image {ctx : Context} {inMain : Bool}
    (hFunctions : ∀ f ∈ ctx.functions, f ∉ targetKeywords) {condition : Source.Expr}
    {body : Source.Block} {alt : Source.Else} {span : Source.Span} {alt' : Else}
    (hChains : (Source.Stmt.branch condition body alt span).chainsBranch)
    (h : ∀ t ∈ alt.walk, t.Scanned) (hImage : alt.Image ctx inMain alt') : alt'.isPlain := by
  cases hImage with
  | none => rfl
  | block hss => exact plainAll_of_image hFunctions h hss
  | chain hs =>
    refine Bool.and_eq_true_iff.mpr ⟨?_, isPlain_of_stmt_image hFunctions h hs⟩
    cases hs with
    | branch => rfl
    | _ => cases hChains

theorem plainAll_of_image {ctx : Context} {inMain : Bool}
    (hFunctions : ∀ f ∈ ctx.functions, f ∉ targetKeywords) {ss : List Source.Stmt}
    {ss' : List Stmt} (h : ∀ t ∈ Source.walkAll ss, t.Scanned)
    (hImage : ImageAll ctx inMain ss ss') : plainAll ss' := by
  cases hImage with
  | nil => rfl
  | cons hs hss =>
    rw [Source.walkAll, List.forall_mem_append] at h
    rw [plainAll, isPlain_of_stmt_image hFunctions h.1 hs, plainAll_of_image hFunctions h.2 hss]
    rfl

end

theorem plainAll_append (ss ts : List Stmt) :
    plainAll (ss ++ ts) = (plainAll ss && plainAll ts) := by
  induction ss with
  | nil => rfl
  | cons s ss ih => rw [List.cons_append, plainAll, plainAll, ih, Bool.and_assoc]

theorem plainAll_of_bindings {ctx : Context} {params : List Source.Param} {bindings : List Stmt}
    (hParams : ∀ p ∈ params, TokenKind.Scanned (.identifier p.name))
    (h : BindingsImage ctx params bindings) : plainAll bindings := by
  cases h with
  | plain => rfl
  | @arguments count vector _ _ hCount hVector =>
    have hCount := isName_of_allows hCount (hParams count (by simp))
    have hVector := isName_of_allows hVector (hParams vector (by simp))
    have hExprs : Expr.isPlain (.call (.ident "len") [processArguments]) &&
        processArguments.isPlain := by decide
    rw [Bool.and_eq_true] at hExprs
    simp only [bindArguments, plainAll, Stmt.isPlain, hCount, hVector, hExprs, Bool.and_self]

theorem isName_of_params_image {ctx : Context} {params : List Source.Param}
    {params' : List Param} (hParams : ∀ p ∈ params, TokenKind.Scanned (.identifier p.name))
    (h : List.Forall₂ (Source.Param.Image ctx) params params') {p' : Param} (hp' : p' ∈ params') :
    isName p'.name := by
  obtain ⟨p, hp, hImage⟩ := exists_left_of_forall₂ h hp'
  cases hImage with
  | mk hAllows => exact isName_of_allows hAllows (hParams _ hp)

theorem Function.isPlain_of_image {ctx : Context} {f : Source.Function} {f' : Function}
    (hFunctions : ∀ f ∈ ctx.functions, f ∉ targetKeywords)
    (hHead : ∀ k ∈ f.vocabulary, k.Scanned) (hBody : ∀ s ∈ f.body.walk, s.Scanned)
    (h : f.Image ctx f') : f'.isPlain := by
  have hName : isName f.name := isName_of_isWord (hHead _ List.mem_cons_self)
    (not_mem_targetKeywords_of_reservedFunctionUse? h.reservedFunctionUse?)
  have hParams : ∀ p ∈ f.params, TokenKind.Scanned (.identifier p.name) := fun p hp =>
    hHead _ (List.mem_cons_of_mem _ (List.mem_map_of_mem hp))
  have hStmts : ∀ t ∈ Source.walkAll f.body.stmts, t.Scanned := by
    cases hb : f.body with
    | mk ss span => rwa [hb] at hBody
  cases h with
  | entry _ _ _ hBindings hImage =>
    rw [Function.isPlain, hName, plainAll_append, plainAll_of_bindings hParams hBindings,
      plainAll_of_image hFunctions hStmts hImage]
    rfl
  | plain _ _ hImages _ hImage =>
    have hAll := List.all_eq_true.mpr fun _ => isName_of_params_image hParams hImages
    rw [Function.isPlain, hName, hAll, plainAll_of_image hFunctions hStmts hImage]
    rfl

theorem package_of_compileProgram {rules : List Rule} {p : Source.Program} {out : File}
    (h : compileProgram rules p = .ok out) : out.package = "main" := by
  unfold compileProgram Source.Program.lower at h
  obtain ⟨_, -, h⟩ := bind_eq_ok.mp h
  obtain ⟨functions, -, hEq⟩ := bind_eq_ok.mp h
  cases hEq
  rfl

theorem isName_of_mem_packages {requirements : Requirements} {path : String}
    (h : path ∈ requirements.packages) : isName path := by
  rw [Requirements.packages_eq] at h
  split at h
  · rw [List.mem_singleton.mp h]
    decide
  · cases h

/-- The file that a source text is compiled to is plain. -/
theorem File.isPlain_of_compileProgram {rules : List Rule} {file source : String}
    {p : Source.Program} {out : File} (hParse : Source.parse file source = .ok p)
    (hCompile : compileProgram rules p = .ok out) : out.isPlain := by
  obtain ⟨hImports, -, hImages⟩ := image_of_compileProgram hCompile
  have hPackage : isName out.package := by
    rw [package_of_compileProgram hCompile]
    decide
  have hPaths : out.imports.all isName := List.all_eq_true.mpr fun path hPath =>
    isName_of_mem_packages (hImports ▸ hPath)
  have hFunctions : out.functions.all Function.isPlain := by
    refine List.all_eq_true.mpr fun f' hf' => ?_
    obtain ⟨f, hf, hImage⟩ := exists_left_of_forall₂ hImages hf'
    obtain ⟨hHead, hBody⟩ := Source.scanned_of_parse hParse hf
    exact Function.isPlain_of_image (functions_not_keywords hImages) hHead hBody hImage
  rw [File.isPlain, hPackage, hPaths, hFunctions]
  rfl

theorem exists_file_of_compile {rules : List Rule} {file source text : String}
    (h : compile rules file source = .ok text) :
    ∃ p out, Source.parse file source = .ok p ∧ compileProgram rules p = .ok out ∧
      out.text = text := by
  obtain ⟨p, hParse, hTree⟩ := bind_eq_ok.mp h
  unfold compileTree at hTree
  split at hTree
  · rename_i out hCompile
    exact ⟨p, out, hParse, hCompile, Except.ok.inj hTree⟩
  · cases hTree

/-- **Compiled texts.** Two source texts that are compiled to the same text are compiled to the
same file: packages, imports, functions and all statements are told by the text. -/
theorem compile_injective {rules rules' : List Rule} {file file' source source' text : String}
    (h : compile rules file source = .ok text) (h' : compile rules' file' source' = .ok text) :
    ∃ p p' out, Source.parse file source = .ok p ∧ Source.parse file' source' = .ok p' ∧
      compileProgram rules p = .ok out ∧ compileProgram rules' p' = .ok out ∧ out.text = text := by
  obtain ⟨p, out, hParse, hCompile, hText⟩ := exists_file_of_compile h
  obtain ⟨p', out', hParse', hCompile', hText'⟩ := exists_file_of_compile h'
  have hPlain := File.isPlain_of_compileProgram hParse hCompile
  have hPlain' := File.isPlain_of_compileProgram hParse' hCompile'
  obtain rfl := File.text_injective hPlain hPlain' (hText.trans hText'.symm)
  exact ⟨p, p', out, hParse, hParse', hCompile, hCompile', hText⟩

/-- A source text with a chained alternative and an empty body. -/
def chainedSource : String :=
  "int f(int a) \x7b if (a) return -a; else if (a < 1) \x7b \x7d return 1 - (2 - a); \x7d"

/-- The same with other braces, parentheses and blanks. -/
def chainedSource' : String :=
  "int f(int a)\x7bif(a)\x7breturn-(a);\x7delse if((a)<1)\x7b\x7dreturn 1-(2-a);\x7d"

theorem compile_injective_chained :
    ∃ text p p' out, compile Rule.standard "a.c" chainedSource = .ok text ∧
      compile Rule.standard "b.c" chainedSource' = .ok text ∧
      Source.parse "a.c" chainedSource = .ok p ∧ Source.parse "b.c" chainedSource' = .ok p' ∧
      compileProgram Rule.standard p = .ok out ∧ compileProgram Rule.standard p' = .ok out ∧
      out.text = text := by
  have hChecked : (compile Rule.standard "a.c" chainedSource).toOption.any fun text =>
      (compile Rule.standard "b.c" chainedSource').toOption = some text := by decide +kernel
  obtain ⟨text, hText, hOther⟩ := exists_eq_ok_of_any hChecked
  have hText' := eq_ok_of_toOption (of_decide_eq_true hOther)
  obtain ⟨p, p', out, hFile⟩ := compile_injective hText hText'
  exact ⟨text, p, p', out, hText, hText', hFile⟩

end CToGo.Target
