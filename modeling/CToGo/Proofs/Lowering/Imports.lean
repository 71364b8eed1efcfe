import CToGo.Proofs.Lowering.Occurrence

/-!
# Imports of compiled programs

Two traversals have to agree: the rules look at the source program and decide what is
imported, while lowering decides where a name of a package is used.

* `contains_requirements`: the services that a list of rules asks for.
* `Source.Expr.Image.no_selector`: the image of a source expression names no package.
* `imports_iff_used`: a compiled program imports what it uses and nothing else.
-/

namespace CToGo

open Source (Span)

/-! ## Requirements -/

theorem Requirements.contains_ofList {services : List Service} {s : Service} :
    (Requirements.ofList services).contains s ↔ s ∈ services := by
  have hFold (services : List Service) (start : Requirements) :
      (services.foldl Requirements.insert start).contains s ↔
        s ∈ services ∨ start.contains s := by
    induction services generalizing start with
    | nil => simp
    | cons t services ih =>
      rw [List.foldl_cons, ih, Requirements.contains_insert]
      simp [or_assoc, or_left_comm]
  rw [Requirements.ofList, hFold, Requirements.empty]
  simp

theorem contains_requirements {rules : List Rule} {p : Source.Program} {s : Service} :
    (requirements rules p).contains s ↔ ∃ r ∈ rules, r.holds p ∧ r.service = s := by
  simp [requirements, Requirements.contains_ofList, and_assoc]

theorem contains_requirements_of_mem {rules : List Rule} {r : Rule} (hr : r ∈ rules)
    (p : Source.Program) : (requirements rules p).contains r.service ↔ r.holds p := by
  rw [contains_requirements]
  constructor
  · rintro ⟨r', -, hHolds, hService⟩
    have hEq : r' = r := by
      cases r <;> cases r' <;> first | rfl | cases hService
    exact hEq ▸ hHolds
  · intro hHolds
    exact ⟨r, hr, hHolds, rfl⟩

/-- All services come from the same package. -/
theorem Requirements.packages_eq (s : Requirements) :
    s.packages = if s.contains .processArguments ∨ s.contains .processExit then ["os"] else [] := by
  have hOne : ["os"].eraseDups = ["os"] := by decide
  have hTwo : ["os", "os"].eraseDups = ["os"] := by decide
  cases hArguments : s.contains .processArguments <;> cases hExit : s.contains .processExit <;>
    simp [Requirements.packages, Requirements.toList, Service.all, hArguments, hExit,
      Service.package, hOne, hTwo]

/-! ## The entry of a program -/

theorem Source.Program.main?_eq_some {p : Source.Program}
    (hSingle : (p.functions.filter (·.isMain)).length ≤ 1) {f : Source.Function}
    (hf : f ∈ p.functions) (hMain : f.isMain) : p.main? = some f := by
  have hMem : f ∈ p.functions.filter (·.isMain) := List.mem_filter.mpr ⟨hf, hMain⟩
  unfold Source.Program.main?
  rw [← List.head?_filter]
  cases hFilter : p.functions.filter (·.isMain) with
  | nil =>
    rw [hFilter] at hMem
    cases hMem
  | cons g rest =>
    rw [hFilter] at hMem hSingle
    have hRest : rest = [] := by simpa using hSingle
    rw [hRest, List.mem_singleton] at hMem
    rw [hMem, List.head?_cons]

theorem BindingsImage.eq_nil_or {ctx : Context} {f : Source.Function}
    {bindings : List Target.Stmt} (h : BindingsImage ctx f.params bindings) :
    (bindings = [] ∧ Rule.argumentVector.holdsOfMain f = false) ∨
      ∃ count vector, bindings = bindArguments count vector ∧
        Rule.argumentVector.holdsOfMain f = true := by
  generalize hParams : f.params = params at h
  cases h with
  | plain => exact .inl ⟨rfl, by simp [Rule.holdsOfMain, EntryForm.of?, hParams]⟩
  | @arguments count vector hCount hVector =>
    refine .inr ⟨count.name, vector.name, rfl, ?_⟩
    simp [Rule.holdsOfMain, EntryForm.of?, hParams, hCount, hVector]

/-! ## Names of packages -/

namespace Target

mutual

/-- An expression and all expressions that it is built from. -/
def Expr.parts : Expr → List Expr
  | .literal value => [.literal value]
  | .ident name => [.ident name]
  | .selector package name => [.selector package name]
  | .binary op left right => .binary op left right :: (left.parts ++ right.parts)
  | .unary op operand => .unary op operand :: operand.parts
  | .call function args => .call function args :: (function.parts ++ partsOfEach args)

def partsOfEach : List Expr → List Expr
  | [] => []
  | e :: rest => e.parts ++ partsOfEach rest

end

/-- Somewhere in the expressions a name of the package occurs. -/
def Names (package : String) (es : List Expr) : Prop :=
  ∃ e ∈ es, ∃ name, Expr.selector package name ∈ e.parts

/-- Somewhere in the expressions the process is ended. -/
def CallsExit (es : List Expr) : Prop :=
  ∃ e ∈ es, ∃ args, Expr.call (.selector "os" "Exit") args ∈ e.parts

theorem Expr.self_mem_parts (e : Expr) : e ∈ e.parts := by
  cases e <;> simp [Expr.parts]

mutual

theorem function_mem_parts {f : Expr} {args : List Expr} :
    (e : Expr) → Expr.call f args ∈ e.parts → f ∈ e.parts
  | .literal _, h => by simp [Expr.parts] at h
  | .ident _, h => by simp [Expr.parts] at h
  | .selector .., h => by simp [Expr.parts] at h
  | .binary op a b, h => by
    simp only [Expr.parts, List.mem_cons, reduceCtorEq, false_or, List.mem_append] at h ⊢
    exact .inr (h.imp (function_mem_parts a) (function_mem_parts b))
  | .unary op e, h => by
    simp only [Expr.parts, List.mem_cons, reduceCtorEq, false_or] at h ⊢
    exact .inr (function_mem_parts e h)
  | .call g es, h => by
    simp only [Expr.parts, List.mem_cons, Expr.call.injEq, List.mem_append] at h ⊢
    rcases h with ⟨rfl, -⟩ | h | h
    · exact .inr (.inl f.self_mem_parts)
    · exact .inr (.inl (function_mem_parts g h))
    · exact .inr (.inr (function_mem_partsOfEach es h))

theorem function_mem_partsOfEach {f : Expr} {args : List Expr} :
    (es : List Expr) → Expr.call f args ∈ partsOfEach es → f ∈ partsOfEach es
  | [], h => by cases h
  | e :: es, h => by
    simp only [partsOfEach, List.mem_append] at h ⊢
    exact h.imp (function_mem_parts e) (function_mem_partsOfEach es)

end

theorem CallsExit.names {es : List Expr} (h : CallsExit es) : Names "os" es := by
  obtain ⟨e, he, args, hCall⟩ := h
  exact ⟨e, he, "Exit", function_mem_parts e hCall⟩

theorem names_append {package : String} {es fs : List Expr} :
    Names package (es ++ fs) ↔ Names package es ∨ Names package fs := by
  simp [Names, or_and_right, exists_or]

theorem callsExit_append {es fs : List Expr} :
    CallsExit (es ++ fs) ↔ CallsExit es ∨ CallsExit fs := by
  simp [CallsExit, or_and_right, exists_or]

end Target

mutual

theorem Source.Expr.Image.no_selector {ctx : Context} {e : Source.Expr} {e' : Target.Expr}
    {package name : String} : e.Image ctx e' → Target.Expr.selector package name ∉ e'.parts
  | .literal .. => by simp [Target.Expr.parts]
  | .ident _ => by simp [Target.Expr.parts]
  | .binary ha hb => by simp [Target.Expr.parts, ha.no_selector, hb.no_selector]
  | .negate he => by simp [Target.Expr.parts, he.no_selector]
  | .call _ hargs => by simp [Target.Expr.parts, hargs.no_selector]

theorem ImageEach.no_selector {ctx : Context} {es : List Source.Expr} {es' : List Target.Expr}
    {package name : String} :
    ImageEach ctx es es' → Target.Expr.selector package name ∉ Target.partsOfEach es'
  | .nil => by simp [Target.partsOfEach]
  | .cons he hes => by simp [Target.partsOfEach, he.no_selector, hes.no_selector]

end

/-- Of the expressions of a body, only those that end the process name a package. -/
theorem Uses.of_names {ctx : Context} {inMain : Bool} {s : Source.Stmt} {x : Target.Expr}
    {package name : String} (h : Uses ctx inMain s x)
    (hx : Target.Expr.selector package name ∈ x.parts) :
    inMain = true ∧ s.leavesWithValue ∧ package = "os" ∧ ∃ args, x =
      .call (.selector "os" "Exit") args := by
  cases h with
  | init he => exact absurd hx he.no_selector
  | assigned he => exact absurd hx he.no_selector
  | evaluated he => exact absurd hx he.no_selector
  | branch hc => exact absurd hx hc.no_selector
  | loop hc => exact absurd hx hc.no_selector
  | result he => exact absurd hx he.no_selector
  | status hMain he =>
    simp only [Target.Expr.parts, Target.partsOfEach, List.mem_cons, List.mem_append,
      he.no_selector, reduceCtorEq, Target.Expr.selector.injEq, List.not_mem_nil, or_false,
      false_or] at hx
    exact ⟨hMain, rfl, hx.1, _, rfl⟩

theorem Source.Function.mem_walk_of_stmts {f : Source.Function} {s : Source.Stmt}
    (h : s ∈ Source.walkAll f.body.stmts) : s ∈ f.body.walk := by
  cases hb : f.body with
  | mk ss span => rwa [hb] at h

theorem ImageAll.mainExit_of_names {ctx : Context} {f : Source.Function} {inMain : Bool}
    {body : List Target.Stmt} {package : String}
    (h : ImageAll ctx inMain f.body.stmts body)
    (hNames : Target.Names package (Target.exprsOf body)) :
    inMain = true ∧ Rule.mainExit.holdsOfMain f ∧ package = "os" := by
  obtain ⟨x, hx, name, hName⟩ := hNames
  obtain ⟨s, hs, hUses⟩ := h.exists_uses hx
  obtain ⟨hMain, hLeaves, hPackage, -⟩ := hUses.of_names hName
  refine ⟨hMain, ?_, hPackage⟩
  exact List.any_eq_true.mpr ⟨s, Source.Function.mem_walk_of_stmts hs, hLeaves⟩

theorem ImageAll.callsExit {ctx : Context} {f : Source.Function} {body : List Target.Stmt}
    (h : ImageAll ctx true f.body.stmts body) (hExit : Rule.mainExit.holdsOfMain f) :
    Target.CallsExit (Target.exprsOf body) := by
  obtain ⟨s, hs, hLeaves⟩ := List.any_eq_true.mp hExit
  have hs : s ∈ Source.walkAll f.body.stmts := by
    cases hb : f.body with
    | mk ss span => rwa [hb] at hs
  obtain ⟨status, hStatus⟩ := h.exits hs hLeaves
  exact ⟨_, hStatus, _, Target.Expr.self_mem_parts _⟩

/-! ## Bindings -/

theorem names_bindArguments (count vector : String) :
    Target.Names "os" (Target.exprsOf (bindArguments count vector)) := by
  refine ⟨processArguments, ?_, "Args", Target.Expr.self_mem_parts _⟩
  simp [bindArguments, Target.exprsOf, Target.Stmt.exprs]

theorem not_callsExit_bindArguments (count vector : String) :
    ¬ Target.CallsExit (Target.exprsOf (bindArguments count vector)) := by
  simp [Target.CallsExit, bindArguments, processArguments, Target.exprsOf, Target.Stmt.exprs,
    Target.Expr.parts, Target.partsOfEach]

theorem ImageAll.not_bindArguments {ctx : Context} {inMain : Bool} {ss : List Source.Stmt}
    {body : List Target.Stmt} (h : ImageAll ctx inMain ss body) (count vector : String) :
    ¬ bindArguments count vector <+: body := by
  rintro ⟨rest, rfl⟩
  have hCount : Target.Expr.call (.ident "len") [processArguments] ∈
      Target.exprsOf (bindArguments count vector ++ rest) := by
    simp [bindArguments, Target.exprsOf, Target.Stmt.exprs]
  obtain ⟨s, -, hUses⟩ := h.exists_uses hCount
  have hArgs : processArguments ∈ (Target.Expr.call (.ident "len") [processArguments]).parts := by
    simp [Target.Expr.parts, Target.partsOfEach, Target.Expr.self_mem_parts]
  obtain ⟨-, -, -, args, hCall⟩ := hUses.of_names hArgs
  cases hCall

/-- What the rules see in `main` is what its image shows. -/
theorem Source.Function.Image.entry_iff {ctx : Context} {f : Source.Function}
    {f' : Target.Function} (hMain : f.isMain) (h : f.Image ctx f') :
    (Rule.argumentVector.holdsOfMain f ↔ ∃ count vector, bindArguments count vector <+: f'.body) ∧
    (Rule.mainExit.holdsOfMain f ↔ Target.CallsExit (Target.exprsOf f'.body)) ∧
    (Target.Names "os" (Target.exprsOf f'.body) →
      Rule.argumentVector.holdsOfMain f ∨ Rule.mainExit.holdsOfMain f) := by
  cases h with
  | plain hNotMain => exact absurd hMain hNotMain
  | @entry bindings body _ _ _ hBindings hBody =>
    have hExit : Target.CallsExit (Target.exprsOf body) → Rule.mainExit.holdsOfMain f :=
      fun h => (hBody.mainExit_of_names h.names).2.1
    rw [Target.exprsOf_append, Target.callsExit_append, Target.names_append]
    rcases hBindings.eq_nil_or with ⟨rfl, hRule⟩ | ⟨count, vector, rfl, hRule⟩
    · have hNone : ¬ Target.CallsExit (Target.exprsOf []) := by
        simp [Target.CallsExit, Target.exprsOf]
      refine ⟨?_, ⟨fun h => .inr (hBody.callsExit h), ?_⟩, ?_⟩
      · rw [hRule]
        refine ⟨fun h => absurd h Bool.false_ne_true, ?_⟩
        rintro ⟨count, vector, hStarts⟩
        exact absurd hStarts (hBody.not_bindArguments count vector)
      · exact fun h => hExit (h.resolve_left hNone)
      · rintro (⟨e, he, -⟩ | h)
        · cases he
        · exact .inr (hBody.mainExit_of_names h).2.1
    · refine ⟨⟨fun _ => ⟨count, vector, body, rfl⟩, fun _ => hRule⟩, ?_, fun _ => .inl hRule⟩
      refine ⟨fun h => .inr (hBody.callsExit h), fun h => ?_⟩
      exact hExit (h.resolve_left (not_callsExit_bindArguments count vector))

theorem Source.Function.Image.not_names {ctx : Context} {f : Source.Function}
    {f' : Target.Function} (hMain : ¬ f.isMain) (h : f.Image ctx f') (package : String) :
    ¬ Target.Names package (Target.exprsOf f'.body) := by
  intro hNames
  cases h with
  | entry hIsMain => exact hMain hIsMain
  | plain _ _ _ _ hBody => cases (hBody.mainExit_of_names hNames).1

theorem Source.Function.Image.name_eq {ctx : Context} {f : Source.Function}
    {f' : Target.Function} (h : f.Image ctx f') : f'.name = f.name := by
  cases h <;> rfl

/-! ## Programs -/

theorem exists_main_iff {rules : List Rule} {p : Source.Program} {file : Target.File}
    (h : compileProgram rules p = .ok file) {r : Rule} (hr : r ∈ rules)
    {P : Target.Function → Prop}
    (hP : ∀ f f', f.isMain → f.Image (p.context rules) f' → (r.holdsOfMain f ↔ P f')) :
    (requirements rules p).contains r.service ↔
      ∃ f' ∈ file.functions, f'.name = "main" ∧ P f' := by
  obtain ⟨-, hSingle, hImages⟩ := image_of_compileProgram h
  rw [contains_requirements_of_mem hr, Rule.holds, Option.any_eq_true]
  constructor
  · rintro ⟨f, hf, hHolds⟩
    have hMain : f.isMain := List.find?_some (p := Source.Function.isMain) hf
    obtain ⟨f', hf', hImage⟩ := exists_right_of_forall₂ hImages (List.mem_of_find?_eq_some hf)
    refine ⟨f', hf', ?_, (hP f f' hMain hImage).mp hHolds⟩
    rw [hImage.name_eq]
    exact beq_iff_eq.mp hMain
  · rintro ⟨f', hf', hName, hf'P⟩
    obtain ⟨f, hf, hImage⟩ := exists_left_of_forall₂ hImages hf'
    rw [hImage.name_eq] at hName
    have hMain : f.isMain := beq_iff_eq.mpr hName
    exact ⟨f, Source.Program.main?_eq_some hSingle hf hMain, (hP f f' hMain hImage).mpr hf'P⟩

/-- **Imports.** If the rules for both services are among the given ones, a compiled program
imports `os` exactly if one of its expressions names it. The service for arguments is required
exactly if the body of `main` begins with the bindings, and the one for exits exactly if the
body of `main` ends the process somewhere. -/
theorem imports_iff_used {rules : List Rule} (hArguments : .argumentVector ∈ rules)
    (hExit : .mainExit ∈ rules) {p : Source.Program} {file : Target.File}
    (h : compileProgram rules p = .ok file) :
    (Target.Names "os" file.exprs → file.imports = ["os"]) ∧
    (¬ Target.Names "os" file.exprs → file.imports = []) ∧
    ((requirements rules p).contains .processArguments ↔
      ∃ f ∈ file.functions, f.name = "main" ∧
        ∃ count vector, bindArguments count vector <+: f.body) ∧
    ((requirements rules p).contains .processExit ↔
      ∃ f ∈ file.functions, f.name = "main" ∧ Target.CallsExit (Target.exprsOf f.body)) := by
  have hBindings := exists_main_iff h hArguments fun f f' hMain hImage =>
    (hImage.entry_iff hMain).1
  have hCalls := exists_main_iff h hExit fun f f' hMain hImage => (hImage.entry_iff hMain).2.1
  obtain ⟨hImports, hSingle, hImages⟩ := image_of_compileProgram h
  rw [hImports, Requirements.packages_eq]
  refine ⟨fun hNames => if_pos ?_, fun hNames => if_neg ?_, hBindings, hCalls⟩
  · obtain ⟨e, he, name, hName⟩ := hNames
    obtain ⟨f', hf', he⟩ := List.mem_flatMap.mp he
    obtain ⟨f, hf, hImage⟩ := exists_left_of_forall₂ hImages hf'
    have hUsed : Target.Names "os" (Target.exprsOf f'.body) := ⟨e, he, name, hName⟩
    have hMain : f.isMain := Classical.byContradiction fun hNot => hImage.not_names hNot _ hUsed
    have hFound := Source.Program.main?_eq_some hSingle hf hMain
    refine ((hImage.entry_iff hMain).2.2 hUsed).imp (fun hHolds => ?_) fun hHolds => ?_
    · exact (contains_requirements_of_mem hArguments p).mpr (by simp [Rule.holds, hFound, hHolds])
    · exact (contains_requirements_of_mem hExit p).mpr (by simp [Rule.holds, hFound, hHolds])
  · rintro (hRequired | hRequired)
    · obtain ⟨f', hf', -, count, vector, rest, hBody⟩ := hBindings.mp hRequired
      obtain ⟨e, he, hName⟩ := names_bindArguments count vector
      refine hNames ⟨e, List.mem_flatMap.mpr ⟨f', hf', ?_⟩, hName⟩
      rw [← hBody, Target.exprsOf_append]
      exact List.mem_append_left _ he
    · obtain ⟨f', hf', -, hCalled⟩ := hCalls.mp hRequired
      obtain ⟨e, he, hName⟩ := hCalled.names
      exact hNames ⟨e, List.mem_flatMap.mpr ⟨f', hf', he⟩, hName⟩

/-- A program that takes the process arguments and returns their number from inside a loop. -/
def argumentLoop : Source.Program where
  functions := [{
    name := "main"
    params := [⟨"n", .int, default⟩, ⟨"v", .pointer (.pointer .char), default⟩]
    returns := .int
    body := .mk [.loop (.ident "n" default)
      (.mk [.leave (some (.ident "n" default)) default] default) default] default
    span := default }]
  span := default

theorem imports_iff_used_argumentLoop :
    ∃ file, compileProgram [.mainExit, .argumentVector, .mainExit] argumentLoop = .ok file ∧
      file.imports = ["os"] ∧
      (∃ f ∈ file.functions, f.name = "main" ∧
        ∃ count vector, bindArguments count vector <+: f.body) ∧
      ∃ f ∈ file.functions, f.name = "main" ∧ Target.CallsExit (Target.exprsOf f.body) := by
  obtain ⟨file, hFile⟩ :
      ∃ file, compileProgram [.mainExit, .argumentVector, .mainExit] argumentLoop = .ok file :=
    exists_eq_ok (by decide +kernel)
  obtain ⟨hUsed, -, hBindings, hCalls⟩ := imports_iff_used (by decide) (by decide) hFile
  obtain ⟨f, hf, hName, hCalled⟩ := hCalls.mp (by decide)
  obtain ⟨e, he, hNames⟩ := hCalled.names
  refine ⟨file, hFile, hUsed ?_, hBindings.mp (by decide), f, hf, hName, hCalled⟩
  exact ⟨e, List.mem_flatMap.mpr ⟨f, hf, he⟩, hNames⟩

end CToGo
