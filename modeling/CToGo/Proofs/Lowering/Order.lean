import CToGo.Proofs.Lowering.Walk
import Mathlib.Data.List.FinRange

/-!
# The order of functions

A function is lowered without regard to where it stands among the others: of those only the
names are looked at, and of a name only whether it is there. What is required depends on `main`,
which is found wherever it stands. So a program whose functions are put in another order has the
images of the same functions, in that order.

* `permuted`: a list in another order.
* `Context.Agree`: contexts that know the same functions, in whatever order.
* `Source.Function.lower_congr`: functions in such contexts.
* `requirements_perm`: what programs with the same functions require.
* `compileProgram_permuted`: **the image of a program in another order.**
-/

namespace CToGo

/-! ## Lists in another order -/

section

variable {α β : Type} {n : Nat} (σ : Equiv.Perm (Fin n))

/-- The list in another order: at place `i` stands what stood at place `σ i`. -/
def permuted (xs : List α) : List α := (List.finRange n).filterMap fun i => xs[(σ i).val]?

theorem permuted_perm {xs : List α} (h : xs.length = n) : (permuted σ xs).Perm xs := by
  subst h
  have hPlaces : permuted σ xs = ((List.finRange xs.length).map σ).filterMap (xs[·.val]?) := by
    rw [permuted, List.filterMap_map]
    rfl
  have hAll : (List.finRange xs.length).filterMap (xs[·.val]?) = xs := by
    have hSome : (fun i : Fin xs.length => xs[i.val]?) = some ∘ xs.get := by
      funext i
      simp
    rw [hSome, List.filterMap_eq_map, List.map_get_finRange]
  rw [hPlaces]
  exact (σ.map_finRange_perm.filterMap _).trans (.of_eq hAll)

theorem forall₂_permuted {R : α → β → Prop} {xs : List α} {ys : List β}
    (h : List.Forall₂ R xs ys) : List.Forall₂ R (permuted σ xs) (permuted σ ys) := by
  have hAt (k : Nat) : Option.Rel R xs[k]? ys[k]? := by
    induction h generalizing k with
    | nil => exact .none
    | cons hHead _ ih =>
      cases k with
      | zero => exact .some hHead
      | succ k => exact ih k
  unfold permuted
  induction List.finRange n with
  | nil => exact .nil
  | cons i rest ih =>
    have hItem := hAt (σ i).val
    rw [List.filterMap_cons, List.filterMap_cons]
    generalize xs[(σ i).val]? = x at hItem
    generalize ys[(σ i).val]? = y at hItem
    cases hItem with
    | some hPair => exact .cons hPair ih
    | none => exact ih

end

/-! ## Contexts -/

/-- The same services are required and the same functions are defined, in whatever order. -/
structure Context.Agree (ctx ctx' : Context) : Prop where
  requirements : ctx.requirements = ctx'.requirements
  functions : ∀ x, x ∈ ctx.functions ↔ x ∈ ctx'.functions

theorem Context.Agree.checkName {ctx ctx' : Context} (h : ctx.Agree ctx') :
    ctx.checkName = ctx'.checkName := by
  funext x location
  rw [Context.checkName, Context.checkName, Context.reservedUse?, Context.reservedUse?,
    h.requirements]

theorem Context.Agree.checkFunctionName {ctx ctx' : Context} (h : ctx.Agree ctx') :
    ctx.checkFunctionName = ctx'.checkFunctionName := by
  funext x location
  rw [Context.checkFunctionName, Context.checkFunctionName, Context.reservedFunctionUse?,
    Context.reservedFunctionUse?, Context.reservedUse?, Context.reservedUse?, h.requirements]

namespace Source

variable {ctx ctx' : Context}

mutual

theorem Expr.lower_congr (h : ctx.Agree ctx') : (e : Expr) → e.lower ctx = e.lower ctx'
  | .literal .. => rfl
  | .ident .. => by rw [Expr.lower, Expr.lower, h.checkName]
  | .binary _ left right _ => by
    rw [Expr.lower, Expr.lower, left.lower_congr h, right.lower_congr h]
  | .unary .negate operand _ _ => by rw [Expr.lower, Expr.lower, operand.lower_congr h]
  | .unary .increment .. => rfl
  | .unary .decrement .. => rfl
  | .call callee args _ => by
    rw [Expr.lower, Expr.lower, lowerEach_congr h args]
    simp only [h.functions callee]
  | .assign .. => rfl

theorem lowerEach_congr (h : ctx.Agree ctx') : (es : List Expr) →
    lowerEach ctx es = lowerEach ctx' es
  | [] => rfl
  | e :: rest => by rw [lowerEach, lowerEach, e.lower_congr h, lowerEach_congr h rest]

end

theorem Expr.lowerEffect_congr (h : ctx.Agree ctx') (e : Expr) :
    e.lowerEffect ctx = e.lowerEffect ctx' := by
  unfold Expr.lowerEffect
  simp only [h.checkName, Expr.lower_congr h]

theorem lowerLeave_congr (h : ctx.Agree ctx') (inMain : Bool) (value : Option Expr) :
    lowerLeave ctx inMain value = lowerLeave ctx' inMain value := by
  cases value with
  | none => rfl
  | some e => rw [lowerLeave, lowerLeave, e.lower_congr h]

theorem lowerDeclaration_congr (h : ctx.Agree ctx') (x : String) (ty : Ty)
    (init : Option Expr) (location : Location) :
    lowerDeclaration ctx x ty init location = lowerDeclaration ctx' x ty init location := by
  unfold lowerDeclaration
  simp only [h.checkName, Expr.lower_congr h]

mutual

theorem Stmt.lower_congr (h : ctx.Agree ctx') (inMain : Bool) : (s : Stmt) →
    s.lower ctx inMain = s.lower ctx' inMain
  | .declare x ty init span => lowerDeclaration_congr h x ty init span.start
  | .eval e _ => e.lowerEffect_congr h
  | .branch condition thenBlock elseBranch _ => by
    rw [Stmt.lower, Stmt.lower, elseBranch.lower_congr h inMain, condition.lower_congr h,
      thenBlock.lower_congr h inMain]
  | .loop condition body _ => by
    rw [Stmt.lower, Stmt.lower, condition.lower_congr h, body.lower_congr h inMain]
  | .leave value _ => lowerLeave_congr h inMain value
  | .block body _ => by rw [Stmt.lower, Stmt.lower, body.lower_congr h inMain]

theorem Block.lower_congr (h : ctx.Agree ctx') (inMain : Bool) : (b : Block) →
    b.lower ctx inMain = b.lower ctx' inMain
  | .mk stmts _ => lowerAll_congr h inMain stmts

theorem Else.lower_congr (h : ctx.Agree ctx') (inMain : Bool) : (alt : Else) →
    alt.lower ctx inMain = alt.lower ctx' inMain
  | .none => rfl
  | .block body => by rw [Else.lower, Else.lower, body.lower_congr h inMain]
  | .chain next => by rw [Else.lower, Else.lower, next.lower_congr h inMain]

theorem lowerAll_congr (h : ctx.Agree ctx') (inMain : Bool) : (ss : List Stmt) →
    lowerAll ctx inMain ss = lowerAll ctx' inMain ss
  | [] => rfl
  | s :: rest => by rw [lowerAll, lowerAll, s.lower_congr h inMain, lowerAll_congr h inMain rest]

end

/-- Of the other functions a function sees their names, and not their order. -/
theorem Function.lower_congr (h : ctx.Agree ctx') (f : Function) : f.lower ctx = f.lower ctx' := by
  have hEntry : f.lowerEntry ctx = f.lowerEntry ctx' := by
    unfold Function.lowerEntry entryBindings
    simp only [h.checkName, f.body.lower_congr h]
  have hPlain : f.lowerPlain ctx = f.lowerPlain ctx' := by
    unfold Function.lowerPlain Param.lower
    simp only [h.checkName, f.body.lower_congr h]
  rw [Function.lower, Function.lower, h.checkFunctionName, hEntry, hPlain]

end Source

/-! ## Programs with the same functions -/

section

variable {p q : Source.Program} (hPerm : q.functions.Perm p.functions)

include hPerm

theorem length_mains_perm :
    (q.functions.filter (·.isMain)).length = (p.functions.filter (·.isMain)).length :=
  (hPerm.filter _).length_eq

/-- Where there is but one `main`, it is found wherever it stands. -/
theorem main?_perm (hSingle : (p.functions.filter (·.isMain)).length ≤ 1) :
    q.main? = p.main? := by
  have hMains := hPerm.filter (·.isMain)
  rw [Source.Program.main?, Source.Program.main?, ← List.head?_filter, ← List.head?_filter]
  rcases hFilter : p.functions.filter (·.isMain) with _ | ⟨main, _ | ⟨second, rest⟩⟩
  · rw [hFilter] at hMains
    rw [hMains.eq_nil, hFilter]
  · rw [hFilter] at hMains
    rw [hMains.eq_singleton, hFilter]
  · simp [hFilter] at hSingle

theorem requirements_perm (hSingle : (p.functions.filter (·.isMain)).length ≤ 1)
    (rules : List Rule) : requirements rules q = requirements rules p := by
  unfold requirements Rule.holds
  rw [main?_perm hPerm hSingle]

theorem context_perm (hSingle : (p.functions.filter (·.isMain)).length ≤ 1)
    (rules : List Rule) : (p.context rules).Agree (q.context rules) where
  requirements := (requirements_perm hPerm hSingle rules).symm
  functions _ := ((hPerm.map _).mem_iff).symm

end

theorem compileProgram_eq_ok_iff {rules : List Rule} {p : Source.Program} {file : Target.File} :
    compileProgram rules p = .ok file ↔
      (p.functions.filter (·.isMain)).length ≤ 1 ∧
      ∃ functions, file = ⟨"main", (requirements rules p).packages, functions⟩ ∧
        List.Forall₂ (fun f f' => f.lower (p.context rules) = .ok f') p.functions functions := by
  unfold compileProgram Source.Program.lower
  constructor
  · intro h
    obtain ⟨_, hSingle, h⟩ := bind_eq_ok.mp h
    obtain ⟨functions, hFunctions, hEq⟩ := bind_eq_ok.mp h
    cases hEq
    exact ⟨checkSingleMain_eq_ok.mp hSingle, functions, rfl, forall₂_of_mapM hFunctions⟩
  · rintro ⟨hSingle, functions, rfl, hFunctions⟩
    refine bind_eq_ok.mpr ⟨(), checkSingleMain_eq_ok.mpr hSingle, ?_⟩
    exact bind_eq_ok.mpr ⟨functions, mapM_of_forall₂ hFunctions, rfl⟩

/-- **The order of functions is kept and does not matter.** If a program is compiled, it is
compiled with its functions in any other order as well, and the file differs in nothing but that
its functions, one for each of the program, are in this other order. -/
theorem compileProgram_permuted (rules : List Rule) {p : Source.Program} {file : Target.File}
    (h : compileProgram rules p = .ok file) (σ : Equiv.Perm (Fin p.functions.length)) :
    file.functions.length = p.functions.length ∧
      compileProgram rules { p with functions := permuted σ p.functions } =
        .ok { file with functions := permuted σ file.functions } := by
  obtain ⟨hSingle, functions, rfl, hFunctions⟩ := compileProgram_eq_ok_iff.mp h
  refine ⟨hFunctions.length_eq.symm, ?_⟩
  generalize hq : { p with functions := permuted σ p.functions } = q
  have hPerm : q.functions.Perm p.functions := by
    rw [← hq]
    exact permuted_perm σ rfl
  refine compileProgram_eq_ok_iff.mpr ⟨?_, permuted σ functions, ?_, ?_⟩
  · rw [length_mains_perm hPerm]
    exact hSingle
  · rw [requirements_perm hPerm hSingle]
  · have hAgree := context_perm hPerm hSingle rules
    rw [← hq]
    refine forall₂_permuted σ (hFunctions.imp fun f f' hLower => ?_)
    rw [hq, ← f.lower_congr hAgree]
    exact hLower

/-- The first two functions change places. -/
def mainFirst : Equiv.Perm (Fin mainBetween.functions.length) :=
  Equiv.swap ⟨0, by decide⟩ ⟨1, by decide⟩

theorem compileProgram_permuted_mainFirst :
    ∃ file, compileProgram Rule.standard mainBetween = .ok file ∧
      (permuted mainFirst mainBetween.functions).map (·.name) = ["main", "f", "g"] ∧
      file.functions.length = 3 ∧
      compileProgram Rule.standard
        { mainBetween with functions := permuted mainFirst mainBetween.functions } =
        .ok { file with functions := permuted mainFirst file.functions } := by
  obtain ⟨file, hFile⟩ : ∃ file, compileProgram Rule.standard mainBetween = .ok file :=
    exists_eq_ok (by decide +kernel)
  exact ⟨file, hFile, by decide, compileProgram_permuted Rule.standard hFile mainFirst⟩

end CToGo
