import CToGo.Proofs.Lowering.Image
import CToGo.Proofs.Meaning.Source
import CToGo.Proofs.Meaning.Target

/-!
# Values and variables agree

Where the source semantics defines the result of an operation, the target semantics has the
same one: what fits into 32 bits is not changed by wrapping around at 64. Variables are
compared in two ways. While an initializer is evaluated the declared name is in scope in the
source program only, so for expressions it is enough that what can be read is the same
(`Agrees`); between statements all variables correspond (`SameVariables`).

* `applyBinary_agrees`, `assigned_agrees`, `stepped_agrees`: operations.
* `SameVariables.agrees`, `SameVariables.agrees_declare`: the two comparisons.
-/

namespace CToGo

/-! ## Operations -/

theorem bmod_of_fits {n : Int} (h : Source.fits n) : n.bmod (2 ^ 64) = n := by
  have hRange := of_decide_eq_true h
  refine Int.bmod_eq_of_le_mul_two ?_ ?_
  · omega
  · omega

theorem represent_eq_ok {n : Int} {v : Datum} :
    Source.represent n = .ok v ↔ Source.fits n ∧ v = .int n := by
  unfold Source.represent
  split
  · rename_i hFits
    rw [Except.ok.injEq]
    exact ⟨fun h => ⟨hFits, h.symm⟩, fun h => h.2.symm⟩
  · rename_i hFits
    exact ⟨fun h => (nomatch h), fun h => absurd h.1 hFits⟩

theorem wrap_of_represent {n : Int} {v : Datum} (h : Source.represent n = .ok v) :
    Target.wrap n = v := by
  obtain ⟨hFits, rfl⟩ := represent_eq_ok.mp h
  rw [Target.wrap, bmod_of_fits hFits]

theorem literalValue_agrees {n : Int} {v : Datum} (h : Source.represent n = .ok v) :
    Target.literalValue n = .ok v := by
  obtain ⟨hFits, rfl⟩ := represent_eq_ok.mp h
  rw [Target.literalValue, if_pos (bmod_of_fits hFits)]

theorem defined_eq_ok {α : Type} {x : Option α} {a : α} :
    Source.defined x = .ok a ↔ x = some a := by
  cases x <;> simp [Source.defined]

theorem applyBinary_agrees {op : BinaryOp} {u v w : Datum}
    (h : Source.applyBinary op u v = .ok w) : Target.applyBinary op u v = .ok w := by
  cases u with
  | vector _ => cases h
  | int a =>
    cases v with
    | vector _ => cases h
    | int b =>
      obtain ⟨n, hExact, h⟩ := bind_eq_ok.mp h
      split at h
      · cases h
      · rw [defined_eq_ok] at hExact
        rw [Target.applyBinary, hExact, ← wrap_of_represent h]
        rfl

theorem applyNegate_agrees {v w : Datum} (h : Source.applyNegate v = .ok w) :
    Target.applyNegate v = .ok w := by
  cases v with
  | vector _ => cases h
  | int a =>
    rw [Target.applyNegate, wrap_of_represent h]

theorem stepped_agrees {op : UnaryOp} {v w : Datum} (h : Source.stepped op v = .ok w) :
    Target.stepped op v = .ok w := by
  obtain ⟨step, hStep, h⟩ := bind_eq_ok.mp h
  rw [defined_eq_ok] at hStep
  rw [Target.stepped, hStep]
  exact applyBinary_agrees h

/-! ## Reading -/

/-- What can be read in the source program is the same in the target program, and no variable
hides a function in one of them only. -/
structure Agrees (env : Source.Env) (env' : Target.Env) : Prop where
  value : ∀ x v, env.find? x = some (some v) → env'.find? x = some v
  absent : ∀ x, env.find? x = none → env'.find? x = none

theorem readVariable_eq_ok {env : Source.Env} {x : String} {v : Datum} :
    Source.readVariable env x = .ok v ↔ env.find? x = some (some v) := by
  unfold Source.readVariable
  split
  · rename_i w hw
    simp [hw]
  · rename_i hNone
    simp only [reduceCtorEq, false_iff]
    exact fun h => hNone v h

theorem Agrees.readVariable {env : Source.Env} {env' : Target.Env} (h : Agrees env env')
    {x : String} {v : Datum} (hv : Source.readVariable env x = .ok v) :
    Target.readVariable env' x = .ok v := by
  rw [Target.readVariable, h.value x v (readVariable_eq_ok.mp hv)]
  rfl

theorem Agrees.assigned {env : Source.Env} {env' : Target.Env} (h : Agrees env env')
    {op : AssignOp} {x : String} {v w : Datum} (hw : Source.assigned env op x v = .ok w) :
    Target.assigned env' op x v = .ok w := by
  unfold Source.assigned at hw
  unfold Target.assigned
  cases hop : op.binary? with
  | none =>
    rw [hop] at hw
    cases hw
    rfl
  | some binary =>
    rw [hop] at hw
    obtain ⟨u, hu, hw⟩ := bind_eq_ok.mp hw
    simp only [h.readVariable hu]
    exact applyBinary_agrees hw

/-! ## Corresponding variables -/

/-- The content of a target variable is that of the source variable, if it has one. -/
def Holds (content : Option Datum) (v : Datum) : Prop := ∀ w, content = some w → v = w

/-- The same variables, none of which has a reserved name. -/
abbrev SameVariables (ctx : Context) (env : Source.Env) (env' : Target.Env) : Prop :=
  Scopes.Related ctx.Allows Holds env env'

namespace SameVariables

variable {ctx : Context} {env env₁ : Source.Env} {env' : Target.Env} {x : String}

theorem agrees (h : SameVariables ctx env env') : Agrees env env' := by
  constructor
  · intro x v hv
    have hx := h.find? x
    rw [hv] at hx
    generalize env'.find? x = content at hx
    cases hx with
    | some hContent => rw [hContent.2 v rfl]
  · intro x hNone
    have hx := h.find? x
    rw [hNone] at hx
    generalize env'.find? x = content at hx
    cases hx with
    | none => rfl

/-- A name that is declared without a value cannot be read, so nothing else changes. -/
theorem agrees_declare (h : SameVariables ctx env env') (hx : env.declare? x none = some env₁) :
    Agrees env₁ env' := by
  obtain ⟨scope, rest, rfl, -, rfl⟩ := Scopes.declare?_eq_some.mp hx
  have hFind (y : String) : Scopes.find? y (((x, none) :: scope) :: rest) =
      if y = x then some none else Scopes.find? y (scope :: rest) := by
    simp only [Scopes.find?, List.lookup_cons]
    by_cases hy : y = x
    · simp [hy]
    · rw [beq_eq_false_iff_ne.mpr hy, if_neg hy]
  have hAgrees := h.agrees
  constructor
  · intro y v hv
    rw [hFind] at hv
    split at hv
    · cases hv
    · exact hAgrees.value y v hv
  · intro y hNone
    rw [hFind] at hNone
    split at hNone
    · cases hNone
    · exact hAgrees.absent y hNone

/-- The value of an initializer ends up in both variables. -/
theorem assign_declare (h : SameVariables ctx env env') (hAllows : ctx.Allows x)
    (hx : env.declare? x none = some env₁) {v : Datum} {env₂ : Source.Env}
    (hv : env₁.assign? x (some v) = some env₂) :
    ∃ env₂', env'.declare? x v = some env₂' ∧ SameVariables ctx env₂ env₂' := by
  have hDeclared : env.declare? x (some v) = some env₂ := by
    obtain ⟨scope, rest, rfl, hNew, rfl⟩ := Scopes.declare?_eq_some.mp hx
    refine Scopes.declare?_eq_some.mpr ⟨scope, rest, rfl, hNew, ?_⟩
    simpa [Scopes.assign?, Scopes.assignIn?, eq_comm] using hv
  have hRelated := h.declare? (x := x) (a := some v) (b := v) hAllows fun w hw => by
    cases hw
    rfl
  rw [hDeclared] at hRelated
  generalize env'.declare? x v = result at hRelated ⊢
  cases hRelated with
  | some hSame => exact ⟨_, rfl, hSame⟩

theorem declare (h : SameVariables ctx env env') (hAllows : ctx.Allows x)
    (hx : env.declare? x none = some env₁) (v : Datum) :
    ∃ env₁', env'.declare? x v = some env₁' ∧ SameVariables ctx env₁ env₁' := by
  have hRelated := h.declare? (x := x) (a := none) (b := v) hAllows fun w hw => nomatch hw
  rw [hx] at hRelated
  generalize env'.declare? x v = result at hRelated ⊢
  cases hRelated with
  | some hSame => exact ⟨_, rfl, hSame⟩

theorem assign (h : SameVariables ctx env env') {v : Datum}
    (hx : env.assign? x (some v) = some env₁) :
    ∃ env₁', env'.assign? x v = some env₁' ∧ SameVariables ctx env₁ env₁' := by
  have hRelated := h.assign? (x := x) (a := some v) (b := v) fun w hw => by
    cases hw
    rfl
  rw [hx] at hRelated
  generalize env'.assign? x v = result at hRelated ⊢
  cases hRelated with
  | some hSame => exact ⟨_, rfl, hSame⟩

/-- The variables of a function that has just been called. -/
theorem frame {xs : List String} {vs : List Datum} (hxs : ∀ x ∈ xs, ctx.Allows x)
    (h : Scopes.declareAll? xs (vs.map some) [[]] = some env) :
    ∃ env', Scopes.declareAll? xs vs [[]] = some env' ∧ SameVariables ctx env env' := by
  have hValues : List.Forall₂ Holds (vs.map some) vs := by
    rw [List.forall₂_map_left_iff, List.forall₂_same]
    intro v _ w hw
    cases hw
    rfl
  have hStart : SameVariables ctx [[]] [[]] := .cons .nil .nil
  have hRelated := hStart.declareAll? hxs hValues
  rw [h] at hRelated
  generalize Scopes.declareAll? xs vs [[]] = result at hRelated ⊢
  cases hRelated with
  | some hSame => exact ⟨_, rfl, hSame⟩

/-- A package that is imported is not hidden by a variable. -/
theorem sees (h : SameVariables ctx env env') {file : Target.File} {package : String}
    (hImports : file.imports = ctx.requirements.packages) (hPackage : package ∈ file.imports) :
    file.sees env' package := by
  have hRelated := h.find? package
  have hFind : env'.find? package = none := by
    generalize env.find? package = c at hRelated
    generalize env'.find? package = d at hRelated
    cases hRelated with
    | none => rfl
    | some hCell =>
      have hAllows := hCell.1
      rw [hImports] at hPackage
      unfold Context.Allows Context.reservedUse? at hAllows
      rw [if_pos hPackage] at hAllows
      split at hAllows
      · cases hAllows
      · split at hAllows
        · cases hAllows
        · cases hAllows
  simp [Target.File.sees, hPackage, hFind]

end SameVariables

end CToGo
