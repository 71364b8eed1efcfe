import CToGo.Operator
import Mathlib.Data.List.Forall2
import Mathlib.Data.Option.Defs

/-!
# Values and variables

What source and target programs have in common when they run: the values, the operators on
them before a result is brought into the range of a type, and variables that live in nested
blocks.

* `Datum`: integers and the vector of process arguments.
* `Scopes`: the variables of each block, the innermost block first.
* `Scopes.Related`: two sets of variables with the same names and related contents. Looking
  up, declaring and assigning respect it.
-/

namespace CToGo

/-! ## Values -/

/-- What a variable can hold. -/
inductive Datum where
  | int (n : Int)
  /-- The vector of process arguments, which can be passed on but not computed with. -/
  | vector (args : List String)
deriving DecidableEq, Inhabited, Repr

/-- Whether a condition with this value holds. -/
def Datum.isTrue : Datum → Bool
  | .int n => n != 0
  | .vector _ => true

/-- The value of a comparison. -/
def truth (b : Bool) : Int := if b then 1 else 0

/-- The exact result of an operator; nothing can be divided by zero. Quotients are rounded
toward zero. -/
def BinaryOp.compute? (op : BinaryOp) (a b : Int) : Option Int :=
  match op with
  | .add => some (a + b)
  | .sub => some (a - b)
  | .mul => some (a * b)
  | .div => if b = 0 then none else some (a.tdiv b)
  | .mod => if b = 0 then none else some (a.tmod b)
  | .equal => some (truth (a = b))
  | .notEqual => some (truth (a ≠ b))
  | .less => some (truth (a < b))
  | .greater => some (truth (a > b))
  | .lessEqual => some (truth (a ≤ b))
  | .greaterEqual => some (truth (a ≥ b))

/-- The operator that an assignment applies to the old value of its target, if any. -/
def AssignOp.binary? : AssignOp → Option BinaryOp
  | .assign => none
  | .addAssign => some .add
  | .subAssign => some .sub
  | .mulAssign => some .mul
  | .divAssign => some .div
  | .modAssign => some .mod

/-- The operator that a step applies to its target and one. -/
def UnaryOp.step? : UnaryOp → Option BinaryOp
  | .increment => some .add
  | .decrement => some .sub
  | .negate => none

/-! ## Variables -/

/-- The variables of each block, the innermost block first. -/
abbrev Scopes (α : Type) := List (List (String × α))

/-- How a statement ends: the next one follows, or the function is left. -/
inductive Flow (σ : Type) where
  | next (env : σ)
  | leave (value : Option Datum)

namespace Flow

/-- Goes on if the next statement follows. -/
def andThen {ε σ : Type} (flow : Flow σ) (k : σ → Except ε (Flow σ)) : Except ε (Flow σ) :=
  match flow with
  | .next env => k env
  | .leave value => .ok (.leave value)

/-- The value with which a function is left; at the end of its body there is none. -/
def result {σ : Type} : Flow σ → Option Datum
  | .next _ => none
  | .leave value => value

/-- The flow behind a block, whose variables are gone. -/
def close {α : Type} : Flow (Scopes α) → Flow (Scopes α)
  | .next env => .next env.tail
  | .leave value => .leave value

end Flow

namespace Scopes

variable {α : Type}

/-- The content of the innermost variable of a name. -/
def find? (x : String) : Scopes α → Option α
  | [] => none
  | scope :: env => (scope.lookup x).or (find? x env)

/-- Declares a variable in the innermost block, where it must be new. -/
def declare? (x : String) (a : α) : Scopes α → Option (Scopes α)
  | [] => none
  | scope :: env => if (scope.lookup x).isSome then none else some (((x, a) :: scope) :: env)

theorem declare?_eq_some {x : String} {a : α} {env env₁ : Scopes α} :
    env.declare? x a = some env₁ ↔ ∃ scope rest, env = scope :: rest ∧
      (scope.lookup x).isSome = false ∧ env₁ = ((x, a) :: scope) :: rest := by
  cases env with
  | nil => simp [declare?]
  | cons scope rest =>
    rw [declare?]
    split
    · rename_i hOld
      refine ⟨fun h => (nomatch h), ?_⟩
      rintro ⟨scope, rest, hEq, hNew, -⟩
      cases hEq
      rw [hOld] at hNew
      cases hNew
    · rename_i hNew
      rw [Option.some.injEq]
      refine ⟨fun h => ⟨scope, rest, rfl, Bool.not_eq_true _ ▸ hNew, h.symm⟩, ?_⟩
      rintro ⟨scope, rest, hEq, -, rfl⟩
      cases hEq
      rfl

/-- Declares variables one after the other; there must be as many contents as names. -/
def declareAll? : List String → List α → Scopes α → Option (Scopes α)
  | [], [], env => some env
  | x :: xs, a :: as, env => (env.declare? x a).bind (declareAll? xs as)
  | _, _, _ => none

/-- Changes the content of a variable of one block. -/
def assignIn? (x : String) (a : α) : List (String × α) → Option (List (String × α))
  | [] => none
  | (y, b) :: scope =>
    if x = y then some ((y, a) :: scope) else (assignIn? x a scope).map ((y, b) :: ·)

/-- Changes the content of the innermost variable of a name. -/
def assign? (x : String) (a : α) : Scopes α → Option (Scopes α)
  | [] => none
  | scope :: env =>
    match assignIn? x a scope with
    | some scope => some (scope :: env)
    | none => (assign? x a env).map (scope :: ·)

/-! ## Related variables -/

variable {β : Type} {P : String → Prop} {R : α → β → Prop}

/-- Two variables of one name that satisfies `P`, with contents related by `R`. -/
def CellRelated (P : String → Prop) (R : α → β → Prop) (c : String × α) (d : String × β) : Prop :=
  c.1 = d.1 ∧ P c.1 ∧ R c.2 d.2

/-- Block by block the same variables, with related contents. -/
def Related (P : String → Prop) (R : α → β → Prop) (env : Scopes α) (env' : Scopes β) : Prop :=
  List.Forall₂ (List.Forall₂ (CellRelated P R)) env env'

theorem rel_lookup {scope : List (String × α)} {scope' : List (String × β)}
    (h : List.Forall₂ (CellRelated P R) scope scope') (x : String) :
    Option.Rel (fun a b => P x ∧ R a b) (scope.lookup x) (scope'.lookup x) := by
  induction h with
  | nil => exact .none
  | @cons c d _ _ hcd _ ih =>
    obtain ⟨y, a⟩ := c
    obtain ⟨z, b⟩ := d
    obtain ⟨rfl, hP, hR⟩ := hcd
    simp only [List.lookup_cons]
    cases hx : x == y with
    | true =>
      rw [beq_iff_eq] at hx
      subst hx
      exact .some ⟨hP, hR⟩
    | false => exact ih

namespace Related

variable {env : Scopes α} {env' : Scopes β}

theorem find? (h : Related P R env env') (x : String) :
    Option.Rel (fun a b => P x ∧ R a b) (env.find? x) (env'.find? x) := by
  induction h with
  | nil => exact .none
  | @cons scope scope' _ _ hScope _ ih =>
    have hHere := rel_lookup hScope x
    simp only [Scopes.find?]
    generalize scope.lookup x = a at hHere
    generalize scope'.lookup x = b at hHere
    cases hHere with
    | none => exact ih
    | some hab => exact .some hab

theorem declare? (h : Related P R env env') {x : String} {a : α} {b : β} (hx : P x)
    (hab : R a b) : Option.Rel (Related P R) (env.declare? x a) (env'.declare? x b) := by
  cases h with
  | nil => exact .none
  | @cons scope scope' _ _ hScope hRest =>
    have hHere := rel_lookup hScope x
    simp only [Scopes.declare?]
    generalize scope.lookup x = c at hHere
    generalize scope'.lookup x = d at hHere
    cases hHere with
    | none => exact .some (.cons (.cons ⟨rfl, hx, hab⟩ hScope) hRest)
    | some _ => exact .none

theorem declareAll? (h : Related P R env env') {xs : List String} {as : List α} {bs : List β}
    (hxs : ∀ x ∈ xs, P x) (has : List.Forall₂ R as bs) :
    Option.Rel (Related P R) (env.declareAll? xs as) (env'.declareAll? xs bs) := by
  induction xs generalizing as bs env env' with
  | nil =>
    cases has with
    | nil => exact .some h
    | cons => exact .none
  | cons x xs ih =>
    cases has with
    | nil => exact .none
    | cons hab has =>
      have hDeclared := h.declare? (hxs x List.mem_cons_self) hab
      simp only [Scopes.declareAll?]
      generalize env.declare? x _ = e at hDeclared
      generalize env'.declare? x _ = e' at hDeclared
      cases hDeclared with
      | none => exact .none
      | some hEnv => exact ih hEnv (fun y hy => hxs y (List.mem_cons_of_mem _ hy)) has

theorem assign? (h : Related P R env env') {x : String} {a : α} {b : β} (hab : R a b) :
    Option.Rel (Related P R) (env.assign? x a) (env'.assign? x b) := by
  have hIn {scope : List (String × α)} {scope' : List (String × β)}
      (hScope : List.Forall₂ (CellRelated P R) scope scope') :
      Option.Rel (List.Forall₂ (CellRelated P R)) (assignIn? x a scope)
        (assignIn? x b scope') := by
    induction hScope with
    | nil => exact .none
    | @cons c d _ _ hcd hScope ih =>
      obtain ⟨y, _⟩ := c
      obtain ⟨z, _⟩ := d
      obtain ⟨rfl, hP, hR⟩ := hcd
      simp only [assignIn?]
      by_cases hx : x = y
      · rw [if_pos hx, if_pos hx]
        exact .some (.cons ⟨rfl, hP, hab⟩ hScope)
      · rw [if_neg hx, if_neg hx]
        generalize assignIn? x a _ = e at ih
        generalize assignIn? x b _ = e' at ih
        cases ih with
        | none => exact .none
        | some hRest => exact .some (.cons ⟨rfl, hP, hR⟩ hRest)
  induction h with
  | nil => exact .none
  | @cons scope scope' _ _ hScope hRest ih =>
    have hHere := hIn hScope
    simp only [Scopes.assign?]
    generalize assignIn? x a scope = e at hHere
    generalize assignIn? x b scope' = e' at hHere
    cases hHere with
    | some hNew => exact .some (.cons hNew hRest)
    | none =>
      generalize Scopes.assign? x a _ = e at ih
      generalize Scopes.assign? x b _ = e' at ih
      cases ih with
      | none => exact .none
      | some hRest => exact .some (.cons hScope hRest)

theorem push (h : Related P R env env') : Related P R ([] :: env) ([] :: env') :=
  .cons .nil h

theorem tail (h : Related P R env env') : Related P R env.tail env'.tail := by
  cases h with
  | nil => exact .nil
  | cons _ h => exact h

end Related

end Scopes

end CToGo
