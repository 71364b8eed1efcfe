import CToGo.Proofs.Lowering.Image

/-!
# Where the expressions of a compiled program come from

* `Target.File.exprs`: the expressions of a file, without their parts.
* `Uses`: an expression of the image of a single source statement.
* `Source.Stmt.Image.exists_uses`: every expression of an image belongs to one of the
  statements that `walk` visits.
* `Source.Stmt.Image.exits`: in `main` a `return` with a value leaves an exit of the process
  behind.
-/

namespace CToGo

open Source (Span)

/-! ## Expressions of a file -/

namespace Target

mutual

/-- The expressions of a statement and of those nested in it. -/
def Stmt.exprs : Stmt → List Expr
  | .define _ value => [value]
  | .declare .. => []
  | .assign _ _ value => [value]
  | .step .. => []
  | .eval e => [e]
  | .branch condition thenBody elseBranch => condition :: (exprsOf thenBody ++ elseBranch.exprs)
  | .loop condition body => condition :: exprsOf body
  | .leave value => value.toList
  | .block body => exprsOf body

def Else.exprs : Else → List Expr
  | .none => []
  | .block body => exprsOf body
  | .chain next => next.exprs

def exprsOf : List Stmt → List Expr
  | [] => []
  | s :: rest => s.exprs ++ exprsOf rest

end

theorem exprsOf_append (ss ts : List Stmt) : exprsOf (ss ++ ts) = exprsOf ss ++ exprsOf ts := by
  induction ss with
  | nil => rfl
  | cons s ss ih => rw [List.cons_append, exprsOf, ih, exprsOf, List.append_assoc]

/-- The expressions of all functions of a file. -/
def File.exprs (file : File) : List Expr := file.functions.flatMap fun f => exprsOf f.body

end Target

/-! ## Single statements -/

/-- The expression belongs to the image of the statement itself, not of those nested in it. -/
inductive Uses (ctx : Context) (inMain : Bool) : Source.Stmt → Target.Expr → Prop where
  | init {x : String} {ty : Source.Ty} {e : Source.Expr} {e' : Target.Expr} {span : Span} :
    e.Image ctx e' → Uses ctx inMain (.declare x ty (some e) span) e'
  | assigned {op : AssignOp} {x : String} {e : Source.Expr} {e' : Target.Expr}
    {inner span : Span} :
    e.Image ctx e' → Uses ctx inMain (.eval (.assign op x e inner) span) e'
  | evaluated {e : Source.Expr} {e' : Target.Expr} {span : Span} :
    e.Image ctx e' → Uses ctx inMain (.eval e span) e'
  | branch {c : Source.Expr} {c' : Target.Expr} {b : Source.Block} {alt : Source.Else}
    {span : Span} :
    c.Image ctx c' → Uses ctx inMain (.branch c b alt span) c'
  | loop {c : Source.Expr} {c' : Target.Expr} {b : Source.Block} {span : Span} :
    c.Image ctx c' → Uses ctx inMain (.loop c b span) c'
  | result {e : Source.Expr} {e' : Target.Expr} {span : Span} :
    e.Image ctx e' → Uses ctx inMain (.leave (some e) span) e'
  | status {e : Source.Expr} {e' : Target.Expr} {span : Span} :
    inMain = true → e.Image ctx e' →
    Uses ctx inMain (.leave (some e) span) (.call (.selector "os" "Exit") [e'])

/-- A statement is among those that are visited when it is walked. -/
theorem Source.Stmt.mem_walk_self (s : Source.Stmt) : s ∈ s.walk := by
  cases s <;> simp [Source.Stmt.walk]

mutual

theorem Source.Stmt.Image.exists_uses {ctx : Context} {inMain : Bool} {s : Source.Stmt}
    {s' : Target.Stmt} {x : Target.Expr} (hx : x ∈ s'.exprs) :
    s.Image ctx inMain s' → ∃ t ∈ s.walk, Uses ctx inMain t x
  | .declare _ => by cases hx
  | .define _ he => by
    rw [Target.Stmt.exprs, List.mem_singleton] at hx
    exact ⟨_, Source.Stmt.mem_walk_self _, hx ▸ .init he⟩
  | .assign _ he => by
    rw [Target.Stmt.exprs, List.mem_singleton] at hx
    exact ⟨_, Source.Stmt.mem_walk_self _, hx ▸ .assigned he⟩
  | .step _ _ => by cases hx
  | .call he => by
    rw [Target.Stmt.exprs, List.mem_singleton] at hx
    exact ⟨_, Source.Stmt.mem_walk_self _, hx ▸ .evaluated he⟩
  | .branch hc hss hAlt => by
    rw [Target.Stmt.exprs, List.mem_cons, List.mem_append] at hx
    rcases hx with rfl | hx | hx
    · exact ⟨_, Source.Stmt.mem_walk_self _, .branch hc⟩
    · obtain ⟨t, ht, hUses⟩ := hss.exists_uses hx
      exact ⟨t, by simp [Source.Stmt.walk, Source.Block.walk, ht], hUses⟩
    · obtain ⟨t, ht, hUses⟩ := hAlt.exists_uses hx
      exact ⟨t, by simp [Source.Stmt.walk, ht], hUses⟩
  | .loop hc hss => by
    rw [Target.Stmt.exprs, List.mem_cons] at hx
    rcases hx with rfl | hx
    · exact ⟨_, Source.Stmt.mem_walk_self _, .loop hc⟩
    · obtain ⟨t, ht, hUses⟩ := hss.exists_uses hx
      exact ⟨t, by simp [Source.Stmt.walk, Source.Block.walk, ht], hUses⟩
  | .leave => by cases hx
  | .result _ he => by
    rw [Target.Stmt.exprs, Option.toList_some, List.mem_singleton] at hx
    exact ⟨_, Source.Stmt.mem_walk_self _, hx ▸ .result he⟩
  | .status hMain he => by
    rw [exitWith, Target.Stmt.exprs, List.mem_singleton] at hx
    exact ⟨_, Source.Stmt.mem_walk_self _, hx ▸ .status hMain he⟩
  | .block hss => by
    obtain ⟨t, ht, hUses⟩ := hss.exists_uses hx
    exact ⟨t, by simp [Source.Stmt.walk, Source.Block.walk, ht], hUses⟩

theorem Source.Else.Image.exists_uses {ctx : Context} {inMain : Bool} {alt : Source.Else}
    {alt' : Target.Else} {x : Target.Expr} (hx : x ∈ alt'.exprs) :
    alt.Image ctx inMain alt' → ∃ t ∈ alt.walk, Uses ctx inMain t x
  | .none => by cases hx
  | .block hss => hss.exists_uses hx
  | .chain hs => hs.exists_uses hx

theorem ImageAll.exists_uses {ctx : Context} {inMain : Bool} {ss : List Source.Stmt}
    {ss' : List Target.Stmt} {x : Target.Expr} (hx : x ∈ Target.exprsOf ss') :
    ImageAll ctx inMain ss ss' → ∃ t ∈ Source.walkAll ss, Uses ctx inMain t x
  | .nil => by cases hx
  | .cons hs hss => by
    rw [Target.exprsOf, List.mem_append] at hx
    rcases hx with hx | hx
    · obtain ⟨t, ht, hUses⟩ := hs.exists_uses hx
      exact ⟨t, by simp [Source.walkAll, ht], hUses⟩
    · obtain ⟨t, ht, hUses⟩ := hss.exists_uses hx
      exact ⟨t, by simp [Source.walkAll, ht], hUses⟩

end

/-! ## Exits -/

/-- An exit of the process is among the expressions. -/
def Exits (es : List Target.Expr) : Prop :=
  ∃ status, Target.Expr.call (.selector "os" "Exit") [status] ∈ es

theorem Exits.mono {es fs : List Target.Expr} (h : Exits es) (hSubset : es ⊆ fs) : Exits fs := by
  obtain ⟨status, hStatus⟩ := h
  exact ⟨status, hSubset hStatus⟩

theorem Source.Stmt.not_leavesWithValue {s t : Source.Stmt} (hWalk : s.walk = [s])
    (hs : s.leavesWithValue = false) (ht : t ∈ s.walk) : ¬ t.leavesWithValue := by
  rw [hWalk, List.mem_singleton] at ht
  rw [ht, hs]
  exact Bool.false_ne_true

mutual

theorem Source.Stmt.Image.exits {ctx : Context} {s t : Source.Stmt} {s' : Target.Stmt}
    (ht : t ∈ s.walk) (hLeaves : t.leavesWithValue) :
    s.Image ctx true s' → Exits s'.exprs
  | .declare _ => absurd hLeaves (Source.Stmt.not_leavesWithValue rfl rfl ht)
  | .define _ _ => absurd hLeaves (Source.Stmt.not_leavesWithValue rfl rfl ht)
  | .assign _ _ => absurd hLeaves (Source.Stmt.not_leavesWithValue rfl rfl ht)
  | .step _ _ => absurd hLeaves (Source.Stmt.not_leavesWithValue rfl rfl ht)
  | .call _ => absurd hLeaves (Source.Stmt.not_leavesWithValue rfl rfl ht)
  | .branch _ hss hAlt => by
    rw [Source.Stmt.walk, List.mem_cons, List.mem_append] at ht
    rcases ht with rfl | ht | ht
    · cases hLeaves
    · exact (hss.exits ht hLeaves).mono (by simp [Target.Stmt.exprs])
    · exact (hAlt.exits ht hLeaves).mono (by simp [Target.Stmt.exprs])
  | .loop _ hss => by
    rw [Source.Stmt.walk, List.mem_cons] at ht
    rcases ht with rfl | ht
    · cases hLeaves
    · exact (hss.exits ht hLeaves).mono (by simp [Target.Stmt.exprs])
  | .leave => absurd hLeaves (Source.Stmt.not_leavesWithValue rfl rfl ht)
  | .result hMain _ => by cases hMain
  | .status _ _ => ⟨_, List.mem_singleton_self _⟩
  | .block hss => by
    rw [Source.Stmt.walk, List.mem_cons] at ht
    rcases ht with rfl | ht
    · cases hLeaves
    · exact hss.exits ht hLeaves

theorem Source.Else.Image.exits {ctx : Context} {t : Source.Stmt} {alt : Source.Else}
    {alt' : Target.Else} (ht : t ∈ alt.walk) (hLeaves : t.leavesWithValue) :
    alt.Image ctx true alt' → Exits alt'.exprs
  | .none => by cases ht
  | .block hss => hss.exits ht hLeaves
  | .chain hs => hs.exits ht hLeaves

theorem ImageAll.exits {ctx : Context} {t : Source.Stmt} {ss : List Source.Stmt}
    {ss' : List Target.Stmt} (ht : t ∈ Source.walkAll ss) (hLeaves : t.leavesWithValue) :
    ImageAll ctx true ss ss' → Exits (Target.exprsOf ss')
  | .nil => by cases ht
  | .cons hs hss => by
    rw [Source.walkAll, List.mem_append] at ht
    rcases ht with ht | ht
    · exact (hs.exits ht hLeaves).mono (by simp [Target.exprsOf])
    · exact (hss.exits ht hLeaves).mono (by simp [Target.exprsOf])

end

end CToGo
