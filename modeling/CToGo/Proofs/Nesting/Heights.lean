import CToGo.Proofs.Lowering.Image

/-!
# The heights of trees

A function that recurses over a tree is never deeper inside itself than a path from the root
downwards is long. So the paths of source and target trees are bounded here by a height that
is read off the tree.

* `Shallow child n root`: no path from `root` downwards has more than `n` nodes.
* `Source.Node`, `Target.Node`: the nodes that paths lead through.
* `Source.Node.shallow`, `Target.Node.shallow`: paths are bounded by the height.
* `Source.Stmt.Image.height_le`: a statement grows by at most one node when it is lowered.
-/

namespace CToGo

/-! ## Paths -/

/-- No path from the root downwards has more than `n` nodes. -/
def Shallow {ν : Type} (child : ν → ν → Prop) (n : Nat) (root : ν) : Prop :=
  ∀ below, List.IsChain child (root :: below) → (root :: below).length ≤ n

section

variable {ν : Type} {child : ν → ν → Prop}

theorem Shallow.mono {n m : Nat} {root : ν} (h : Shallow child n root) (hLe : n ≤ m) :
    Shallow child m root := fun below hPath => Nat.le_trans (h below hPath) hLe

/-- A measure that falls from a node to its children bounds the paths. -/
theorem shallow_of_falls {height : ν → Nat} (hFalls : ∀ n m, child n m → height m < height n)
    (hPos : ∀ n, 0 < height n) (root : ν) : Shallow child (height root) root := by
  intro below
  induction below generalizing root with
  | nil =>
    intro _
    exact hPos root
  | cons next below ih =>
    intro hPath
    obtain ⟨hChild, hBelow⟩ := List.isChain_cons_cons.mp hPath
    have hLength := ih next hBelow
    have hLess := hFalls root next hChild
    rw [List.length_cons]
    omega

end

/-! ## Source trees -/

namespace Source

mutual

/-- The number of nodes on the longest path through an expression. The name in front of
arguments counts as a leaf, as it is one once the call is lowered. -/
def Expr.height : Expr → Nat
  | .literal .. => 1
  | .ident .. => 1
  | .binary _ left right _ => max left.height right.height + 1
  | .unary _ operand _ _ => operand.height + 1
  | .call _ args _ => max 1 (heightOfEach args) + 1
  | .assign _ _ value _ => value.height + 1

def heightOfEach : List Expr → Nat
  | [] => 0
  | e :: rest => max e.height (heightOfEach rest)

end

/-- The height of an expression that may be missing. -/
def heightOfOption : Option Expr → Nat
  | none => 0
  | some e => e.height

mutual

/-- The number of nodes on the longest path through a statement. -/
def Stmt.height : Stmt → Nat
  | .declare _ _ init _ => heightOfOption init + 1
  | .eval e _ => e.height + 1
  | .branch condition thenBlock elseBranch _ =>
    max condition.height (max thenBlock.height elseBranch.height) + 1
  | .loop condition body _ => max condition.height body.height + 1
  | .leave value _ => heightOfOption value + 1
  | .block body _ => body.height + 1

def Block.height : Block → Nat
  | .mk stmts _ => heightOfAll stmts + 1

/-- The height of the alternative, which is no node itself. -/
def Else.height : Else → Nat
  | .none => 0
  | .block body => body.height
  | .chain next => next.height

def heightOfAll : List Stmt → Nat
  | [] => 0
  | s :: rest => max s.height (heightOfAll rest)

end

/-- The nodes of the body of a function. -/
inductive Node where
  | block (b : Block)
  | stmt (s : Stmt)
  | expr (e : Expr)

namespace Node

/-- The nodes of the alternative, which is no node itself. -/
def ofElse : Else → List Node
  | .none => []
  | .block body => [block body]
  | .chain next => [stmt next]

/-- The nodes right below a node. -/
def children : Node → List Node
  | block (.mk stmts _) => stmts.map stmt
  | stmt (.declare _ _ init _) => init.toList.map expr
  | stmt (.eval e _) => [expr e]
  | stmt (.branch condition thenBlock elseBranch _) =>
    expr condition :: block thenBlock :: ofElse elseBranch
  | stmt (.loop condition body _) => [expr condition, block body]
  | stmt (.leave value _) => value.toList.map expr
  | stmt (.block body _) => [block body]
  | expr (.literal ..) => []
  | expr (.ident ..) => []
  | expr (.binary _ left right _) => [expr left, expr right]
  | expr (.unary _ operand _ _) => [expr operand]
  | expr (.call _ args _) => args.map expr
  | expr (.assign _ _ value _) => [expr value]

/-- The second node is right below the first. -/
def Child (n m : Node) : Prop := m ∈ n.children

def height : Node → Nat
  | block b => b.height
  | stmt s => s.height
  | expr e => e.height

theorem height_pos (n : Node) : 0 < n.height := by
  cases n with
  | block b => cases b; exact Nat.succ_pos _
  | stmt s => cases s <;> exact Nat.succ_pos _
  | expr e => cases e <;> exact Nat.succ_pos _

end Node

theorem height_le_heightOfEach {e : Expr} {es : List Expr} (h : e ∈ es) :
    e.height ≤ heightOfEach es := by
  induction es with
  | nil => cases h
  | cons e' es ih =>
    rw [heightOfEach]
    cases h with
    | head => exact Nat.le_max_left _ _
    | tail _ h => exact Nat.le_trans (ih h) (Nat.le_max_right _ _)

theorem height_le_heightOfAll {s : Stmt} {ss : List Stmt} (h : s ∈ ss) :
    s.height ≤ heightOfAll ss := by
  induction ss with
  | nil => cases h
  | cons s' ss ih =>
    rw [heightOfAll]
    cases h with
    | head => exact Nat.le_max_left _ _
    | tail _ h => exact Nat.le_trans (ih h) (Nat.le_max_right _ _)

namespace Node

theorem height_le_heightOfOption {m : Node} {e? : Option Expr} (h : m ∈ e?.toList.map expr) :
    m.height ≤ heightOfOption e? := by
  cases e? with
  | none => cases h
  | some e =>
    obtain rfl := List.mem_singleton.mp h
    exact Nat.le_refl _

theorem height_le_of_mem_ofElse {m : Node} {alt : Else} (h : m ∈ ofElse alt) :
    m.height ≤ alt.height := by
  cases alt with
  | none => cases h
  | block b =>
    obtain rfl := List.mem_singleton.mp h
    simp [height, Else.height]
  | chain s =>
    obtain rfl := List.mem_singleton.mp h
    simp [height, Else.height]

theorem height_lt_of_child_expr {e : Expr} {m : Node} (h : (expr e).Child m) :
    m.height < e.height := by
  unfold Child at h
  cases e with
  | literal value span => cases h
  | ident x span => cases h
  | binary op left right span =>
    simp only [children, List.mem_cons, List.not_mem_nil, or_false] at h
    rcases h with rfl | rfl <;> simp only [height, Expr.height] <;> omega
  | unary op operand fixity span =>
    obtain rfl := List.mem_singleton.mp h
    exact Nat.lt_succ_self _
  | call f args span =>
    obtain ⟨e, he, rfl⟩ := List.mem_map.mp h
    have hLe := height_le_heightOfEach he
    simp only [height, Expr.height]
    omega
  | assign op x value span =>
    obtain rfl := List.mem_singleton.mp h
    exact Nat.lt_succ_self _

theorem height_lt_of_child_stmt {s : Stmt} {m : Node} (h : (stmt s).Child m) :
    m.height < s.height := by
  unfold Child at h
  cases s with
  | declare x ty init span => exact Nat.lt_succ_of_le (height_le_heightOfOption h)
  | eval e span =>
    obtain rfl := List.mem_singleton.mp h
    exact Nat.lt_succ_self _
  | branch c b alt span =>
    rcases List.mem_cons.mp h with rfl | h
    · simp only [height, Stmt.height]
      omega
    · rcases List.mem_cons.mp h with rfl | h
      · simp only [height, Stmt.height]
        omega
      · have hLe := height_le_of_mem_ofElse h
        simp only [Stmt.height]
        omega
  | loop c b span =>
    simp only [children, List.mem_cons, List.not_mem_nil, or_false] at h
    rcases h with rfl | rfl <;> simp only [height, Stmt.height] <;> omega
  | leave value span => exact Nat.lt_succ_of_le (height_le_heightOfOption h)
  | block b span =>
    obtain rfl := List.mem_singleton.mp h
    exact Nat.lt_succ_self _

theorem height_lt_of_child (n m : Node) (h : n.Child m) : m.height < n.height := by
  cases n with
  | block b =>
    cases b with
    | mk ss span =>
      obtain ⟨s, hs, rfl⟩ := List.mem_map.mp h
      exact Nat.lt_succ_of_le (height_le_heightOfAll hs)
  | stmt s => exact height_lt_of_child_stmt h
  | expr e => exact height_lt_of_child_expr h

/-- The height bounds the paths through a source tree. -/
theorem shallow (n : Node) : Shallow Child n.height n :=
  shallow_of_falls height_lt_of_child height_pos n

/-- At most `n` nodes below a node, each the first child of the one before. -/
def spine : Nat → Node → List Node
  | 0, _ => []
  | n + 1, node =>
    match node.children with
    | [] => []
    | child :: _ => child :: child.spine n

theorem isChain_spine (n : Nat) (node : Node) : List.IsChain Child (node :: node.spine n) := by
  induction n generalizing node with
  | zero => exact .singleton node
  | succ n ih =>
    rw [spine]
    split
    · exact .singleton node
    · next child _ hChildren =>
      refine List.isChain_cons_cons.mpr ⟨?_, ih child⟩
      rw [Child, hChildren]
      exact List.mem_cons_self

end Node

end Source

/-! ## Target trees -/

namespace Target

mutual

/-- The number of nodes on the longest path through an expression. -/
def Expr.height : Expr → Nat
  | .literal _ => 1
  | .ident _ => 1
  | .selector .. => 1
  | .binary _ left right => max left.height right.height + 1
  | .unary _ operand => operand.height + 1
  | .call function args => max function.height (heightOfEach args) + 1

def heightOfEach : List Expr → Nat
  | [] => 0
  | e :: rest => max e.height (heightOfEach rest)

end

/-- The height of an expression that may be missing. -/
def heightOfOption : Option Expr → Nat
  | none => 0
  | some e => e.height

mutual

/-- The number of nodes on the longest path through a statement. -/
def Stmt.height : Stmt → Nat
  | .define _ value => value.height + 1
  | .declare .. => 1
  | .assign _ _ value => value.height + 1
  | .step .. => 1
  | .eval e => e.height + 1
  | .branch condition thenBody elseBranch =>
    max condition.height (max (heightOfAll thenBody) elseBranch.height) + 1
  | .loop condition body => max condition.height (heightOfAll body) + 1
  | .leave value => heightOfOption value + 1
  | .block body => heightOfAll body + 1

/-- The height of the alternative, which is no node itself. -/
def Else.height : Else → Nat
  | .none => 0
  | .block body => heightOfAll body
  | .chain next => next.height

def heightOfAll : List Stmt → Nat
  | [] => 0
  | s :: rest => max s.height (heightOfAll rest)

end

/-- The nodes of the body of a function. -/
inductive Node where
  | stmt (s : Stmt)
  | expr (e : Expr)

namespace Node

/-- The nodes of the alternative, which is no node itself. -/
def ofElse : Else → List Node
  | .none => []
  | .block body => body.map stmt
  | .chain next => [stmt next]

/-- The nodes right below a node. -/
def children : Node → List Node
  | stmt (.define _ value) => [expr value]
  | stmt (.declare ..) => []
  | stmt (.assign _ _ value) => [expr value]
  | stmt (.step ..) => []
  | stmt (.eval e) => [expr e]
  | stmt (.branch condition thenBody elseBranch) =>
    expr condition :: (thenBody.map stmt ++ ofElse elseBranch)
  | stmt (.loop condition body) => expr condition :: body.map stmt
  | stmt (.leave value) => value.toList.map expr
  | stmt (.block body) => body.map stmt
  | expr (.literal _) => []
  | expr (.ident _) => []
  | expr (.selector ..) => []
  | expr (.binary _ left right) => [expr left, expr right]
  | expr (.unary _ operand) => [expr operand]
  | expr (.call function args) => expr function :: args.map expr

/-- The second node is right below the first. -/
def Child (n m : Node) : Prop := m ∈ n.children

def height : Node → Nat
  | stmt s => s.height
  | expr e => e.height

theorem height_pos (n : Node) : 0 < n.height := by
  cases n with
  | stmt s => cases s <;> exact Nat.succ_pos _
  | expr e => cases e <;> exact Nat.succ_pos _

end Node

theorem height_le_heightOfEach {e : Expr} {es : List Expr} (h : e ∈ es) :
    e.height ≤ heightOfEach es := by
  induction es with
  | nil => cases h
  | cons e' es ih =>
    rw [heightOfEach]
    cases h with
    | head => exact Nat.le_max_left _ _
    | tail _ h => exact Nat.le_trans (ih h) (Nat.le_max_right _ _)

theorem height_le_heightOfAll {s : Stmt} {ss : List Stmt} (h : s ∈ ss) :
    s.height ≤ heightOfAll ss := by
  induction ss with
  | nil => cases h
  | cons s' ss ih =>
    rw [heightOfAll]
    cases h with
    | head => exact Nat.le_max_left _ _
    | tail _ h => exact Nat.le_trans (ih h) (Nat.le_max_right _ _)

theorem heightOfAll_append (ss ts : List Stmt) :
    heightOfAll (ss ++ ts) = max (heightOfAll ss) (heightOfAll ts) := by
  induction ss with
  | nil => simp [heightOfAll]
  | cons s ss ih => rw [List.cons_append, heightOfAll, heightOfAll, ih, Nat.max_assoc]

namespace Node

theorem height_le_of_mem_map {m : Node} {ss : List Stmt} (h : m ∈ ss.map stmt) :
    m.height ≤ heightOfAll ss := by
  obtain ⟨s, hs, rfl⟩ := List.mem_map.mp h
  exact height_le_heightOfAll hs

theorem height_le_of_mem_ofElse {m : Node} {alt : Else} (h : m ∈ ofElse alt) :
    m.height ≤ alt.height := by
  cases alt with
  | none => cases h
  | block body =>
    rw [Else.height]
    exact height_le_of_mem_map h
  | chain s =>
    obtain rfl := List.mem_singleton.mp h
    simp [height, Else.height]

theorem height_lt_of_child_expr {e : Expr} {m : Node} (h : (expr e).Child m) :
    m.height < e.height := by
  unfold Child at h
  cases e with
  | literal value => cases h
  | ident x => cases h
  | selector package x => cases h
  | binary op left right =>
    simp only [children, List.mem_cons, List.not_mem_nil, or_false] at h
    rcases h with rfl | rfl <;> simp only [height, Expr.height] <;> omega
  | unary op operand =>
    obtain rfl := List.mem_singleton.mp h
    exact Nat.lt_succ_self _
  | call f args =>
    rw [Expr.height]
    rcases List.mem_cons.mp h with rfl | h
    · rw [height]
      omega
    · obtain ⟨e, he, rfl⟩ := List.mem_map.mp h
      have hLe := height_le_heightOfEach he
      rw [height]
      omega

theorem height_lt_of_child_stmt {s : Stmt} {m : Node} (h : (stmt s).Child m) :
    m.height < s.height := by
  unfold Child at h
  cases s with
  | define x value =>
    obtain rfl := List.mem_singleton.mp h
    exact Nat.lt_succ_self _
  | declare x ty => cases h
  | assign x op value =>
    obtain rfl := List.mem_singleton.mp h
    exact Nat.lt_succ_self _
  | step x op => cases h
  | eval e =>
    obtain rfl := List.mem_singleton.mp h
    exact Nat.lt_succ_self _
  | branch c ss alt =>
    rw [Stmt.height]
    rcases List.mem_cons.mp h with rfl | h
    · rw [height]
      omega
    · rcases List.mem_append.mp h with h | h
      · have hLe := height_le_of_mem_map h
        omega
      · have hLe := height_le_of_mem_ofElse h
        omega
  | loop c ss =>
    rw [Stmt.height]
    rcases List.mem_cons.mp h with rfl | h
    · rw [height]
      omega
    · have hLe := height_le_of_mem_map h
      omega
  | leave value =>
    cases value with
    | none => cases h
    | some e =>
      obtain rfl := List.mem_singleton.mp h
      exact Nat.lt_succ_self _
  | block ss => exact Nat.lt_succ_of_le (height_le_of_mem_map h)

theorem height_lt_of_child (n m : Node) (h : n.Child m) : m.height < n.height := by
  cases n with
  | stmt s => exact height_lt_of_child_stmt h
  | expr e => exact height_lt_of_child_expr h

/-- The height bounds the paths through a target tree. -/
theorem shallow (n : Node) : Shallow Child n.height n :=
  shallow_of_falls height_lt_of_child height_pos n

end Node

end Target

/-! ## The heights of images -/

mutual

theorem Source.Expr.Image.height_le {ctx : Context} : {e : Source.Expr} → {e' : Target.Expr} →
    e.Image ctx e' → e'.height ≤ e.height
  | _, _, .literal _ _ => Nat.le_refl _
  | _, _, .ident _ => Nat.le_refl _
  | _, _, .binary ha hb => by
    have hLeft := Source.Expr.Image.height_le ha
    have hRight := Source.Expr.Image.height_le hb
    simp only [Target.Expr.height, Source.Expr.height]
    omega
  | _, _, .negate he => by
    have hOperand := Source.Expr.Image.height_le he
    simp only [Target.Expr.height, Source.Expr.height]
    omega
  | _, _, .call _ hArgs => by
    have hEach := ImageEach.height_le hArgs
    simp only [Target.Expr.height, Source.Expr.height]
    omega

theorem ImageEach.height_le {ctx : Context} : {es : List Source.Expr} →
    {es' : List Target.Expr} → ImageEach ctx es es' →
    Target.heightOfEach es' ≤ Source.heightOfEach es
  | _, _, .nil => Nat.le_refl _
  | _, _, .cons he hes => by
    have hFirst := Source.Expr.Image.height_le he
    have hRest := ImageEach.height_le hes
    simp only [Target.heightOfEach, Source.heightOfEach]
    omega

end

mutual

/-- Blocks vanish from bodies, but the exit of the process is one node more than a `return`. -/
theorem Source.Stmt.Image.height_le {ctx : Context} {inMain : Bool} : {s : Source.Stmt} →
    {s' : Target.Stmt} → s.Image ctx inMain s' → s'.height ≤ s.height + 1
  | _, _, .declare _ => by simp [Target.Stmt.height]
  | _, _, .define _ he => by
    have hValue := he.height_le
    simp only [Target.Stmt.height, Source.Stmt.height, Source.heightOfOption]
    omega
  | _, _, .assign _ he => by
    have hValue := he.height_le
    simp only [Target.Stmt.height, Source.Stmt.height, Source.Expr.height]
    omega
  | _, _, .step _ _ => by simp [Target.Stmt.height]
  | _, _, .call he => by
    have hCall := he.height_le
    simp only [Target.Stmt.height, Source.Stmt.height]
    omega
  | _, _, .branch hc hss hAlt => by
    have hCondition := hc.height_le
    have hThen := ImageAll.height_le hss
    have hElse := Source.Else.Image.height_le hAlt
    simp only [Target.Stmt.height, Source.Stmt.height, Source.Block.height]
    omega
  | _, _, .loop hc hss => by
    have hCondition := hc.height_le
    have hBody := ImageAll.height_le hss
    simp only [Target.Stmt.height, Source.Stmt.height, Source.Block.height]
    omega
  | _, _, .leave => by
    simp only [Target.Stmt.height, Source.Stmt.height, Target.heightOfOption]
    omega
  | _, _, .result _ he => by
    have hValue := he.height_le
    simp only [Target.Stmt.height, Source.Stmt.height, Target.heightOfOption,
      Source.heightOfOption]
    omega
  | _, _, .status (e := e) _ he => by
    have hValue := he.height_le
    have hPos := (Source.Node.expr e).height_pos
    simp only [Source.Node.height] at hPos
    simp only [exitWith, Target.Stmt.height, Target.Expr.height, Target.heightOfEach,
      Source.Stmt.height, Source.heightOfOption]
    omega
  | _, _, .block hss => by
    have hBody := ImageAll.height_le hss
    simp only [Target.Stmt.height, Source.Stmt.height, Source.Block.height]
    omega

theorem Source.Else.Image.height_le {ctx : Context} {inMain : Bool} : {alt : Source.Else} →
    {alt' : Target.Else} → alt.Image ctx inMain alt' → alt'.height ≤ alt.height + 1
  | _, _, .none => by simp [Target.Else.height]
  | _, _, .block hss => by
    have hBody := ImageAll.height_le hss
    simp only [Target.Else.height, Source.Else.height, Source.Block.height]
    omega
  | _, _, .chain hs => by
    have hNext := Source.Stmt.Image.height_le hs
    simp only [Target.Else.height, Source.Else.height]
    omega

theorem ImageAll.height_le {ctx : Context} {inMain : Bool} : {ss : List Source.Stmt} →
    {ss' : List Target.Stmt} → ImageAll ctx inMain ss ss' →
    Target.heightOfAll ss' ≤ Source.heightOfAll ss + 1
  | _, _, .nil => by simp [Target.heightOfAll]
  | _, _, .cons hs hss => by
    have hFirst := Source.Stmt.Image.height_le hs
    have hRest := ImageAll.height_le hss
    simp only [Target.heightOfAll, Source.heightOfAll]
    omega

end

/-- The bindings of the process arguments are lower than four nodes. -/
theorem BindingsImage.height_le {ctx : Context} {params : List Source.Param}
    {bindings : List Target.Stmt} (h : BindingsImage ctx params bindings) :
    Target.heightOfAll bindings ≤ 3 := by
  cases h with
  | plain => simp [Target.heightOfAll]
  | arguments =>
    simp [bindArguments, processArguments, Target.heightOfAll, Target.Stmt.height,
      Target.Expr.height, Target.heightOfEach]

/-- The body of a function is no higher than the block that it is the image of, or it is as
low as the bindings in front of it. -/
theorem Source.Function.Image.height_le {ctx : Context} {f : Source.Function}
    {f' : Target.Function} (h : f.Image ctx f') :
    Target.heightOfAll f'.body ≤ max 3 f.body.height := by
  cases hBody : f.body with
  | mk ss span =>
    rw [Source.Block.height]
    cases h with
    | entry _ _ _ hBindings hAll =>
      rw [hBody] at hAll
      have hFirst := hBindings.height_le
      have hRest := hAll.height_le
      simp only [Source.Block.stmts] at hRest
      rw [Target.heightOfAll_append]
      omega
    | plain _ _ _ _ hAll =>
      rw [hBody] at hAll
      have hRest := hAll.height_le
      simp only [Source.Block.stmts] at hRest
      exact Nat.le_trans hRest (Nat.le_max_right _ _)

end CToGo
