import CToGo.Proofs.Nesting.Heights
import Mathlib.Data.List.Nodup

/-!
# The addresses of statements

A node of a tree is told by the way that leads to it from the root, even from another one that is
equal to it. A walk visits nodes one after the other; that it leaves out none and visits none
twice is said of their addresses.

* `Node.at?`: the node at an address.
* `Node.Toured find? addresses ss`: the addresses of all statements, and these statements.
* `Node.exists_toured_walk`: a walk visits the statement at every address once.
-/

namespace CToGo.Source

namespace Node

/-- The node at the end of a way downwards. Each step of the way is the number of a child. -/
def at? : Node → List Nat → Option Node
  | n, [] => some n
  | n, i :: address => n.children[i]?.bind fun m => m.at? address

/-- The statements that a walk visits from a node on. -/
def walk : Node → List Stmt
  | block b => b.walk
  | stmt s => s.walk
  | expr _ => []

/-- The addresses are those at which a statement is found, each of them once, and the statements
stand there in their order. -/
structure Toured (find? : List Nat → Option Node) (addresses : List (List Nat))
    (ss : List Stmt) : Prop where
  distinct : addresses.Nodup
  visited : addresses.map find? = ss.map fun s => some (stmt s)
  complete : ∀ address s, find? address = some (stmt s) → address ∈ addresses

/-! ## Walks through the children -/

theorem walk_stmts (ss : List Stmt) : (ss.map stmt).flatMap walk = walkAll ss := by
  induction ss with
  | nil => rfl
  | cons s ss ih =>
    rw [List.map_cons, List.flatMap_cons, ih, walkAll]
    rfl

theorem walk_exprs (es : List Expr) : (es.map expr).flatMap walk = [] := by
  simp [walk]

theorem walk_ofElse (alt : Else) : (ofElse alt).flatMap walk = alt.walk := by
  cases alt <;> simp [ofElse, walk, Else.walk]

theorem walk_block (b : Block) : walk (block b) = (block b).children.flatMap walk := by
  cases b with
  | mk ss span => exact (walk_stmts ss).symm

theorem walk_expr (e : Expr) : walk (expr e) = (expr e).children.flatMap walk := by
  cases e with
  | call f args span => exact (walk_exprs args).symm
  | _ => rfl

theorem walk_stmt (s : Stmt) : walk (stmt s) = s :: (stmt s).children.flatMap walk := by
  cases s with
  | declare x ty init span => cases init <;> rfl
  | eval e span => rfl
  | branch c b alt span =>
    rw [children, List.flatMap_cons, List.flatMap_cons, walk_ofElse]
    simp only [walk, Stmt.walk, List.nil_append]
  | loop c b span => simp [children, walk, Stmt.walk]
  | leave value span => cases value <;> rfl
  | block b span => simp [children, walk, Stmt.walk]

/-! ## Addresses -/

/-- The node at the end of a way that begins with one of the given nodes. -/
def atAmong? (ns : List Node) : List Nat → Option Node
  | [] => none
  | i :: address => ns[i]?.bind fun m => m.at? address

theorem atAmong?_modifyHead (n : Node) (ns : List Node) (address : List Nat) :
    atAmong? (n :: ns) (address.modifyHead (· + 1)) = atAmong? ns address := by
  cases address <;> rfl

theorem modifyHead_succ_injective : Function.Injective (List.modifyHead (· + 1)) := by
  intro a b h
  cases a <;> cases b <;> simp_all

/-- The ways into the first node keep their number `0` in front; those into the others count one
more. -/
theorem exists_toured_among (ns : List Node)
    (h : ∀ n ∈ ns, ∃ addresses, Toured n.at? addresses n.walk) :
    ∃ addresses, Toured (atAmong? ns) addresses (ns.flatMap walk) := by
  induction ns with
  | nil =>
    refine ⟨[], List.nodup_nil, rfl, ?_⟩
    intro address s hAt
    cases address <;> cases hAt
  | cons n ns ih =>
    obtain ⟨first, hFirst⟩ := h n List.mem_cons_self
    obtain ⟨others, hOthers⟩ := ih fun m hm => h m (List.mem_cons_of_mem n hm)
    refine ⟨first.map (0 :: ·) ++ others.map (List.modifyHead (· + 1)), ?_, ?_, ?_⟩
    · refine List.nodup_append.mpr ⟨hFirst.distinct.map List.cons_injective,
        hOthers.distinct.map modifyHead_succ_injective, ?_⟩
      rintro address hLeft _ hRight rfl
      obtain ⟨a, -, rfl⟩ := List.mem_map.mp hLeft
      obtain ⟨b, -, hb⟩ := List.mem_map.mp hRight
      cases b <;> simp at hb
    · rw [List.map_append, List.map_map, List.map_map, List.flatMap_cons, List.map_append,
        ← hFirst.visited, ← hOthers.visited]
      congr 1
      exact List.map_congr_left fun address _ => atAmong?_modifyHead n ns address
    · intro address s hAt
      match address with
      | [] => cases hAt
      | 0 :: rest =>
        exact List.mem_append_left _ (List.mem_map_of_mem (hFirst.complete rest s hAt))
      | (i + 1) :: rest =>
        exact List.mem_append_right _
          (List.mem_map_of_mem (f := List.modifyHead (· + 1)) (hOthers.complete (i :: rest) s hAt))

/-- A walk visits the statement at every address from the node on, and each of them once. -/
theorem exists_toured_walk (n : Node) : ∃ addresses, Toured n.at? addresses n.walk := by
  obtain ⟨below, hTour⟩ :=
    exists_toured_among n.children fun m hChild => m.exists_toured_walk
  have hRoot : [] ∉ below := by
    intro hMem
    have hNone := List.mem_map_of_mem (f := atAmong? n.children) hMem
    rw [hTour.visited] at hNone
    simp [atAmong?] at hNone
  have hBelow : below.map n.at? = (n.children.flatMap walk).map fun s => some (stmt s) := by
    rw [← hTour.visited]
    refine List.map_congr_left fun address hAddress => ?_
    cases address with
    | nil => exact absurd hAddress hRoot
    | cons i address => rfl
  have hWays (i : Nat) (address : List Nat) (s : Stmt)
      (hAt : n.at? (i :: address) = some (stmt s)) : i :: address ∈ below :=
    hTour.complete (i :: address) s hAt
  -- The node itself is at the empty address; only a statement is visited there.
  cases n with
  | stmt x =>
    refine ⟨[] :: below, List.nodup_cons.mpr ⟨hRoot, hTour.distinct⟩, ?_, ?_⟩
    · rw [walk_stmt, List.map_cons, List.map_cons, hBelow]
      rfl
    · intro address s hAt
      cases address with
      | nil => exact List.mem_cons_self
      | cons i address => exact List.mem_cons_of_mem _ (hWays i address s hAt)
  | block b =>
    refine ⟨below, hTour.distinct, by rw [walk_block, hBelow], ?_⟩
    intro address s hAt
    cases address with
    | nil => cases hAt
    | cons i address => exact hWays i address s hAt
  | expr e =>
    refine ⟨below, hTour.distinct, by rw [walk_expr, hBelow], ?_⟩
    intro address s hAt
    cases address with
    | nil => cases hAt
    | cons i address => exact hWays i address s hAt
termination_by n.height
decreasing_by exact height_lt_of_child n m hChild

end Node

end CToGo.Source
