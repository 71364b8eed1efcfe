import CToGo.Proofs.Grammar.Vocabulary
import CToGo.Proofs.Lowering.Walk

/-!
# The shapes of compiled trees

The types of target trees allow more than compilation builds. Of the operators in front of an
operand only the sign has a counterpart, a step goes up or down, what is evaluated for its effect
is a call, and an alternative is chained to a branch only. The scanner bounds the literals, the
parser chains branches, and lowering does the rest; no service has a part in it.

* `Target.Expr.Shaped`, `Target.Stmt.Shaped`: the shapes of single expressions and statements.
* `Source.Expr.Image.shaped`, `Source.Stmt.Image.shaped`: images have them in all their parts.
* `Target.Function.Shaped`: the same of all that a function is built from.
* `shaped_of_lower`: **the functions of every program that is parsed and accepted.**
-/

namespace CToGo

open Source (TokenKind)

/-! ## Shapes -/

/-- The functions that may be called: those that the program defines, and the one that ends the
process. -/
inductive Callable (defined : List String) : Target.Expr → Prop where
  | defined {f : String} : f ∈ defined → Callable defined (.ident f)
  | exit : Callable defined (.selector "os" "Exit")

/-- The literal is a signed integer of 64 bits that is not negative. -/
def Source.TokenKind.InRange : TokenKind → Prop
  | .literal value => 0 ≤ value ∧ value ≤ 2 ^ 63 - 1
  | _ => True

theorem Source.Spells.inRange {text : List Char} {kind : TokenKind}
    (h : Source.Spells text kind) : kind.InRange := by
  cases h with
  | @literal digits _ _ hBound =>
    refine ⟨Int.natCast_nonneg _, ?_⟩
    omega
  | _ => trivial

namespace Target

/-- What is the case for an expression, apart from its parts. -/
def Expr.Shaped (defined : List String) : Expr → Prop
  | .literal value => 0 ≤ value ∧ value ≤ 2 ^ 63 - 1
  | .unary op _ => op = .negate
  | .call f _ => Callable defined f
  | _ => True

/-- What is the case for a statement, apart from those nested in it. -/
def Stmt.Shaped : Stmt → Prop
  | .step _ op => op = .increment ∨ op = .decrement
  | .eval e => ∃ f args, e = .call f args
  | .branch _ _ (.chain next) => ∃ condition body alt, next = .branch condition body alt
  | _ => True

/-- The expressions of some statements and all their parts. -/
def nodesOf (ss : List Stmt) : List Expr := partsOfEach (exprsOf ss)

theorem partsOfEach_append (es fs : List Expr) :
    partsOfEach (es ++ fs) = partsOfEach es ++ partsOfEach fs := by
  induction es with
  | nil => rfl
  | cons e es ih => rw [List.cons_append, partsOfEach, ih, partsOfEach, List.append_assoc]

theorem nodesOf_append (ss ts : List Stmt) : nodesOf (ss ++ ts) = nodesOf ss ++ nodesOf ts := by
  rw [nodesOf, exprsOf_append, partsOfEach_append, nodesOf, nodesOf]

theorem walkAll_append (ss ts : List Stmt) : walkAll (ss ++ ts) = walkAll ss ++ walkAll ts := by
  induction ss with
  | nil => rfl
  | cons s ss ih => rw [List.cons_append, walkAll, ih, walkAll, List.append_assoc]

theorem forall_mem_partsOfEach {P : Expr → Prop} {es : List Expr}
    (h : ∀ e ∈ es, ∀ x ∈ e.parts, P x) : ∀ x ∈ partsOfEach es, P x := by
  induction es with
  | nil => exact fun x hx => nomatch hx
  | cons e es ih =>
    rw [partsOfEach, List.forall_mem_append]
    rw [List.forall_mem_cons] at h
    exact ⟨h.1, ih h.2⟩

/-- All calls in some statements go to functions that may be called. -/
def CallsOnly (defined : List String) (ss : List Stmt) : Prop :=
  ∀ f args, .call f args ∈ nodesOf ss → Callable defined f

/-- The shapes of all that a function is built from. One call goes to a function of the target
language: at the beginning of a `main` the process arguments are counted. -/
structure Function.Shaped (defined : List String) (f : Function) : Prop where
  unary : ∀ op e, .unary op e ∈ nodesOf f.body → op = .negate
  literal : ∀ value, .literal value ∈ nodesOf f.body → 0 ≤ value ∧ value ≤ 2 ^ 63 - 1
  step : ∀ x op, .step x op ∈ walkAll f.body → op = .increment ∨ op = .decrement
  eval : ∀ e, .eval e ∈ walkAll f.body → ∃ g args, e = .call g args
  chain : ∀ c ss next, .branch c ss (.chain next) ∈ walkAll f.body →
    ∃ condition body alt, next = .branch condition body alt
  call : CallsOnly defined f.body ∨ f.name = "main" ∧ ∃ count rest,
    f.body = .define count (.call (.ident "len") [.selector "os" "Args"]) :: rest ∧
      CallsOnly defined rest

end Target

/-! ## Images -/

mutual

/-- An image has the shapes of images in all its parts. -/
theorem Source.Expr.Image.shaped {ctx : Context} {e : Source.Expr} {e' : Target.Expr}
    (h : ∀ k ∈ e.vocabulary, k.InRange) :
    e.Image ctx e' → ∀ x ∈ e'.parts, x.Shaped ctx.functions
  | .literal value _ => by
    rw [Target.Expr.parts, List.forall_mem_singleton]
    exact h _ List.mem_cons_self
  | .ident _ => by
    rw [Target.Expr.parts, List.forall_mem_singleton]
    trivial
  | .binary ha hb => by
    rw [Source.Expr.vocabulary, List.forall_mem_append] at h
    rw [Target.Expr.parts, List.forall_mem_cons, List.forall_mem_append]
    exact ⟨trivial, ha.shaped h.1, hb.shaped h.2⟩
  | .negate he => by
    rw [Source.Expr.vocabulary] at h
    rw [Target.Expr.parts, List.forall_mem_cons]
    exact ⟨rfl, he.shaped h⟩
  | .call hf hargs => by
    rw [Source.Expr.vocabulary, List.forall_mem_cons] at h
    rw [Target.Expr.parts, Target.Expr.parts, List.forall_mem_cons, List.forall_mem_append,
      List.forall_mem_singleton]
    exact ⟨.defined hf, trivial, hargs.shaped h.2⟩

theorem ImageEach.shaped {ctx : Context} {es : List Source.Expr} {es' : List Target.Expr}
    (h : ∀ k ∈ Source.vocabularyOfEach es, k.InRange) :
    ImageEach ctx es es' → ∀ x ∈ Target.partsOfEach es', x.Shaped ctx.functions
  | .nil => fun _ hx => nomatch hx
  | .cons he hes => by
    rw [Source.vocabularyOfEach, List.forall_mem_append] at h
    rw [Target.partsOfEach, List.forall_mem_append]
    exact ⟨he.shaped h.1, hes.shaped h.2⟩

end

theorem Uses.shaped {ctx : Context} {inMain : Bool} {s : Source.Stmt} {e : Target.Expr}
    (hs : ∀ k ∈ s.vocabulary, k.InRange) (h : Uses ctx inMain s e) :
    ∀ x ∈ e.parts, x.Shaped ctx.functions := by
  cases h with
  | init he => exact he.shaped (List.forall_mem_cons.mp hs).2
  | assigned he => exact he.shaped (List.forall_mem_cons.mp hs).2
  | evaluated he => exact he.shaped hs
  | branch hc => exact hc.shaped hs
  | loop hc => exact hc.shaped hs
  | result he => exact he.shaped hs
  | @status e e' _ _ he =>
    have hStatus : ∀ x ∈ Target.partsOfEach [e'], x.Shaped ctx.functions := by
      rw [Target.partsOfEach, Target.partsOfEach, List.append_nil]
      exact he.shaped hs
    rw [Target.Expr.parts, Target.Expr.parts, List.forall_mem_cons, List.forall_mem_append,
      List.forall_mem_singleton]
    exact ⟨.exit, trivial, hStatus⟩

theorem Source.Else.Image.shaped_branch {ctx : Context} {inMain : Bool} {c : Source.Expr}
    {b : Source.Block} {alt : Source.Else} {span : Source.Span} {alt' : Target.Else}
    (hChains : (Source.Stmt.branch c b alt span).chainsBranch) (h : alt.Image ctx inMain alt')
    (c' : Target.Expr) (ss' : List Target.Stmt) : (Target.Stmt.branch c' ss' alt').Shaped := by
  cases h with
  | none => trivial
  | block => trivial
  | chain hs =>
    cases hs with
    | branch => exact ⟨_, _, _, rfl⟩
    | _ => cases hChains

mutual

/-- The statements of an image have the shapes of images, if alternatives are chained to branches
in the source. -/
theorem Source.Stmt.Image.shaped {ctx : Context} {inMain : Bool} {s : Source.Stmt}
    {s' : Target.Stmt} (h : ∀ t ∈ s.walk, t.chainsBranch) :
    s.Image ctx inMain s' → ∀ t ∈ s'.walk, t.Shaped
  | .declare _ => List.forall_mem_singleton.mpr trivial
  | .define _ _ => List.forall_mem_singleton.mpr trivial
  | .assign _ _ => List.forall_mem_singleton.mpr trivial
  | @Source.Stmt.Image.step _ _ op _ _ _ _ _ hop _ => by
    refine List.forall_mem_singleton.mpr ?_
    cases op with
    | negate => exact absurd rfl hop
    | increment => exact .inl rfl
    | decrement => exact .inr rfl
  | .call he => by
    refine List.forall_mem_singleton.mpr ?_
    cases he
    exact ⟨_, _, rfl⟩
  | .branch _ hss hAlt => by
    rw [Source.Stmt.walk, List.forall_mem_cons, List.forall_mem_append] at h
    rw [Target.Stmt.walk, List.forall_mem_cons, List.forall_mem_append]
    exact ⟨hAlt.shaped_branch h.1 _ _, hss.shaped h.2.1, hAlt.shaped h.2.2⟩
  | .loop _ hss => by
    rw [Source.Stmt.walk, List.forall_mem_cons] at h
    rw [Target.Stmt.walk, List.forall_mem_cons]
    exact ⟨trivial, hss.shaped h.2⟩
  | .leave => List.forall_mem_singleton.mpr trivial
  | .result _ _ => List.forall_mem_singleton.mpr trivial
  | .status _ _ => List.forall_mem_singleton.mpr ⟨_, _, rfl⟩
  | .block hss => by
    rw [Source.Stmt.walk, List.forall_mem_cons] at h
    rw [Target.Stmt.walk, List.forall_mem_cons]
    exact ⟨trivial, hss.shaped h.2⟩

theorem Source.Else.Image.shaped {ctx : Context} {inMain : Bool} {alt : Source.Else}
    {alt' : Target.Else} (h : ∀ t ∈ alt.walk, t.chainsBranch) :
    alt.Image ctx inMain alt' → ∀ t ∈ alt'.walk, t.Shaped
  | .none => fun _ ht => nomatch ht
  | .block hss => hss.shaped h
  | .chain hs => hs.shaped h

theorem ImageAll.shaped {ctx : Context} {inMain : Bool} {ss : List Source.Stmt}
    {ss' : List Target.Stmt} (h : ∀ t ∈ Source.walkAll ss, t.chainsBranch) :
    ImageAll ctx inMain ss ss' → ∀ t ∈ Target.walkAll ss', t.Shaped
  | .nil => fun _ ht => nomatch ht
  | .cons hs hss => by
    rw [Source.walkAll, List.forall_mem_append] at h
    rw [Target.walkAll, List.forall_mem_append]
    exact ⟨hs.shaped h.1, hss.shaped h.2⟩

end

theorem ImageAll.shaped_nodes {ctx : Context} {inMain : Bool} {ss : List Source.Stmt}
    {ss' : List Target.Stmt} (hImage : ImageAll ctx inMain ss ss')
    (h : ∀ s ∈ Source.walkAll ss, ∀ k ∈ s.vocabulary, k.InRange) :
    ∀ x ∈ Target.nodesOf ss', x.Shaped ctx.functions := by
  refine Target.forall_mem_partsOfEach fun e he => ?_
  obtain ⟨s, hs, hUses⟩ := hImage.exists_uses he
  exact hUses.shaped (h s hs)

/-! ## Functions -/

/-- A function has the shapes of images if its single statements and expressions have them, where
the bindings in front of its body are left out. -/
theorem Target.Function.shaped_of_body {defined : List String} {f : Target.Function}
    {bindings body : List Target.Stmt} (hBody : f.body = bindings ++ body)
    (hBindings : bindings = [] ∨
      f.name = "main" ∧ ∃ count vector, bindings = bindArguments count vector)
    (hStmts : ∀ s ∈ Target.walkAll body, s.Shaped)
    (hNodes : ∀ x ∈ Target.nodesOf body, x.Shaped defined) : f.Shaped defined := by
  have hCalls : Target.CallsOnly defined body := fun g args hMem => hNodes _ hMem
  have hAll : ∀ s ∈ Target.walkAll f.body, s.Shaped := by
    rw [hBody, Target.walkAll_append, List.forall_mem_append]
    refine ⟨?_, hStmts⟩
    rcases hBindings with rfl | ⟨-, count, vector, rfl⟩
    · exact List.forall_mem_nil _
    · simp [bindArguments, Target.walkAll, Target.Stmt.walk, Target.Stmt.Shaped]
  -- The bindings have neither operators nor literals.
  have hPlain : ∀ x ∈ Target.nodesOf f.body, (∃ g args, x = .call g args) ∨ x.Shaped defined := by
    rw [hBody, Target.nodesOf_append, List.forall_mem_append]
    refine ⟨?_, fun x hx => .inr (hNodes x hx)⟩
    rcases hBindings with rfl | ⟨-, count, vector, rfl⟩
    · exact List.forall_mem_nil _
    · simp [bindArguments, processArguments, Target.nodesOf, Target.exprsOf, Target.Stmt.exprs,
        Target.partsOfEach, Target.Expr.parts, Target.Expr.Shaped]
  refine ⟨?_, ?_, fun x op hs => hAll _ hs, fun e hs => hAll _ hs, fun c ss next hs => hAll _ hs,
    ?_⟩
  · intro op e hx
    rcases hPlain _ hx with ⟨g, args, hCall⟩ | hShaped
    · cases hCall
    · exact hShaped
  · intro value hx
    rcases hPlain _ hx with ⟨g, args, hCall⟩ | hShaped
    · cases hCall
    · exact hShaped
  · rcases hBindings with rfl | ⟨hName, count, vector, rfl⟩
    · exact .inl (hBody ▸ hCalls)
    · refine .inr ⟨hName, count, .define vector processArguments :: body, hBody, ?_⟩
      intro g args hMem
      have hMem : Target.Expr.call g args ∈ processArguments.parts ++ Target.nodesOf body := hMem
      rcases List.mem_append.mp hMem with hArguments | hMem
      · simp [processArguments, Target.Expr.parts] at hArguments
      · exact hCalls g args hMem

theorem BindingsImage.eq_nil_or_arguments {ctx : Context} {params : List Source.Param}
    {bindings : List Target.Stmt} (h : BindingsImage ctx params bindings) :
    bindings = [] ∨ ∃ count vector, bindings = bindArguments count vector := by
  cases h with
  | plain => exact .inl rfl
  | arguments => exact .inr ⟨_, _, rfl⟩

theorem Source.Function.Image.shaped {ctx : Context} {f : Source.Function}
    {f' : Target.Function}
    (hBody : ∀ s ∈ f.body.walk, (∀ k ∈ s.vocabulary, k.InRange) ∧ s.chainsBranch)
    (h : f.Image ctx f') : f'.Shaped ctx.functions := by
  rw [Source.Block.walk_eq] at hBody
  have hStmts {inMain : Bool} {body : List Target.Stmt}
      (hImage : ImageAll ctx inMain f.body.stmts body) : ∀ s ∈ Target.walkAll body, s.Shaped :=
    hImage.shaped fun s hs => (hBody s hs).2
  have hNodes {inMain : Bool} {body : List Target.Stmt}
      (hImage : ImageAll ctx inMain f.body.stmts body) :
      ∀ x ∈ Target.nodesOf body, x.Shaped ctx.functions :=
    hImage.shaped_nodes fun s hs => (hBody s hs).1
  cases h with
  | entry hMain _ _ hBindings hImage =>
    exact Target.Function.shaped_of_body rfl
      (hBindings.eq_nil_or_arguments.imp_right (And.intro (beq_iff_eq.mp hMain)))
      (hStmts hImage) (hNodes hImage)
  | plain _ _ _ _ hImage =>
    exact Target.Function.shaped_of_body (List.nil_append _).symm (.inl rfl) (hStmts hImage)
      (hNodes hImage)

/-- **Shapes.** Whatever is required of a program that a source text spells: if it is accepted,
every sign in front of an operand is a minus sign, every literal is between zero and `2 ^ 63 - 1`,
every step goes up or down, every expression evaluated for its effect is a call, every chained
alternative is a branch, and what is called is a function of the program or the end of the
process, except that a `main` may begin by counting the process arguments. -/
theorem shaped_of_lower {file source : String} {p : Source.Program}
    {requirements : Requirements} {out : Target.File}
    (hParse : Source.parse file source = .ok p) (hLower : p.lower requirements = .ok out) :
    ∀ f ∈ out.functions, f.Shaped (p.functions.map (·.name)) := by
  intro f' hf'
  obtain ⟨-, -, hImages⟩ := Source.Program.image_of_lower hLower
  obtain ⟨f, hf, hImage⟩ := exists_left_of_forall₂ hImages hf'
  obtain ⟨-, hBody⟩ := Source.vocabulary_of_parse (P := TokenKind.InRange) trivial
    Source.Spells.inRange hParse hf
  exact hImage.shaped hBody

/-- A source text with a chained alternative, steps, the largest literal and process arguments. -/
def countingSource : String :=
  "int f(int a) \x7b if (a) \x7b a++; \x7d else if (-a < 9223372036854775807) \x7b f(a); \x7d " ++
  "return 0; \x7d int main(int n, char **v) \x7b return f(n); \x7d"

theorem shaped_of_lower_counting :
    ∃ p out, Source.parse "f.c" countingSource = .ok p ∧ p.lower .empty = .ok out ∧
      out.functions.map (·.name) = ["f", "main"] ∧
      ∀ f ∈ out.functions, f.Shaped (p.functions.map (·.name)) := by
  have hChecked : (Source.parse "f.c" countingSource).toOption.any fun p =>
      (p.lower .empty).toOption.any fun out =>
        decide (out.functions.map (·.name) = ["f", "main"]) := by decide +kernel
  obtain ⟨p, hParse, hAccepted⟩ := exists_eq_ok_of_any hChecked
  obtain ⟨out, hLower, hNames⟩ := exists_eq_ok_of_any hAccepted
  exact ⟨p, out, hParse, hLower, of_decide_eq_true hNames, shaped_of_lower hParse hLower⟩

end CToGo
