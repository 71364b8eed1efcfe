import CToGo.Source.Parser.Stream

/-!
# Parsing expressions

From the loosest to the tightest: assignment (to the right), equality, comparison, sums and
products (to the left), operators in front of their operand, calls and operators behind
their operand, and finally literals, identifiers and parentheses.

Each level is given for any parser `inner` of the expressions inside parentheses and on the
right of an assignment. Every step into `inner` is paid for, so a budget of `n` allows at
most `n` of them inside one another: this is what `expressionWithin` recurses on, and why
`expression` never meets its base case.
-/

namespace CToGo.Source.Parser

/-! ## Tables of operators -/

/-- The tokens of the equality level. -/
def equalityOp? : TokenKind → Option BinaryOp
  | .symbol .equalEqual => some .equal
  | .symbol .bangEqual => some .notEqual
  | _ => none

def relationalOp? : TokenKind → Option BinaryOp
  | .symbol .less => some .less
  | .symbol .greater => some .greater
  | .symbol .lessEqual => some .lessEqual
  | .symbol .greaterEqual => some .greaterEqual
  | _ => none

def additiveOp? : TokenKind → Option BinaryOp
  | .symbol .plus => some .add
  | .symbol .minus => some .sub
  | _ => none

def multiplicativeOp? : TokenKind → Option BinaryOp
  | .symbol .star => some .mul
  | .symbol .slash => some .div
  | .symbol .percent => some .mod
  | _ => none

/-- The tokens that assign. -/
def assignOp? : TokenKind → Option AssignOp
  | .symbol .equal => some .assign
  | .symbol .plusEqual => some .addAssign
  | .symbol .minusEqual => some .subAssign
  | .symbol .starEqual => some .mulAssign
  | .symbol .slashEqual => some .divAssign
  | .symbol .percentEqual => some .modAssign
  | _ => none

/-- The operators that may stand in front of their operand. -/
def leadingOp? : TokenKind → Option UnaryOp
  | .symbol .minus => some .negate
  | .symbol .plusPlus => some .increment
  | .symbol .minusMinus => some .decrement
  | _ => none

/-- The operators that may stand behind their operand. -/
def trailingOp? : TokenKind → Option UnaryOp
  | .symbol .plusPlus => some .increment
  | .symbol .minusMinus => some .decrement
  | _ => none

/-! ## Levels -/

/-- Two operands joined by an operator, from the start of one to the end of the other. -/
def binary (left : Expr) (op : BinaryOp) (right : Expr) : Expr :=
  .binary op left right ⟨left.span.start, right.span.stop⟩

/-- A literal, an identifier, or an expression in parentheses. -/
def primaryOver (inner : Parser Expr) : Parser Expr := do
  let start ← here
  match ← peek? with
  | some (.literal value) =>
    advance
    return .literal value (← spanFrom start)
  | some (.identifier name) =>
    advance
    return .ident name (← spanFrom start)
  | some (.symbol .leftParen) =>
    spend groupCost
    advance
    let e ← inner
    expectSymbol .rightParen "parenthesized expression"
    return e
  | _ => unexpected .expression

/-- The arguments of a call to `callee`, which must be an identifier. -/
def callOver (inner : Parser Expr) (callee : Expr) : Parser Expr := do
  let start := callee.span.start
  match callee.name? with
  | none => throw (.unsuitable .functionName callee.description start)
  | some name =>
    spend groupCost
    expectSymbol .leftParen "function call"
    let args ← if ← isAt (.symbol .rightParen) then pure [] else commaSeparated inner
    expectSymbol .rightParen "function call"
    return .call name args (← spanFrom start)

/-- A primary expression, at most one list of arguments, and at most one operator that steps
an identifier. -/
def suffixedOver (inner : Parser Expr) : Parser Expr := do
  let head ← primaryOver inner
  let e ← if ← isAt (.symbol .leftParen) then callOver inner head else pure head
  match (← peek?).bind trailingOp? with
  | none => return e
  | some op =>
    match e.name? with
    | none => throw (.unsuitable (.operandBefore op) e.description e.span.start)
    | some _ =>
      advance
      return .unary op e .trailing (← spanFrom e.span.start)

/-- Operators in front of an operand, at most `n` of them. -/
def unaryWithin (inner : Parser Expr) : Nat → Parser Expr
  | 0 => do throw (.tooDeep (← here))
  | n + 1 => do
    let start ← here
    match (← peek?).bind leadingOp? with
    | none => suffixedOver inner
    | some op =>
      spend operatorCost
      advance
      let operand ← unaryWithin inner n
      if op ≠ .negate ∧ operand.name? = none then
        throw (.unsuitable (.operandAfter op) operand.description operand.span.start)
      return .unary op operand .leading ⟨start, operand.span.stop⟩

/-- Operators in front of an operand. Each is paid for, so the budget bounds their number. -/
def unaryOver (inner : Parser Expr) : Parser Expr := do
  unaryWithin inner ((← get).budget + 1)

/-- Operands joined to the left by the operators of one level. -/
def chain (op? : TokenKind → Option BinaryOp) (operand : Parser Expr) : Parser Expr := do
  let first ← operand
  let rest ← many (fun s => s.peek?.bind op?) fun op => do
    spend operatorCost
    advance
    let right ← operand
    return (op, right)
  return rest.foldl (fun left (op, right) => binary left op right) first

/-- Products. -/
def multiplicativeOver (inner : Parser Expr) : Parser Expr :=
  chain multiplicativeOp? (unaryOver inner)

/-- Sums of products. -/
def additiveOver (inner : Parser Expr) : Parser Expr :=
  chain additiveOp? (multiplicativeOver inner)

/-- Sums that are compared by size. -/
def relationalOver (inner : Parser Expr) : Parser Expr :=
  chain relationalOp? (additiveOver inner)

/-- Comparisons that are tested for equality. -/
def equalityOver (inner : Parser Expr) : Parser Expr :=
  chain equalityOp? (relationalOver inner)

/-- An assignment, or an expression without one. The target is only looked at once the value
has been read. -/
def assignmentOver (inner : Parser Expr) : Parser Expr := do
  let left ← equalityOver inner
  match (← peek?).bind assignOp? with
  | none => return left
  | some op =>
    advance
    spend operatorCost
    let right ← inner
    match left.name? with
    | none => throw (.unsuitable .assignmentTarget left.description left.span.start)
    | some target => return .assign op target right ⟨left.span.start, right.span.stop⟩

/-- An expression with at most `n` expressions inside one another. -/
def expressionWithin : Nat → Parser Expr
  | 0 => do throw (.tooDeep (← here))
  | n + 1 => assignmentOver (expressionWithin n)

/-- An expression. Every step into an inner expression is paid for, so the budget bounds
their depth. -/
def expression : Parser Expr := do
  expressionWithin ((← get).budget + 1)

/-- An expression on the assignment level. -/
def assignment : Parser Expr := assignmentOver expression

def equality : Parser Expr := equalityOver expression

def relational : Parser Expr := relationalOver expression

def additive : Parser Expr := additiveOver expression

def multiplicative : Parser Expr := multiplicativeOver expression

/-- An expression on the level of operators in front of their operand. -/
def unary : Parser Expr := unaryOver expression

/-- An expression on the level of calls and operators behind their operand. -/
def suffixed : Parser Expr := suffixedOver expression

/-- A literal, an identifier, or an expression in parentheses. -/
def primary : Parser Expr := primaryOver expression

end CToGo.Source.Parser
