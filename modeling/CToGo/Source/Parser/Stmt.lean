import CToGo.Source.Parser.Declarator
import CToGo.Source.Parser.Expr

/-!
# Parsing statements

The nesting that a statement or a block pays for is given back once it has been read, so
that only what is nested counts, and not what stands side by side. As with expressions, the
parsers are given for any parser `inner` of nested statements, and each step into it is paid
for.
-/

namespace CToGo.Source.Parser

/-- A block in braces. -/
def blockOver (inner : Parser Stmt) : Parser Block := do
  let start ← here
  let stmts ← refunding do
    spend groupCost
    expectSymbol .leftBrace "block"
    let stmts ← manyWhile (fun s => !s.isAt (.symbol .rightBrace) && !s.isAt .endOfFile) inner
    expectSymbol .rightBrace "block"
    return stmts
  return .mk stmts (← spanFrom start)

/-- A block, or a single statement that stands for the block holding it. -/
def bodyOver (inner : Parser Stmt) : Parser Block := do
  if ← isAt (.symbol .leftBrace) then blockOver inner
  else
    spend groupCost
    let s ← inner
    return .mk [s] s.span

/-- The condition of a branch or a loop, up to the parenthesis that closes it. -/
def condition (construct : String) : Parser Expr := do
  expectSymbol .leftParen (construct ++ " statement")
  let e ← refunding expression
  expectSymbol .rightParen (construct ++ " condition")
  return e

/-- What follows the first alternative of a branch. -/
def elseOver (inner : Parser Stmt) : Parser Else := do
  if ← accept (.keyword .kwElse) then
    if ← isAt (.keyword .kwIf) then
      spend operatorCost
      return .chain (← inner)
    else
      return .block (← bodyOver inner)
  else
    return .none

/-- A branch, behind the word `if`. -/
def branchOver (inner : Parser Stmt) : Parser (Span → Stmt) := do
  let e ← condition "if"
  let thenBlock ← bodyOver inner
  let elseBranch ← elseOver inner
  return .branch e thenBlock elseBranch

/-- A loop, behind the word `while`. -/
def loopOver (inner : Parser Stmt) : Parser (Span → Stmt) := do
  let e ← condition "while"
  let body ← bodyOver inner
  return .loop e body

/-- The end of a call, behind the word `return`. -/
def leave : Parser (Span → Stmt) := do
  let value ← if ← isAt (.symbol .semicolon) then pure none else some <$> expression
  expectSymbol .semicolon "return statement"
  return .leave value

/-- The declaration of a local variable. -/
def declaration : Parser (Span → Stmt) := do
  let base ← typeSpecifier
  let (name, ty) ← declarator base "variable declaration"
  let init ← if ← accept (.symbol .equal) then some <$> expression else pure none
  expectSymbol .semicolon "variable declaration"
  return .declare name ty init

/-- An expression evaluated for its effect. -/
def evaluation : Parser (Span → Stmt) := do
  let e ← expression
  expectSymbol .semicolon "expression statement"
  return .eval e

/-- A statement of the form that the next token decides. -/
def formOver (inner : Parser Stmt) : Parser (Span → Stmt) := do
  match ← peek? with
  | some (.symbol .leftBrace) => return .block (← blockOver inner)
  | some (.keyword .kwIf) =>
    advance
    branchOver inner
  | some (.keyword .kwWhile) =>
    advance
    loopOver inner
  | some (.keyword .kwReturn) =>
    advance
    leave
  | some kind => if kind.isTypeSpecifier then declaration else evaluation
  | none => evaluation

def statementOver (inner : Parser Stmt) : Parser Stmt := do
  let start ← here
  let form ← refunding (formOver inner)
  return form (← spanFrom start)

/-- A statement with at most `n` statements inside one another. -/
def statementWithin : Nat → Parser Stmt
  | 0 => do throw (.tooDeep (← here))
  | n + 1 => statementOver (statementWithin n)

/-- A statement. Every step into a nested statement is paid for, so the budget bounds their
depth. -/
def statement : Parser Stmt := do
  statementWithin ((← get).budget + 1)

/-- A block in braces. -/
def block : Parser Block := blockOver statement

end CToGo.Source.Parser
