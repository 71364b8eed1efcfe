import CToGo.Source.Parser.Stream

/-!
# Parsing types and declarators

A declaration names a base type and then a declarator: stars, the declared name, and
possibly an empty pair of brackets.
-/

namespace CToGo.Source.Parser

/-- The type that a single token names. -/
def baseType? : TokenKind → Option Ty
  | .keyword .kwInt => some .int
  | .keyword .kwChar => some .char
  | .keyword .kwVoid => some .void
  | _ => none

/-- Reads `int`, `char` or `void`. -/
def typeSpecifier : Parser Ty := do
  match (← peek?).bind baseType? with
  | some ty =>
    advance
    return ty
  | none => unexpected .typeSpecifier

/-- Reads stars, each of which makes a pointer type. -/
def pointers (base : Ty) : Parser Ty := do
  let stars ← manyWhile (·.isAt (.symbol .star)) advance
  return stars.foldl (fun ty _ => .pointer ty) base

/-- Reads a declarator and gives the declared name and its type. -/
def declarator (base : Ty) (context : String) : Parser (String × Ty) := do
  let ty ← pointers base
  let name ← identifier context
  if ← accept (.symbol .leftBracket) then
    expectSymbol .rightBracket "array declarator"
    return (name, .array ty)
  else
    return (name, ty)

end CToGo.Source.Parser
