import CToGo.Source.Parser.Stmt
import CToGo.Source.Scanner

/-!
# Parsing programs

A program is a sequence of function definitions.

* `program`: reads functions up to the end of the file.
* `parse`: the program that a source text spells.
-/

namespace CToGo.Source

namespace Parser

def param : Parser Param := do
  let start ← here
  let base ← typeSpecifier
  let (name, type) ← declarator base "parameter"
  return { name, type, span := ← spanFrom start }

/-- Whether the word `void` alone stands between the parentheses. -/
def isVoidAlone (s : Stream) : Bool :=
  s.isAt (.keyword .kwVoid) && s.tail.peek? == some (.symbol .rightParen)

/-- The parameters between the parentheses. -/
def params : Parser (List Param) := do
  if ← isAt (.symbol .rightParen) then
    return []
  else if isVoidAlone (← get) then
    advance
    return []
  else
    commaSeparated param

def function : Parser Function := do
  let start ← here
  let base ← typeSpecifier
  let returns ← pointers base
  let name ← identifier "function declaration"
  expectSymbol .leftParen "function declaration"
  let params ← params
  expectSymbol .rightParen "parameter list"
  let body ← block
  return { name, params, returns, body, span := ← spanFrom start }

/-- Functions up to the end of the file. -/
def program : Parser Program := do
  let start ← here
  let functions ← manyWhile (fun s => !s.isAt .endOfFile) function
  return { functions, span := ⟨start, ← here⟩ }

end Parser

/-- The program that a list of tokens spells. -/
def parseTokens (tokens : List Token) : Except Parser.GrammarError Program :=
  match Parser.program (.ofTokens tokens) with
  | .ok p _ => .ok p
  | .error e _ => .error e

/-- The program that a source text spells, or the first problem with it; messages name
`file`. -/
def parse (file : String) (source : String) : Except Diagnostic Program := do
  let tokens ← (tokenize file source).mapError LexicalError.toDiagnostic
  (parseTokens tokens).mapError Parser.GrammarError.toDiagnostic

end CToGo.Source
