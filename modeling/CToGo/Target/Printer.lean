import CToGo.Target.Tree

/-!
# The text of target programs

There is one layout: a tab for each level of nesting, an opening brace at the end of its
line, one blank line between the parts of a file and no line feed at its end. Parentheses
stand only where the expression would be read differently without them.

* `Expr.text`, `Stmt.text`, `Function.text`, `File.text`: the text of each part of a tree.
-/

namespace CToGo.Target

/-! ## Expressions -/

/-- How tightly the parts of an expression hold together. -/
def Expr.precedence : Expr → Nat
  | .binary op _ _ => op.precedence
  | .unary .. => 4
  | .literal _ | .ident _ | .selector .. | .call .. => 5

/-- Whether the text of the expression begins with a minus sign of its own, which must not
meet another one. -/
def Expr.isNegative : Expr → Bool
  | .unary .negate _ => true
  | .literal value => decide (value < 0)
  | _ => false

/-- A text, in parentheses if the condition holds. -/
def parenthesized (condition : Bool) (text : String) : String :=
  if condition then "(" ++ text ++ ")" else text

mutual

/-- The text of an expression. All binary operators are read to the left, so a right operand
of equal precedence needs parentheses and a left one does not. -/
def Expr.text : Expr → String
  | .literal value => toString value
  | .ident name => name
  | .selector package name => package ++ "." ++ name
  | .binary op left right =>
    parenthesized (left.precedence < op.precedence) left.text
      ++ " " ++ op.text ++ " "
      ++ parenthesized (right.precedence ≤ op.precedence) right.text
  | .unary op operand =>
    op.text ++ parenthesized (operand.precedence < 4 || operand.isNegative) operand.text
  | .call function args => function.text ++ "(" ++ ", ".intercalate (textOfEach args) ++ ")"

def textOfEach : List Expr → List String
  | [] => []
  | e :: rest => e.text :: textOfEach rest

end

/-! ## Statements -/

/-- The tabs at the beginning of a line. -/
def tabs (depth : Nat) : String := String.ofList (List.replicate depth '\t')

/-- Lines in braces, the closing one on a line of its own. -/
def braced (depth : Nat) (lines : String) : String :=
  "\x7b\n" ++ lines ++ tabs depth ++ "\x7d"

mutual

/-- The text of a statement that begins at the given depth, without the tabs before it and
the line feed behind it. -/
def Stmt.text (depth : Nat) : Stmt → String
  | .define name value => name ++ " := " ++ value.text
  | .declare name type => "var " ++ name ++ " " ++ type.text
  | .assign target op value => target ++ " " ++ op.text ++ " " ++ value.text
  | .step target op => target ++ op.text
  | .eval e => e.text
  | .branch condition thenBody elseBranch =>
    "if " ++ condition.text ++ " " ++ braced depth (linesOf (depth + 1) thenBody)
      ++ elseBranch.text depth
  | .loop condition body =>
    "for " ++ condition.text ++ " " ++ braced depth (linesOf (depth + 1) body)
  | .leave none => "return"
  | .leave (some value) => "return " ++ value.text
  | .block body => braced depth (linesOf (depth + 1) body)

/-- The text of what follows the first alternative, on the line of its closing brace. -/
def Else.text (depth : Nat) : Else → String
  | .none => ""
  | .block body => " else " ++ braced depth (linesOf (depth + 1) body)
  | .chain next => " else " ++ next.text depth

def linesOf (depth : Nat) : List Stmt → String
  | [] => ""
  | s :: rest => tabs depth ++ s.text depth ++ "\n" ++ linesOf depth rest

end

/-! ## Functions and files -/

def Param.text (p : Param) : String := p.name ++ " " ++ p.type.text

/-- The lines between the braces of a function; where there is nothing, one blank line. -/
def bodyLines : List Stmt → String
  | [] => "\n"
  | body => linesOf 1 body

def Function.text (f : Function) : String :=
  "func " ++ f.name ++ "(" ++ ", ".intercalate (f.params.map Param.text) ++ ")"
    ++ (match f.result with
      | none => ""
      | some ty => " " ++ ty.text)
    ++ " " ++ braced 0 (bodyLines f.body)

def importText (imports : List String) : String :=
  "import (\n" ++ String.join (imports.map fun path => "\t\"" ++ path ++ "\"\n") ++ ")"

/-- The text of a file. -/
def File.text (f : File) : String :=
  "\n\n".intercalate
    (("package " ++ f.package)
      :: (if f.imports.isEmpty then [] else [importText f.imports])
      ++ f.functions.map Function.text)

end CToGo.Target
