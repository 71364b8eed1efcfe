import CToGo.Operator
import CToGo.Source.Location

/-!
# Source programs

The tree of a source program. Every node carries the span it was read from as its last
component. Parentheses leave no trace, and the bodies of branches and loops are blocks
even where the braces were left out.

* `Ty`: the types, with their display form.
* `Expr`, `Stmt`, `Block`, `Else`: expressions and statements.
* `Block.walk`: all statements inside a block, each before those nested in it.
* `Program`: a list of functions.
-/

namespace CToGo.Source

/-! ## Types -/

/-- The types that can be written. -/
inductive Ty where
  | void
  | int
  | char
  | pointer (target : Ty)
  /-- An array of unstated length. -/
  | array (element : Ty)
deriving DecidableEq, Inhabited, Repr

namespace Ty

/-- The display form of a type. -/
def text : Ty → String
  | void => "void"
  | int => "int"
  | char => "char"
  | pointer target => target.text ++ "*"
  | array element => element.text ++ "[]"

/-- Whether the type is that of the vector of process arguments: a pointer to, or an array
of, pointers to characters. -/
def isArgumentVector : Ty → Bool
  | pointer (pointer char) => true
  | array (pointer char) => true
  | _ => false

end Ty

/-! ## Expressions -/

/-- The expressions. -/
inductive Expr where
  /-- An integer literal. -/
  | literal (value : Int) (span : Span)
  /-- A variable. -/
  | ident (name : String) (span : Span)
  | binary (op : BinaryOp) (left right : Expr) (span : Span)
  | unary (op : UnaryOp) (operand : Expr) (fixity : Fixity) (span : Span)
  /-- A call of a function by its name. -/
  | call (callee : String) (args : List Expr) (span : Span)
  /-- An assignment to a variable. -/
  | assign (op : AssignOp) (target : String) (value : Expr) (span : Span)
deriving Inhabited, Repr

namespace Expr

def span : Expr → Span
  | literal _ s => s
  | ident _ s => s
  | binary _ _ _ s => s
  | unary _ _ _ s => s
  | call _ _ s => s
  | assign _ _ _ s => s

/-- The name of a variable; other expressions have none. -/
def name? : Expr → Option String
  | ident name _ => some name
  | _ => none

/-- What messages call an expression of this form. -/
def description : Expr → String
  | literal .. => "integer literal"
  | ident .. => "identifier"
  | binary .. => "binary expression"
  | unary .. => "unary expression"
  | call .. => "function call"
  | assign .. => "assignment"

end Expr

/-! ## Statements -/

mutual

/-- The statements. -/
inductive Stmt where
  /-- The declaration of a local variable. -/
  | declare (name : String) (type : Ty) (init : Option Expr) (span : Span)
  /-- An expression evaluated for its effect. -/
  | eval (e : Expr) (span : Span)
  | branch (condition : Expr) (thenBlock : Block) (elseBranch : Else) (span : Span)
  | loop (condition : Expr) (body : Block) (span : Span)
  | leave (value : Option Expr) (span : Span)
  | block (body : Block) (span : Span)

/-- A sequence of statements with a scope of its own. -/
inductive Block where
  | mk (stmts : List Stmt) (span : Span)

/-- What follows the first alternative of a branch. -/
inductive Else where
  /-- There is no second alternative. -/
  | none
  | block (body : Block)
  /-- The alternative is a branch itself; a tree built by hand may hold any statement. -/
  | chain (next : Stmt)

end

deriving instance Inhabited for Stmt, Block, Else

def Stmt.span : Stmt → Span
  | declare _ _ _ s => s
  | eval _ s => s
  | branch _ _ _ s => s
  | loop _ _ s => s
  | leave _ s => s
  | block _ s => s

def Block.stmts : Block → List Stmt
  | mk stmts _ => stmts

def Block.span : Block → Span
  | mk _ s => s

mutual

/-- A statement, followed by all statements nested in it in the order of the text. -/
def Stmt.walk : Stmt → List Stmt
  | s@(.branch _ thenBlock elseBranch _) => s :: (thenBlock.walk ++ elseBranch.walk)
  | s@(.loop _ body _) => s :: body.walk
  | s@(.block body _) => s :: body.walk
  | s => [s]

/-- All statements inside a block, each before those nested in it. -/
def Block.walk : Block → List Stmt
  | .mk stmts _ => walkAll stmts

/-- All statements inside the alternative. -/
def Else.walk : Else → List Stmt
  | .none => []
  | .block body => body.walk
  | .chain next => next.walk

/-- All statements of a list and nested in it. -/
def walkAll : List Stmt → List Stmt
  | [] => []
  | s :: rest => s.walk ++ walkAll rest

end

/-- Whether the statement is a `return` with a value. -/
def Stmt.leavesWithValue : Stmt → Bool
  | .leave (some _) _ => true
  | _ => false

/-! ## Functions and programs -/

/-- A parameter of a function. -/
structure Param where
  name : String
  type : Ty
  span : Span
deriving DecidableEq, Inhabited, Repr

/-- The definition of a function. -/
structure Function where
  name : String
  params : List Param
  returns : Ty
  body : Block
  span : Span
deriving Inhabited

/-- Whether the function is the one that a run of the program begins with. -/
def Function.isMain (f : Function) : Bool := f.name == "main"

/-- A source program. -/
structure Program where
  functions : List Function
  span : Span
deriving Inhabited

namespace Program

/-- The first function of the given name. -/
def find? (p : Program) (name : String) : Option Function :=
  p.functions.find? (·.name == name)

/-- The function that a run begins with: the first named `main`. -/
def main? (p : Program) : Option Function := p.functions.find? (·.isMain)

end Program

end CToGo.Source
