import CToGo.Operator

/-!
# Target programs

The tree of a file of the target language, as far as compiled programs need it. The types
allow a few shapes that compilation never builds, such as a negative literal or a branch
chained to a statement that is no branch; all of them have a text.
-/

namespace CToGo.Target

/-- The types. -/
inductive Ty where
  | int
deriving DecidableEq, Inhabited, Repr

def Ty.text : Ty → String
  | int => "int"

/-- The expressions. -/
inductive Expr where
  | literal (value : Int)
  | ident (name : String)
  /-- A name of an imported package. -/
  | selector (package name : String)
  | binary (op : BinaryOp) (left right : Expr)
  /-- An operator in front of its operand. -/
  | unary (op : UnaryOp) (operand : Expr)
  | call (function : Expr) (args : List Expr)
deriving Inhabited, Repr

mutual

/-- The statements. -/
inductive Stmt where
  /-- The definition of a variable by its first value. -/
  | define (name : String) (value : Expr)
  /-- The declaration of a variable without a value. -/
  | declare (name : String) (type : Ty)
  | assign (target : String) (op : AssignOp) (value : Expr)
  /-- A variable is stepped up or down by one. -/
  | step (target : String) (op : UnaryOp)
  /-- An expression evaluated for its effect. -/
  | eval (e : Expr)
  | branch (condition : Expr) (thenBody : List Stmt) (elseBranch : Else)
  /-- A loop with nothing but a condition. -/
  | loop (condition : Expr) (body : List Stmt)
  | leave (value : Option Expr)
  | block (body : List Stmt)

/-- What follows the first alternative of a branch. -/
inductive Else where
  | none
  | block (body : List Stmt)
  /-- The alternative is a branch itself. -/
  | chain (next : Stmt)

end

deriving instance Inhabited for Stmt, Else

/-- A parameter of a function. -/
structure Param where
  name : String
  type : Ty
deriving DecidableEq, Inhabited, Repr

/-- The definition of a function. -/
structure Function where
  name : String
  params : List Param
  /-- The type of the result; a function need not have one. -/
  result : Option Ty
  body : List Stmt
deriving Inhabited

/-- A file of the target language. -/
structure File where
  package : String
  /-- The imported packages, in increasing order. -/
  imports : List String
  functions : List Function
deriving Inhabited

end CToGo.Target
