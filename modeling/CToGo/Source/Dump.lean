import CToGo.Json.Value
import CToGo.Source.Tree

/-!
# Programs as JSON

The JSON value of a source program: every node with its span, every location in full. A
node that has several forms is an object with one field, named for its form.
-/

namespace CToGo.Source

open Json (Value)

def Location.toValue (l : Location) : Value :=
  .object [("filename", .ofString l.file), ("line", .ofNat l.line), ("column", .ofNat l.column),
    ("offset", .ofNat l.offset)]

def Span.toValue (s : Span) : Value :=
  .object [("start", s.start.toValue), ("end", s.stop.toValue)]

/-- The value of something that need not be there. -/
def nullable {α : Type} (f : α → Value) : Option α → Value
  | none => .null
  | some a => f a

/-- The value of a form. -/
def form (name : String) (v : Value) : Value := .object [(name, v)]

def Ty.toValue : Ty → Value
  | .void => .ofString "Void"
  | .int => .ofString "Int"
  | .char => .ofString "Char"
  | .pointer target => form "Pointer" target.toValue
  | .array element => form "Array" element.toValue

def binaryOpName : BinaryOp → String
  | .add => "Add"
  | .sub => "Sub"
  | .mul => "Mul"
  | .div => "Div"
  | .mod => "Mod"
  | .equal => "Equal"
  | .notEqual => "NotEqual"
  | .less => "Less"
  | .greater => "Greater"
  | .lessEqual => "LessEqual"
  | .greaterEqual => "GreaterEqual"

def unaryOpName : UnaryOp → String
  | .negate => "Negate"
  | .increment => "Increment"
  | .decrement => "Decrement"

def assignOpName : AssignOp → String
  | .assign => "Assign"
  | .addAssign => "AddAssign"
  | .subAssign => "SubAssign"
  | .mulAssign => "MulAssign"
  | .divAssign => "DivAssign"
  | .modAssign => "ModAssign"

/-- The name of a side. -/
def fixityName : Fixity → String
  | .leading => "Prefix"
  | .trailing => "Postfix"

/-- The value of a node with its span. -/
def node (kind : Value) (span : Span) : Value :=
  .object [("kind", kind), ("span", span.toValue)]

mutual

def Expr.toValue : Expr → Value
  | .literal value span => node (form "IntegerLiteral" (.number (toString value))) span
  | .ident name span => node (form "Identifier" (.ofString name)) span
  | .binary op left right span =>
    node (form "Binary" (.object [("op", .ofString (binaryOpName op)), ("left", left.toValue),
      ("right", right.toValue)])) span
  | .unary op operand fixity span =>
    node (form "Unary" (.object [("op", .ofString (unaryOpName op)),
      ("operand", operand.toValue), ("fixity", .ofString (fixityName fixity))])) span
  | .call callee args span =>
    node (form "Call" (.object [("callee", .ofString callee),
      ("arguments", .array (exprValues args))])) span
  | .assign op target value span =>
    node (form "Assignment" (.object [("op", .ofString (assignOpName op)),
      ("target", .ofString target), ("value", value.toValue)])) span

def exprValues : List Expr → List Value
  | [] => []
  | e :: rest => e.toValue :: exprValues rest

end

mutual

def Stmt.toValue : Stmt → Value
  | .declare name type init span =>
    node (form "VariableDeclaration" (.object [("name", .ofString name),
      ("declared_type", type.toValue), ("initializer", nullable Expr.toValue init)])) span
  | .eval e span => node (form "Expression" e.toValue) span
  | .branch condition thenBlock elseBranch span =>
    node (form "If" (.object [("condition", condition.toValue),
      ("then_block", thenBlock.toValue), ("else_branch", elseBranch.toValue)])) span
  | .loop condition body span =>
    node (form "While" (.object [("condition", condition.toValue),
      ("body", body.toValue)])) span
  | .leave value span => node (form "Return" (nullable Expr.toValue value)) span
  | .block body span => node (form "Block" body.toValue) span

def Block.toValue : Block → Value
  | .mk stmts span => .object [("statements", .array (stmtValues stmts)), ("span", span.toValue)]

/-- The value of what follows the first alternative of a branch. -/
def Else.toValue : Else → Value
  | .none => .null
  | .block body => form "Block" body.toValue
  | .chain next => form "If" next.toValue

def stmtValues : List Stmt → List Value
  | [] => []
  | s :: rest => s.toValue :: stmtValues rest

end

def Param.toValue (p : Param) : Value :=
  .object [("name", .ofString p.name), ("param_type", p.type.toValue), ("span", p.span.toValue)]

def Function.toValue (f : Function) : Value :=
  .object [("name", .ofString f.name), ("parameters", .array (f.params.map Param.toValue)),
    ("return_type", f.returns.toValue), ("body", f.body.toValue), ("span", f.span.toValue)]

/-- The value of a program. -/
def Program.toValue (p : Program) : Value :=
  .object [("functions", .array (p.functions.map Function.toValue)), ("span", p.span.toValue)]

end CToGo.Source
