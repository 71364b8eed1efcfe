/-!
# Operators

The operators that source and target expressions have in common, with their spelling and
how tightly the binary ones bind in the target language.
-/

namespace CToGo

/-- The binary operators. -/
inductive BinaryOp where
  | add | sub | mul | div | mod
  | equal | notEqual | less | greater | lessEqual | greaterEqual
deriving DecidableEq, Inhabited, Repr

namespace BinaryOp

/-- The spelling of a binary operator. -/
def text : BinaryOp → String
  | add => "+"
  | sub => "-"
  | mul => "*"
  | div => "/"
  | mod => "%"
  | equal => "=="
  | notEqual => "!="
  | less => "<"
  | greater => ">"
  | lessEqual => "<="
  | greaterEqual => ">="

/-- How tightly the operator binds: all comparisons alike, then sums, then products. -/
def precedence : BinaryOp → Nat
  | mul | div | mod => 3
  | add | sub => 2
  | equal | notEqual | less | greater | lessEqual | greaterEqual => 1

end BinaryOp

/-- The operators with one operand. -/
inductive UnaryOp where
  | negate | increment | decrement
deriving DecidableEq, Inhabited, Repr

def UnaryOp.text : UnaryOp → String
  | negate => "-"
  | increment => "++"
  | decrement => "--"

/-- On which side of its operand a unary operator stands. -/
inductive Fixity where
  | leading | trailing
deriving DecidableEq, Inhabited, Repr

/-- The assignment operators; all but the first combine the old value with the new one. -/
inductive AssignOp where
  | assign | addAssign | subAssign | mulAssign | divAssign | modAssign
deriving DecidableEq, Inhabited, Repr

def AssignOp.text : AssignOp → String
  | assign => "="
  | addAssign => "+="
  | subAssign => "-="
  | mulAssign => "*="
  | divAssign => "/="
  | modAssign => "%="

end CToGo
