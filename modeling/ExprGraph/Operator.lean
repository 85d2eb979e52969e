/-
The operators of the language: what they are called in text, and which of
them belong together. What they compute is in `Arith.lean`.
-/

namespace ExprGraph

-- ======================================================== binary operators

/-- Operators of two operands. -/
inductive BinaryOp where
  | add | sub | mul | div
  | eq | ne | lt | le | gt | ge
deriving DecidableEq, Repr

/-- The sign an operator is written with. -/
def BinaryOp.symbol : BinaryOp → String
  | .add => "+"
  | .sub => "-"
  | .mul => "*"
  | .div => "/"
  | .eq => "=="
  | .ne => "!="
  | .lt => "<"
  | .le => "<="
  | .gt => ">"
  | .ge => ">="

/-- Whether the operator answers a truth value. -/
def BinaryOp.isComparison : BinaryOp → Bool
  | .eq | .ne | .lt | .le | .gt | .ge => true
  | .add | .sub | .mul | .div => false

-- ========================================================= unary operators

/-- Operators of one operand. -/
inductive UnaryOp where
  | neg | not
deriving DecidableEq, Repr

/-- The sign an operator is written with. -/
def UnaryOp.symbol : UnaryOp → String
  | .neg => "-"
  | .not => "!"

-- ========================================================== step operators

/-- Increment and decrement, before or after the value is taken. -/
inductive StepOp where
  | preInc | preDec | postInc | postDec
deriving DecidableEq, Repr

/-- What is added to the place. -/
def StepOp.delta : StepOp → Float
  | .preInc | .postInc => 1.0
  | .preDec | .postDec => -1.0

/-- Whether the node's value is the old one. -/
def StepOp.yieldsOld : StepOp → Bool
  | .postInc | .postDec => true
  | .preInc | .preDec => false

/-- The binary operator that steps by one. -/
def StepOp.binary : StepOp → BinaryOp
  | .preInc | .postInc => .add
  | .preDec | .postDec => .sub

/-- The value of the node, given the place before and after. -/
def StepOp.result (op : StepOp) (old new : Float) : Float :=
  if op.yieldsOld then old else new

end ExprGraph
