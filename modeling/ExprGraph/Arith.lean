/-
What the operators compute.

All numbers are doubles, and comparisons know one tolerance: two numbers
closer than the spacing of doubles at one count as equal. A number near
zero is false and no divisor. Truth values are one and zero.
-/
import ExprGraph.Fault

namespace ExprGraph

namespace Arith

-- =============================================================== tolerance

/-- The spacing of doubles at one, `2 ^ -52`. -/
def epsilon : Float := Float.ofBits 0x3CB0000000000000

/-- Equality up to the tolerance. -/
def near (a b : Float) : Bool := (a - b).abs < epsilon

/-- Whether a number counts as zero, and so as false. -/
def isZero (value : Float) : Bool := near value 0.0

/-- The number for a truth value. -/
def truth (b : Bool) : Float := if b then 1.0 else 0.0

end Arith

open Arith

-- =============================================================== operators

/-- The value of a unary operator. -/
def UnaryOp.eval : UnaryOp → Float → Float
  | .neg, value => -value
  | .not, value => truth (isZero value)

/-- The value of a binary operator. The strict comparisons exclude, and
the others include, operands that are near each other. -/
def BinaryOp.eval (op : BinaryOp) (left right : Float) : Except Cause Float :=
  match op with
  | .add => .ok (left + right)
  | .sub => .ok (left - right)
  | .mul => .ok (left * right)
  | .div => if isZero right then .error .divisionByZero else .ok (left / right)
  | .eq => .ok (truth (near left right))
  | .ne => .ok (truth (!near left right))
  | .lt => .ok (truth (left < right && !near left right))
  | .le => .ok (truth (left < right || near left right))
  | .gt => .ok (truth (left > right && !near left right))
  | .ge => .ok (truth (left > right || near left right))

end ExprGraph
