/-
The nodes of a program graph.

Nodes refer to each other, to variables and to texts by number, so a node
is a small flat value and sharing is free. Nothing here says that the
numbers denote anything: a node may name a child that does not exist, or
itself. The engines report such references when they follow them.
-/
import ExprGraph.Operator

namespace ExprGraph

-- ============================================================== identities

/-- The number of a node in its arena. -/
structure ExprId where
  raw : UInt32
deriving DecidableEq, Hashable, Repr

/-- The number of a declared variable. -/
structure VarId where
  raw : UInt32
deriving DecidableEq, Hashable, Repr

/-- The number of an interned text. -/
structure NameId where
  raw : UInt32
deriving DecidableEq, Hashable, Repr

def ExprId.index (id : ExprId) : Nat := id.raw.toNat
def VarId.index (id : VarId) : Nat := id.raw.toNat
def NameId.index (id : NameId) : Nat := id.raw.toNat

/-- Nodes are written `#3`. -/
def ExprId.text (id : ExprId) : String := s!"#{id.index}"

/-- Variables are ordered by number. -/
instance : Ord VarId := ⟨compareOn VarId.raw⟩

instance : Std.TransOrd VarId :=
  inferInstanceAs (Std.TransCmp (compareOn VarId.raw))

instance : Std.LawfulEqOrd VarId where
  eq_of_compare h := congrArg VarId.mk (Std.compare_eq_iff_eq.mp h)

/-- A run of entries in the storage of argument lists. -/
structure Span where
  start : UInt32
  len : UInt32
deriving DecidableEq, Repr

/-- The span at the start that holds nothing. -/
def Span.empty : Span := ⟨0, 0⟩

def Span.isEmpty (s : Span) : Bool := s.len == 0

-- =================================================================== nodes

/-- What an assignment or a step writes. -/
inductive Place where
  | scalar (var : VarId)
  | element (array : VarId) (index : ExprId)
deriving DecidableEq, Repr

/-- The variable a place belongs to. -/
def Place.var : Place → VarId
  | .scalar var => var
  | .element array _ => array

/-- A node. Every node has a value when it is evaluated; that of an empty
statement is zero. -/
inductive Expr where
  | number (value : Float)
  | var (var : VarId)
  | unary (op : UnaryOp) (operand : ExprId)
  | binary (op : BinaryOp) (left right : ExprId)
  | assign (target : Place) (value : ExprId)
  | index (array : VarId) (index : ExprId)
  | ternary (cond thenArm elseArm : ExprId)
  | step (op : StepOp) (target : Place)
  | seq (first second : ExprId)
  | loop (cond body : ExprId)
  | branch (cond thenArm elseArm : ExprId)
  | call (callee : NameId) (args : Span)
  | empty
deriving Repr

/-- What a message calls the node. -/
def Expr.describe : Expr → String
  | .number _ => "number"
  | .var _ => "variable"
  | .unary .. => "unary operation"
  | .binary .. => "binary operation"
  | .assign (.scalar _) _ => "assignment"
  | .assign (.element ..) _ => "array element assignment"
  | .index .. => "array index"
  | .ternary .. => "ternary"
  | .step _ (.scalar _) => "increment/decrement"
  | .step _ (.element ..) => "array element increment/decrement"
  | .seq .. => "sequence"
  | .loop .. => "while loop"
  | .branch .. => "if"
  | .call .. => "function call"
  | .empty => "empty statement"

/-- The place a node writes, if it is an assignment or a step. -/
def Expr.target? : Expr → Option Place
  | .assign target _ => some target
  | .step _ target => some target
  | _ => none

end ExprGraph
