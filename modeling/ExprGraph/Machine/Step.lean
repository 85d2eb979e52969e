/-
One step of the machine.

Children are evaluated in this order: the right operand before the left;
the assigned value before the index; the condition before the one arm it
selects. A loop keeps the value of its last round, zero before the first,
below the value of its condition.
-/
import ExprGraph.Arith
import ExprGraph.Machine.Call

namespace ExprGraph.Machine

variable (s : Setting)

/-- The failure of a node found in a phase it does not have. -/
def badPhase (m : Machine) (node : Expr) : Except Cause Progress :=
  .error (.broken (.badPhase m.phase node.describe))

-- =============================================================== operators

/-- The operand first. -/
def stepUnary (m : Machine) (op : UnaryOp) (operand : ExprId) : Except Cause Progress :=
  match m.phase with
  | 0 => return .quiet (← m.descend 1 operand)
  | 1 => do
    let (value, m) ← m.pop
    return .quiet (← m.produce (op.eval value))
  | _ => m.badPhase (.unary op operand)

/-- The right operand first, and then the left one. -/
def stepBinary (m : Machine) (op : BinaryOp) (left right : ExprId) : Except Cause Progress :=
  match m.phase with
  | 0 => return .quiet (← m.descend 1 right)
  | 1 => return .quiet (← m.descend 2 left)
  | 2 => do
    let (l, m) ← m.pop
    let (r, m) ← m.pop
    return .quiet (← m.produce (← op.eval l r))
  | _ => m.badPhase (.binary op left right)

-- ================================================================== stores

/-- An assignment leaves the assigned value in place as its own. -/
def stepAssign (m : Machine) (target : Place) (value : ExprId) : Except Cause Progress :=
  match m.phase, target with
  | 0, _ => return .quiet (← m.descend 1 value)
  | 1, .scalar var => do
    let assigned ← m.values.peek
    let (store, m) ← m.access (·.storeScalar s.program var assigned)
    return .storing store (← m.complete)
  | 1, .element _ index => return .quiet (← m.descend 2 index)
  | 2, .element array _ => do
    let (index, m) ← m.pop
    let assigned ← m.values.peek
    let cell ← s.program.cell array index
    let (store, m) ← m.access (·.storeCell cell assigned)
    return .storing store (← m.complete)
  | _, _ => m.badPhase (.assign target value)

/-- The index first, then the access. -/
def stepIndex (m : Machine) (array : VarId) (index : ExprId) : Except Cause Progress :=
  match m.phase with
  | 0 => return .quiet (← m.descend 1 index)
  | 1 => do
    let (index, m) ← m.pop
    let cell ← s.program.cell array index
    let (value, m) ← m.access (·.readCell cell)
    return .quiet (← m.produce value)
  | _ => m.badPhase (.index array index)

/-- An increment reads, stores, and then yields the old or the new
value. -/
def stepStep (m : Machine) (op : StepOp) (target : Place) : Except Cause Progress :=
  match m.phase, target with
  | 0, .scalar var => do
    let old ← (← m.vars).readScalar s.program var
    let new := old + op.delta
    let (store, m) ← m.access (·.storeScalar s.program var new)
    return .storing store (← m.produce (op.result old new))
  | 0, .element _ index => return .quiet (← m.descend 1 index)
  | 1, .element array _ => do
    let (index, m) ← m.pop
    let cell ← s.program.cell array index
    let (old, m) ← m.access (·.readCell cell)
    let new := old + op.delta
    let (store, m) ← m.access (·.storeCell cell new)
    return .storing store (← m.produce (op.result old new))
  | _, _ => m.badPhase (.step op target)

-- ================================================================= control

/-- A choice between two arms; `node` is the node itself, for messages. -/
def stepChoice (m : Machine) (node : Expr) (cond thenArm elseArm : ExprId) :
    Except Cause Progress :=
  match m.phase with
  | 0 => return .quiet (← m.descend 1 cond)
  | 1 => do
    let (value, m) ← m.pop
    return .quiet (← m.descend 2 (if Arith.isZero value then elseArm else thenArm))
  | 2 => return .quiet (← m.complete)
  | _ => m.badPhase node

/-- The value of the first part is dropped. -/
def stepSeq (m : Machine) (first second : ExprId) : Except Cause Progress :=
  match m.phase with
  | 0 => return .quiet (← m.descend 1 first)
  | 1 => do
    let (_, m) ← m.pop
    return .quiet (← m.descend 2 second)
  | 2 => return .quiet (← m.complete)
  | _ => m.badPhase (.seq first second)

/-- Zero stands for the value of the last round before the first. -/
def stepLoop (m : Machine) (cond body : ExprId) : Except Cause Progress :=
  match m.phase with
  | 0 => return .quiet (← { m with values := 0.0 :: m.values }.descend 1 cond)
  | 1 => do
    let (value, m) ← m.pop
    if Arith.isZero value then
      return .quiet (← m.complete)
    else
      return .quiet (← m.descend 2 body)
  | 2 => do
    let (value, m) ← m.pop
    let (_, m) ← m.pop
    return .quiet (← { m with values := value :: m.values }.descend 1 cond)
  | _ => m.badPhase (.loop cond body)

-- ================================================================== a step

/-- One step of the current node. -/
def stepNode (m : Machine) : Expr → Except Cause Progress
  | .number value => return .quiet (← m.produce value)
  | .var var => do return .quiet (← m.produce (← (← m.vars).readScalar s.program var))
  | .empty => return .quiet (← m.produce 0.0)
  | .unary op operand => m.stepUnary op operand
  | .binary op left right => m.stepBinary op left right
  | .assign target value => m.stepAssign s target value
  | .index array index => m.stepIndex s array index
  | .step op target => m.stepStep s op target
  | .ternary cond thenArm elseArm =>
    m.stepChoice (.ternary cond thenArm elseArm) cond thenArm elseArm
  | .branch cond thenArm elseArm =>
    m.stepChoice (.branch cond thenArm elseArm) cond thenArm elseArm
  | .seq first second => m.stepSeq first second
  | .loop cond body => m.stepLoop cond body
  | .call callee args => m.stepCall s callee args

/-- One step at the bottom of the agenda: the entry function has
completed. -/
def stepEntry (m : Machine) : Except Cause Progress :=
  if m.phase = 1 then do
    let (result, _) ← m.leave s
    return .finished result
  else
    .error (.broken (.badPhase m.phase "entry"))

/-- One step. -/
def step (m : Machine) : Except Cause Progress :=
  match m.task with
  | .entry => m.stepEntry s
  | .expr id =>
    match s.program.expr? id with
    | some node => m.stepNode s node
    | none => .error (.broken (.danglingExpr id))

end ExprGraph.Machine
