/-
The moves that lowering is made of.

The state of lowering is the code of the current block, the operand that
holds the value of the node just lowered, if it has one, and the number of
temporaries taken so far.

Every move is total up to a refusal, and a refusal keeps the number of
temporaries taken: they stay taken.
-/
import ExprGraph.Program.Basic
import ExprGraph.SSA.Code
import ExprGraph.SSA.Refusal

namespace ExprGraph.SSA

-- ================================================================ emission

/-- The state of lowering. -/
structure Emission where
  code : Code
  value : Option Operand
  temps : Nat

/-- A refusal, with the temporaries taken before it. -/
structure Stop where
  refusal : Refusal
  temps : Nat

namespace Emission

/-- Refuse at a node. -/
def refuse {α : Type} (e : Emission) (id : ExprId) (obstacle : Obstacle) : Except Stop α :=
  .error ⟨⟨obstacle, some id⟩, e.temps⟩

/-- The value that node `id` was lowered for. -/
def operand (e : Emission) (id : ExprId) : Except Stop Operand :=
  match e.value with
  | some value => .ok value
  | none => e.refuse id (.malformed .noValue)

/-- Leave a value. -/
def yield (e : Emission) (value : Operand) : Emission :=
  { e with value := some value }

/-- Leave no value: a statement was lowered. -/
def yieldNone (e : Emission) : Emission :=
  { e with value := none }

/-- Emit an instruction. -/
def emit (e : Emission) (i : Inst) : Emission :=
  { e with code := e.code.push i }

/-- Take a temporary. -/
def fresh (e : Emission) : Var × Emission :=
  (.temp e.temps, { e with temps := e.temps + 1 })

/-- Emit an assignment to a temporary, and leave that. -/
def define (e : Emission) (value : Rhs) : Emission :=
  let (dest, e) := e.fresh
  (e.emit (.assign dest value)).yield (.var dest)

/-- Emit an assignment to a variable, and leave that. -/
def assign (e : Emission) (dest : Var) (value : Rhs) : Emission :=
  (e.emit (.assign dest value)).yield (.var dest)

-- =============================================================== variables

/-- The code's name for a scalar variable. -/
def scalar (p : Program) (e : Emission) (id : ExprId) (var : VarId) : Except Stop Var :=
  match p.symbols.get? var with
  | none => e.refuse id (.unknownVariable var)
  | some s =>
    if s.isArray then
      e.refuse id (.unsupported "array variable")
    else
      .ok (.user s.name none)

/-- A scalar is stepped in place; its old value is kept if it is the
node's. -/
def step (e : Emission) (op : StepOp) (target : Var) : Emission :=
  let next : Rhs := .binary op.binary (.var target) (.const 1.0)
  if op.yieldsOld then
    let kept := e.define (.copy (.var target))
    kept.emit (.assign target next)
  else
    e.assign target next

-- =============================================================== operators

/-- Finish a unary operator whose operand was lowered last. -/
def unary (e : Emission) (op : UnaryOp) (operand : ExprId) : Except Stop Emission := do
  return e.define (.unary op (← e.operand operand))

/-- Keep an operand that was lowered in front of the mark from seeing
writes behind it: if a source variable was written there, read a copy made
at the mark. -/
def pin (e : Emission) (mark : Nat) : Operand → Operand × Emission
  | .var (.user name version) =>
    if e.code.writesSince mark name then
      (.var (.temp e.temps),
        { e with
          code := e.code.insertTemp mark e.temps (.copy (.var (.user name version)))
          temps := e.temps + 1 })
    else
      (.var (.user name version), e)
  | operand => (operand, e)

/-- Finish a binary operator: `right` was lowered in front of the mark and
the left operand behind it. -/
def binary (e : Emission) (op : BinaryOp) (left : ExprId) (right : Operand) (mark : Nat) :
    Except Stop Emission := do
  let l ← e.operand left
  let (r, e) := e.pin mark right
  return e.define (.binary op l r)

/-- Finish an assignment whose value was lowered last. -/
def copy (e : Emission) (value : ExprId) (dest : Var) : Except Stop Emission := do
  return e.assign dest (.copy (← e.operand value))

-- ================================================================ branches

/-- What becomes of the values of the two arms of a branch. -/
inductive Merge where
  /-- Nothing: the arms are statements. -/
  | drop
  /-- They meet in a variable. -/
  | into (dest : Var)
  /-- They meet in a new temporary. -/
  | fresh
deriving DecidableEq, Repr

/-- An arm that was lowered: its code, and the temporary that holds its
value, if it has to have one. -/
structure Arm where
  code : Code
  value : Option Var

/-- Start an arm: a block of its own. -/
def openArm (e : Emission) : Emission :=
  { e with code := .empty }

/-- Finish an arm, the node `id`. A value that is to be merged is put into
a temporary of the arm, unless it is in one already. -/
def closeArm (e : Emission) (merge : Merge) (id : ExprId) : Except Stop (Arm × Emission) :=
  match merge with
  | .drop => .ok (⟨e.code, none⟩, e)
  | _ => do
    match ← e.operand id with
    | .var (.temp number) => return (⟨e.code, some (.temp number)⟩, e)
    | value =>
      let (temp, e) := e.fresh
      let e := e.emit (.assign temp (.copy value))
      return (⟨e.code, some temp⟩, e)

/-- The variable in which the arms meet. -/
def mergeTarget (e : Emission) : Merge → Option Var × Emission
  | .drop => (none, e)
  | .into dest => (some dest, e)
  | .fresh =>
    let (temp, e) := e.fresh
    (some temp, e)

/-- Emit the branch behind the code in front of it, and the phi in which
the values of the arms meet. -/
def branch (e : Emission) (merge : Merge) (outer : Code) (cond : Operand)
    (thenArm elseArm : Arm) : Emission :=
  let e := { e with code := outer.push (.branch cond thenArm.code.insts elseArm.code.insts) }
  let (dest, e) := e.mergeTarget merge
  match dest with
  | none => e.yieldNone
  | some dest =>
    (e.emit (.phi dest (thenArm.value.toList ++ elseArm.value.toList))).yield (.var dest)

end Emission

end ExprGraph.SSA
