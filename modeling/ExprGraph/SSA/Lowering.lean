/-
Lowering: the code of a node, and of the nodes below it.

Operands are lowered in the order in which they are evaluated, the right
one first. A choice that is assigned to a variable meets in that variable,
not in a temporary. Loops, calls and arrays have no code.

The graph may be cyclic, so lowering goes down a bounded number of levels.
A path longer than the arena meets a node twice; hence one level more than
there are nodes is enough for every body that is not its own descendant.
-/
import ExprGraph.SSA.Emission

namespace ExprGraph.SSA

open Emission

variable (p : Program)

/-- Lower a choice: its condition, then the arms in blocks of their
own. -/
def lowerChoice (lower : ExprId → Emission → Except Stop Emission) (merge : Merge)
    (cond thenArm elseArm : ExprId) (e : Emission) : Except Stop Emission := do
  let e ← lower cond e
  let c ← e.operand cond
  let outer := e.code
  let e ← lower thenArm e.openArm
  let (t, e) ← e.closeArm merge thenArm
  let e ← lower elseArm e.openArm
  let (f, e) ← e.closeArm merge elseArm
  return e.branch merge outer c t f

/-- Lower a node into a variable. -/
def lowerInto (lower : ExprId → Emission → Except Stop Emission) (id : ExprId) (dest : Var)
    (e : Emission) : Except Stop Emission :=
  match p.expr? id with
  | some (.ternary cond thenArm elseArm) =>
    lowerChoice lower (.into dest) cond thenArm elseArm e
  | _ => do (← lower id e).copy id dest

/-- Lower node `id`, going down at most `depth` levels. -/
def lower : Nat → ExprId → Emission → Except Stop Emission
  | 0, id, e => e.refuse id (.malformed .cyclic)
  | depth + 1, id, e =>
    match p.expr? id with
    | none => e.refuse id (.malformed .dangling)
    | some node =>
      match node with
      | .number value => .ok (e.yield (.const value))
      | .var var => do return e.yield (.var (← e.scalar p id var))
      | .empty => .ok e.yieldNone
      | .unary op operand => do (← lower depth operand e).unary op operand
      | .binary op left right => do
        let e ← lower depth right e
        let r ← e.operand right
        (← lower depth left e).binary op left r e.code.size
      | .assign (.scalar var) value => do
        let dest ← e.scalar p id var
        lowerInto p (lower depth) value dest e
      | .step op (.scalar var) => do return e.step op (← e.scalar p id var)
      | .ternary cond thenArm elseArm =>
        lowerChoice (lower depth) .fresh cond thenArm elseArm e
      | .branch cond thenArm elseArm =>
        lowerChoice (lower depth) .drop cond thenArm elseArm e
      | .seq first second => do lower depth second (← lower depth first e)
      | .assign (.element ..) _ | .step _ (.element ..) | .index .. | .loop .. | .call .. =>
        e.refuse id (.unsupported node.describe)

/-- Levels enough for every body that does not contain itself. -/
def enoughDepth : Nat := p.arena.size + 1

end ExprGraph.SSA
