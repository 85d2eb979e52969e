/-
Numbers of temporaries.

Code is emitted with temporaries numbered as they are taken, and a copy
that is put in front of code already emitted breaks the order of numbers.
Renumbering numbers the temporaries from a base in the order in which the
lines define them. A temporary that is never defined keeps its number.
-/
import ExprGraph.SSA.Basic
import Std.Data.ExtTreeMap

namespace ExprGraph.SSA

-- ============================================================= relabelling

/-- Give a temporary the number `f` says. -/
def Var.relabel (f : Nat → Nat) : Var → Var
  | .temp number => .temp (f number)
  | .user name version => .user name version

/-- Give the temporary of an operand the number `f` says. -/
def Operand.relabel (f : Nat → Nat) : Operand → Operand
  | .const value => .const value
  | .var x => .var (x.relabel f)

/-- Give the temporaries of a right-hand side the numbers `f` says. -/
def Rhs.relabel (f : Nat → Nat) : Rhs → Rhs
  | .copy operand => .copy (operand.relabel f)
  | .unary op operand => .unary op (operand.relabel f)
  | .binary op left right => .binary op (left.relabel f) (right.relabel f)

mutual

/-- Give every temporary of an instruction the number `f` says. -/
def Inst.relabel (f : Nat → Nat) : Inst → Inst
  | .assign dest value => .assign (dest.relabel f) (value.relabel f)
  | .branch cond thenArm elseArm =>
    .branch (cond.relabel f) (relabelAll f [] thenArm).reverse (relabelAll f [] elseArm).reverse
  | .phi dest sources => .phi (dest.relabel f) (sources.map (Var.relabel f))

def relabelAll (f : Nat → Nat) (out : List Inst) : List Inst → List Inst
  | [] => out
  | i :: rest => relabelAll f (i.relabel f :: out) rest

end

/-- Relabel all temporaries of some code. -/
def relabel (f : Nat → Nat) (code : List Inst) : List Inst :=
  (relabelAll f [] code).reverse

/-- Relabelling instruction by instruction, in order. -/
theorem relabelAll_eq (f : Nat → Nat) (out code : List Inst) :
    relabelAll f out code = (code.map (Inst.relabel f)).reverse ++ out := by
  induction code generalizing out with
  | nil => rfl
  | cons i rest ih => simp [relabelAll, ih]

/-- Relabelling goes instruction by instruction. -/
theorem relabel_eq_map (f : Nat → Nat) (code : List Inst) :
    relabel f code = code.map (Inst.relabel f) := by
  simp [relabel, relabelAll_eq]

theorem Inst.relabel_branch (f : Nat → Nat) (cond : Operand) (thenArm elseArm : List Inst) :
    (Inst.branch cond thenArm elseArm).relabel f =
      .branch (cond.relabel f) (SSA.relabel f thenArm) (SSA.relabel f elseArm) := rfl

-- =================================================================== order

/-- The temporary an instruction defines. -/
def Inst.definedTemp? : Inst → Option Nat
  | .assign (.temp number) _ => some number
  | .phi (.temp number) _ => some number
  | _ => none

/-- The temporaries that code defines, in the order of its lines. -/
def definedTemps (code : List Inst) : List Nat :=
  (walk code).filterMap Inst.definedTemp?

/-- New numbers for old ones. -/
abbrev Numbering := Std.ExtTreeMap Nat Nat

/-- Number the given temporaries in order from `base`; one met before
keeps its new number. -/
def numberFrom (base : Nat) (temps : List Nat) : Numbering :=
  (temps.foldl
    (fun (table, next) temp =>
      if temp ∈ table then (table, next) else (table.insert temp next, next + 1))
    ((∅ : Numbering), base)).1

/-- Number the temporaries of some code from `base` in the order of their
definitions. -/
def renumber (base : Nat) (code : List Inst) : List Inst :=
  let table := numberFrom base (definedTemps code)
  relabel (fun temp => table[temp]?.getD temp) code

end ExprGraph.SSA
