/-
The text of code: one instruction a line, the arms of a branch as blocks
indented by four blanks.
-/
import ExprGraph.Decimal.Positional
import ExprGraph.SSA.Basic

namespace ExprGraph.SSA

-- ================================================================ operands

/-- Temporaries are `%3`, versions `x_3`, names without a version bare. -/
def Var.text : Var → String
  | .temp number => s!"%{number}"
  | .user name (some version) => s!"{name}_{version}"
  | .user name none => name

/-- The text of an operand. -/
def Operand.text : Operand → String
  | .const value => Decimal.text value
  | .var x => x.text

/-- The text of a right-hand side. -/
def Rhs.text : Rhs → String
  | .copy operand => operand.text
  | .unary op operand => op.symbol ++ operand.text
  | .binary op left right => s!"{left.text} {op.symbol} {right.text}"

-- =================================================================== lines

/-- Start a line `depth` blocks deep. -/
def indent (acc : String) (depth : Nat) : String :=
  acc.pushn ' ' (4 * depth)

/-- The sources of a phi. -/
def sourcesText (sources : List Var) : String :=
  String.intercalate ", " (sources.map Var.text)

mutual

/-- Write the lines of an instruction behind `acc`. -/
def Inst.renderOnto (depth : Nat) (acc : String) : Inst → String
  | .assign dest value => indent acc depth ++ dest.text ++ " = " ++ value.text ++ "\n"
  | .branch cond thenArm elseArm =>
    let acc := indent acc depth ++ "if " ++ cond.text ++ " \x7b\n"
    let acc := indent (renderAll (depth + 1) acc thenArm) depth ++ "\x7d else \x7b\n"
    indent (renderAll (depth + 1) acc elseArm) depth ++ "\x7d\n"
  | .phi dest sources =>
    indent acc depth ++ dest.text ++ " = phi(" ++ sourcesText sources ++ ")\n"

/-- Write code that stands `depth` blocks deep behind `acc`. -/
def renderAll (depth : Nat) (acc : String) : List Inst → String
  | [] => acc
  | i :: rest => renderAll depth (i.renderOnto depth acc) rest

end

/-- Four blanks for each block. -/
theorem toList_indent (acc : String) (depth : Nat) :
    (indent acc depth).toList = acc.toList ++ List.replicate (4 * depth) ' ' := by
  simp only [indent, String.pushn]
  induction 4 * depth with
  | zero => simp [Nat.repeat]
  | succ n ih => simp [Nat.repeat, ih, List.replicate_succ']

theorem indent_eq (acc : String) (depth : Nat) : indent acc depth = acc ++ indent "" depth := by
  apply String.toList_inj.mp
  simp [toList_indent]

/-- The text of code. -/
def render (code : List Inst) : String :=
  renderAll 0 "" code

end ExprGraph.SSA
