/-
A program: the graph of its nodes, and the tables its nodes refer to.
-/
import ExprGraph.Program.Arena
import ExprGraph.Program.Names
import ExprGraph.Program.Symbols
import ExprGraph.Program.Functions

namespace ExprGraph

structure Program where
  arena : Arena := {}
  names : Names := {}
  symbols : Symbols := {}
  functions : Functions := {}

namespace Program

/-- The scalar whose value a function returns. -/
def resultName : String := "result"

/-- The function a run starts with, unless told otherwise. -/
def entryName : String := "main"

/-- The node with a number. -/
def expr? (p : Program) (id : ExprId) : Option Expr := p.arena.get? id

/-- The function with a name. -/
def function? (p : Program) (name : String) : Option Function := p.functions.get? name

end Program

end ExprGraph
