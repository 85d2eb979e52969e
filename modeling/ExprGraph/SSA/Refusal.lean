/-
Why a function has no SSA form: what was met, and at which node.
-/
import ExprGraph.Fault

namespace ExprGraph.SSA

/-- Ways a malformed body shows itself. -/
inductive Defect where
  | dangling
  /-- A statement stands where a value is needed. -/
  | noValue
  /-- A node is its own descendant. -/
  | cyclic
  /-- A defect reported by the host, in its own words. -/
  | other (text : String)
deriving DecidableEq, Repr

/-- The defect in words. -/
def Defect.text : Defect → String
  | .dangling => "dangling expression id"
  | .noValue => "statement used where a value is required"
  | .cyclic => "expression contains itself"
  | .other text => text

/-- What was met. -/
inductive Obstacle where
  | unsupported (construct : String)
  | undefinedFunction (name : String)
  | unknownVariable (id : VarId)
  | malformed (defect : Defect)
deriving DecidableEq, Repr

/-- The category that a refusal belongs to. -/
def Obstacle.category : Obstacle → Category
  | .unsupported _ => .unsupported
  | .undefinedFunction _ | .unknownVariable _ => .lookup
  | .malformed _ => .inconsistency

/-- The obstacle in words. -/
def Obstacle.message : Obstacle → String
  | .unsupported construct => s!"{construct} is not supported in SSA form"
  | .undefinedFunction name => s!"undefined function `{name}`"
  | .unknownVariable id => s!"unknown variable id {id.index}"
  | .malformed defect => s!"internal error: {defect.text}"

/-- Why a function has no SSA form. -/
structure Refusal where
  obstacle : Obstacle
  expr : Option ExprId := none
deriving DecidableEq, Repr

def Refusal.category (r : Refusal) : Category := r.obstacle.category

/-- The whole message: category, obstacle, node. -/
def Refusal.message (r : Refusal) : String :=
  s!"{r.category.text}: {r.obstacle.message}{Site.text (Site.mk none r.expr)}"

end ExprGraph.SSA
