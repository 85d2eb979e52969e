/-
Three-address code with nested branches.

A list of instructions is straight-line code in which a branch owns the
code of its two arms. Variables of the source carry a name and, once code
is in SSA form, a version; temporaries carry a number.

Recursion over code goes over an instruction and a list of instructions
together. Along a list it is always a tail call with an accumulator, so
only the nesting of branches takes stack.
-/
import ExprGraph.Operator

namespace ExprGraph.SSA

-- =============================================================== variables

/-- A variable of the code. -/
inductive Var where
  | temp (number : Nat)
  | user (name : String) (version : Option Nat)
deriving DecidableEq, Repr

namespace Var

/-- Whether it is a temporary. -/
def isTemp : Var → Bool
  | .temp _ => true
  | .user .. => false

/-- The name of a source variable. -/
def name? : Var → Option String
  | .temp _ => none
  | .user name _ => some name

/-- The version of a source variable that has one. -/
def version? : Var → Option Nat
  | .temp _ => none
  | .user _ version => version

/-- Whether the variable is a source variable of this name. -/
def isNamed (name : String) : Var → Bool
  | .temp _ => false
  | .user n _ => n == name

/-- Temporaries come first, by number; source variables by name and then
by version, the one without a version first. -/
def compare : Var → Var → Ordering
  | .temp a, .temp b => Ord.compare a b
  | .temp _, .user .. => .lt
  | .user .., .temp _ => .gt
  | .user a v, .user b w => (Ord.compare a b).then (Ord.compare v w)

instance : Ord Var := ⟨compare⟩

end Var

-- ============================================================ instructions

/-- What an instruction reads. -/
inductive Operand where
  | const (value : Float)
  | var (x : Var)
deriving BEq, Repr

/-- What an assignment computes. -/
inductive Rhs where
  | copy (operand : Operand)
  | unary (op : UnaryOp) (operand : Operand)
  | binary (op : BinaryOp) (left right : Operand)
deriving BEq, Repr

/-- An instruction. A phi stands behind a branch and takes the source of
the arm that was run. -/
inductive Inst where
  | assign (dest : Var) (value : Rhs)
  | branch (cond : Operand) (thenArm elseArm : List Inst)
  | phi (dest : Var) (sources : List Var)
deriving Repr

-- ================================================================ equality

mutual

/-- Equality of instructions; constants compare as numbers. -/
def Inst.same : Inst → Inst → Bool
  | .assign d v, .assign d' v' => d == d' && v == v'
  | .branch c t e, .branch c' t' e' => c == c' && sameAll t t' && sameAll e e'
  | .phi d s, .phi d' s' => d == d' && s == s'
  | _, _ => false

/-- Equality of lists of instructions. -/
def sameAll : List Inst → List Inst → Bool
  | [], [] => true
  | i :: rest, j :: rest' => i.same j && sameAll rest rest'
  | _, _ => false

end

instance : BEq Inst := ⟨Inst.same⟩

-- ================================================================ contents

mutual

/-- An instruction and those in its arms, onto `acc`, the latest first. -/
def Inst.walkOnto (acc : List Inst) : Inst → List Inst
  | .assign dest value => .assign dest value :: acc
  | .branch cond thenArm elseArm =>
    walkAll (walkAll (.branch cond thenArm elseArm :: acc) thenArm) elseArm
  | .phi dest sources => .phi dest sources :: acc

def walkAll (acc : List Inst) : List Inst → List Inst
  | [] => acc
  | i :: rest => walkAll (i.walkOnto acc) rest

end

/-- The instructions at every level in the order of their lines: a branch
before its arms, the arms before what follows. -/
def walk (code : List Inst) : List Inst :=
  (walkAll [] code).reverse

mutual

/-- What was walked before stays below. -/
theorem Inst.walkOnto_eq (acc : List Inst) :
    ∀ i : Inst, i.walkOnto acc = i.walkOnto [] ++ acc
  | .assign .. => rfl
  | .branch _ thenArm elseArm => by
    simp only [Inst.walkOnto]
    rw [walkAll_eq _ elseArm, walkAll_eq _ thenArm, walkAll_eq (walkAll _ _) elseArm,
      walkAll_eq [_] thenArm]
    simp
  | .phi .. => rfl

/-- A walk goes on behind whatever was met before. -/
theorem walkAll_eq (acc : List Inst) :
    ∀ code : List Inst, walkAll acc code = walkAll [] code ++ acc
  | [] => rfl
  | i :: rest => by
    simp only [walkAll]
    rw [walkAll_eq _ rest, Inst.walkOnto_eq acc i, walkAll_eq (i.walkOnto []) rest]
    simp

end

@[simp] theorem walk_nil : walk [] = [] := rfl

@[simp] theorem walk_assign (dest : Var) (value : Rhs) (rest : List Inst) :
    walk (.assign dest value :: rest) = .assign dest value :: walk rest := by
  simp only [walk, walkAll, Inst.walkOnto]
  rw [walkAll_eq]
  simp

/-- A walk meets a branch before its arms. -/
@[simp] theorem walk_branch (cond : Operand) (thenArm elseArm rest : List Inst) :
    walk (.branch cond thenArm elseArm :: rest) =
      .branch cond thenArm elseArm :: (walk thenArm ++ walk elseArm ++ walk rest) := by
  simp only [walk, walkAll, Inst.walkOnto]
  rw [walkAll_eq _ rest, walkAll_eq _ elseArm, walkAll_eq _ thenArm]
  simp

@[simp] theorem walk_phi (dest : Var) (sources : List Var) (rest : List Inst) :
    walk (.phi dest sources :: rest) = .phi dest sources :: walk rest := by
  simp only [walk, walkAll, Inst.walkOnto]
  rw [walkAll_eq]
  simp

/-- A walk through code in two parts goes through the one and then the
other. -/
theorem walk_append (a b : List Inst) : walk (a ++ b) = walk a ++ walk b := by
  induction a with
  | nil => rfl
  | cons i a ih => cases i <;> simp [ih]

mutual

/-- Whether an instruction, or one in its arms, defines the source
variable `name`. -/
def Inst.writes (name : String) : Inst → Bool
  | .assign dest _ => dest.isNamed name
  | .branch _ thenArm elseArm => writesAny name thenArm || writesAny name elseArm
  | .phi dest _ => dest.isNamed name

/-- Whether some code defines `name`, at any depth. -/
def writesAny (name : String) : List Inst → Bool
  | [] => false
  | i :: rest => i.writes name || writesAny name rest

end

/-- Code in two parts defines what either part defines. -/
theorem writesAny_append (name : String) (a b : List Inst) :
    writesAny name (a ++ b) = (writesAny name a || writesAny name b) := by
  induction a with
  | nil => simp [writesAny]
  | cons i a ih => simp [writesAny, ih, Bool.or_assoc]

/-- Whether `name` is defined in the top-level instructions from `start`
on, or in their arms. -/
def writesSince (code : List Inst) (start : Nat) (name : String) : Bool :=
  writesAny name (code.drop start)

/-- Put an instruction at a position up to the end. -/
def insertAt? (code : List Inst) (position : Nat) (i : Inst) : Option (List Inst) :=
  if position ≤ code.length then
    some (code.take position ++ i :: code.drop position)
  else
    none

end ExprGraph.SSA
