/-
The recursive reading of programs: what a node means, given what its
children mean. There are no stacks here and no phases; the order of
evaluation is the order of the lines.

`eval height` answers where the recursion ends within `height` levels
(the levels of a derivation), and has no answer where it does not. So a
computation has a derivation iff it is answered at some height, and one
that never ends is answered at none.

A round of a loop counts as a level, as a call does: both the rounds
and the nesting of a derivation are bounded by its height.
-/
import ExprGraph.Interpreter

namespace ExprGraph

-- =========================================================== computations

/-- What a computation reads and changes: the variables of the call in
progress, and the stores the run has made so far, in order. -/
structure World where
  vars : Frame
  stores : List Store

/-- What an answered computation came to: a value to go on with, or the
end of the whole run, by a failure or with the value of the run. -/
inductive Answer (α : Type) where
  | value (a : α)
  | ended (result : Except Cause Float)

/-- A computation in a call; `none` where it has no derivation. -/
def Evaluation (α : Type) := World → Option (Answer α × World)

namespace Evaluation

instance : Monad Evaluation where
  pure a := fun w => some (.value a, w)
  bind x f := fun w =>
    match x w with
    | none => none
    | some (.ended result, w) => some (.ended result, w)
    | some (.value a, w) => f a w

variable {α β γ : Type}

/-- No derivation. -/
def unanswered : Evaluation α := fun _ => none

/-- End the run. -/
def finish (result : Except Cause Float) : Evaluation α :=
  fun w => some (.ended result, w)

/-- Go on with a value, or fail. -/
def attempt : Except Cause α → Evaluation α
  | .ok a => pure a
  | .error cause => finish (.error cause)

/-- The variables of the call in progress. -/
def getVars : Evaluation Frame := fun w => some (.value w.vars, w)

/-- Go on with other variables. -/
def setVars (vars : Frame) : Evaluation Unit :=
  fun w => some (.value (), { w with vars })

/-- An access that makes no store; it may bring an array into being. -/
def updating (act : Frame → Except Cause (α × Frame)) : Evaluation α := do
  let (a, vars) ← attempt (act (← getVars))
  setVars vars
  return a

/-- An access that makes a store. -/
def storing (act : Frame → Except Cause (Store × Frame)) : Evaluation Unit := do
  let (store, vars) ← attempt (act (← getVars))
  fun w => some (.value (), ⟨vars, w.stores ++ [store]⟩)

end Evaluation

open Evaluation Machine

variable (s : Setting)

-- ================================================================== loops

/-- A loop whose last round had the value `last`, for fewer than `rounds`
further rounds. -/
def evalLoop (ev : ExprId → Evaluation Float) (cond body : ExprId) :
    Nat → Float → Evaluation Float
  | 0, _ => unanswered
  | rounds + 1, last => do
    if Arith.isZero (← ev cond) then
      return last
    else
      evalLoop ev cond body rounds (← ev body)

-- ================================================================== calls

/-- A parameter with what it is bound to: the value of its argument, or
the argument node that has to name an array. -/
inductive Binding where
  | scalar (var : VarId) (value : Float)
  | array (position : Nat) (var : VarId) (arg : ExprId)

/-- Parameters with their positions and arguments. -/
def positioned (i : Invocation) : List (Nat × Param × ExprId) :=
  (i.callee.params.zip i.args).mapIdx fun position pair => (position, pair)

/-- Evaluate the scalar arguments from left to right. -/
def evalArgs (ev : ExprId → Evaluation Float) :
    List (Nat × Param × ExprId) → Evaluation (List Binding)
  | [] => return []
  | (_, .scalar var, arg) :: rest => do
    let value ← ev arg
    return .scalar var value :: (← evalArgs ev rest)
  | (position, .array var, arg) :: rest => do
    return .array position var arg :: (← evalArgs ev rest)

/-- The frame in which `f` starts. It is filled from the last parameter
to the first, so the last array argument that cannot be passed is the one
reported. -/
def freshFrame (caller : Frame) (f : Function) : List Binding → Except Cause Frame
  | [] => .ok {}
  | .scalar var value :: rest => do
    return (← freshFrame caller f rest).setScalar var value
  | .array position var arg :: rest => do
    let vars ← freshFrame caller f rest
    return vars.putArray var (← arrayArgument s caller f position arg var)

/-- The value a function leaves behind. -/
def resultOf (f : Function) (vars : Frame) : Except Cause Float :=
  match vars.named? s.program.symbols Program.resultName with
  | some result => .ok result
  | none => .error (.missingResult f.name)

/-- A call with its arguments bound: run the body in a frame of its own,
and go on in the frame of the caller. -/
def evalCallee (ev : ExprId → Evaluation Float) (f : Function) (given : List Binding) :
    Evaluation Float := do
  let caller ← getVars
  setVars (← attempt (freshFrame s caller f given))
  let _ ← ev f.body
  let result ← attempt (resultOf s f (← getVars))
  setVars caller
  if f.name = s.entry then
    finish (.ok result)
  else
    return result

-- ================================================================== nodes

/-- A node, given the meaning of its children. -/
def evalNode (ev : ExprId → Evaluation Float) (rounds : Nat) : Expr → Evaluation Float
  | .number value => return value
  | .var var => do attempt ((← getVars).readScalar s.program var)
  | .empty => return 0.0
  | .unary op operand => do return op.eval (← ev operand)
  | .binary op left right => do
    let r ← ev right
    let l ← ev left
    attempt (op.eval l r)
  | .assign (.scalar var) value => do
    let assigned ← ev value
    storing (·.storeScalar s.program var assigned)
    return assigned
  | .assign (.element array index) value => do
    let assigned ← ev value
    let cell ← attempt (s.program.cell array (← ev index))
    storing (·.storeCell cell assigned)
    return assigned
  | .index array index => do
    let cell ← attempt (s.program.cell array (← ev index))
    updating (·.readCell cell)
  | .step op (.scalar var) => do
    let old ← attempt ((← getVars).readScalar s.program var)
    let new := old + op.delta
    storing (·.storeScalar s.program var new)
    return op.result old new
  | .step op (.element array index) => do
    let cell ← attempt (s.program.cell array (← ev index))
    let old ← updating (·.readCell cell)
    let new := old + op.delta
    storing (·.storeCell cell new)
    return op.result old new
  | .ternary cond thenArm elseArm | .branch cond thenArm elseArm => do
    if Arith.isZero (← ev cond) then ev elseArm else ev thenArm
  | .seq first second => do
    let _ ← ev first
    ev second
  | .loop cond body => evalLoop ev cond body rounds 0.0
  | .call callee args => do
    let i ← attempt (resolve s callee args)
    evalCallee s ev i.callee (← evalArgs ev (positioned i))

/-- The value of a node, by a derivation of at most this height. -/
def eval : Nat → ExprId → Evaluation Float
  | 0, _ => unanswered
  | height + 1, id =>
    match s.program.expr? id with
    | some node => evalNode s (eval height) height node
    | none => finish (.error (.broken (.danglingExpr id)))

-- =================================================================== runs

/-- A whole run of `f`: its result is the value of the run. -/
def evalRun (height : Nat) (f : Function) : Evaluation Empty := do
  let _ ← eval s height f.body
  finish (resultOf s f (← getVars))

/-- What the host gets for a call of the function named `name`, by a
derivation of at most this height: the result, and the stores made. -/
def evaluate (height : Nat) (name : String) (args : List Argument) :
    Option (Except Cause Float × List Store) :=
  match s.program.function? name with
  | none => some (.error (.undefinedFunction name), [])
  | some f =>
    match Interpreter.bindArguments ⟨s.program, s.entry, none⟩ f args with
    | .error cause => some (.error cause, [])
    | .ok vars =>
      match evalRun s height f ⟨vars, []⟩ with
      | some (.ended result, w) => some (result, w.stores)
      | none => none

end ExprGraph
