/-
The front of the machine: a program with its settings, which runs
functions on arguments.

Every run starts from nothing but the program, the settings and the
arguments; what it leaves behind is its outcome. Reporting the stores to a
trace is a separate step, so a trace cannot influence a run.
-/
import ExprGraph.Machine.Run

namespace ExprGraph

/-- An argument handed in by the host. An array must have the declared
length of its parameter. -/
inductive Argument where
  | scalar (value : Float)
  | array (values : Array Float)

/-- A program and how to run it: the function that ends a run by
returning, and the most tasks that may wait. -/
structure Interpreter where
  program : Program
  entry : String := Program.entryName
  maxDepth : Option Nat := none

namespace Interpreter

-- ================================================================= binding

/-- Bind parameters to host arguments, the first first. -/
def bindAll (symbols : Symbols) (f : Function) :
    List (Nat × Param × Argument) → Frame → Except Cause Frame
  | [], vars => .ok vars
  | (_, .scalar var, .scalar value) :: rest, vars =>
    bindAll symbols f rest (vars.setScalar var value)
  | (_, .array var, .array values) :: rest, vars => do
    let some wanted := symbols.get? var | throw (.unknownVariable var)
    unless values.size = wanted.size do
      throw (.sizeMismatch f.name wanted.size values.size)
    bindAll symbols f rest (vars.putArray var values)
  | (position, .scalar _, .array _) :: _, _ => .error (.scalarExpected f.name position)
  | (position, .array _, .scalar _) :: _, _ => .error (.arrayExpected f.name position)

/-- The frame in which `f` starts on host arguments. -/
def bindArguments (i : Interpreter) (f : Function) (args : List Argument) :
    Except Cause Frame := do
  unless args.length = f.arity do throw (.arityMismatch f.name f.arity args.length)
  bindAll i.program.symbols f
    ((f.params.zip args).mapIdx fun position pair => (position, pair)) {}

-- ================================================================= running

/-- Run the function named `name` on `args`, for at most `steps` steps. -/
def execute (i : Interpreter) (steps : Nat) (name : String) (args : List Argument) :
    Option Outcome :=
  match i.program.function? name with
  | none => some ⟨.error { cause := .undefinedFunction name }, []⟩
  | some f =>
    match i.bindArguments f args with
    | .error cause => some ⟨.error ⟨cause, { function := some name }⟩, []⟩
    | .ok vars =>
      match Machine.start i.maxDepth f vars with
      | .error cause => some ⟨.error { cause }, []⟩
      | .ok m => m.run ⟨i.program, i.entry⟩ steps []

/-- Run the entry function without arguments. -/
def run (i : Interpreter) (steps : Nat) : Option Outcome :=
  i.execute steps i.entry []

end Interpreter

end ExprGraph
