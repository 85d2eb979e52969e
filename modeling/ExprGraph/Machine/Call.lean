/-
Calls.

A call of a function with `n` parameters runs in phases `0 … n + 1`. In
phase `k ≤ n` it evaluates the first scalar argument at position `k` or
later, and goes on just behind it. When none is left it binds the
arguments and starts on the body, to go on in phase `n + 1`, where the
value of the body is replaced by the callee's result. The return of the
function that ends the run ends it there and then, at whatever depth.

Array arguments are not evaluated: the argument must be a bare variable,
and its array is copied when the body starts. Arguments are bound from the
last to the first, as their values come off the stack.
-/
import ExprGraph.Machine.State

namespace ExprGraph

/-- The most parameters a call can count through. -/
def maxArity : Nat := Nat.pow 2 32 - 2

/-- The first scalar parameter at `start` or later. -/
def Function.nextScalar? (f : Function) (start : Nat) : Option Nat :=
  ((f.params.drop start).findIdx? fun param => !param.isArray).map (start + ·)

/-- The value of the scalar named `name` in a frame. Of several such scalars
that were assigned it is one, and which one is left open: the scalars of a
frame come in no particular order. Here they come in that of their
declarations, to have a pick that every run makes alike. -/
def Frame.named? (f : Frame) (symbols : Symbols) (name : String) : Option Float :=
  (f.scalars.toList.find? fun (var, _) => symbols.name? var == some name).map Prod.snd

namespace Machine

variable (s : Setting)

-- =============================================================== resolving

/-- A call with its references followed: the callee's name as written, its
definition, and the argument nodes, one for each parameter. -/
structure Invocation where
  name : String
  callee : Function
  args : List ExprId

/-- Follow the references of a call and check the number of arguments. -/
def resolve (callee : NameId) (args : Span) : Except Cause Invocation := do
  let some name := s.program.names.text? callee | throw (.broken (.unknownName callee))
  let some f := s.program.function? name | throw (.undefinedFunction name)
  let some ids := s.program.arena.list? args | throw (.broken .argumentsOutOfRange)
  unless ids.length = f.arity do throw (.arityMismatch name f.arity ids.length)
  unless f.arity ≤ maxArity do throw (.broken .tooManyParameters)
  return ⟨name, f, ids⟩

theorem length_of_resolve {s : Setting} {callee : NameId} {args : Span} {i : Invocation}
    (h : resolve s callee args = .ok i) : i.args.length = i.callee.arity := by
  unfold resolve at h
  cases hname : s.program.names.text? callee with
  | none => rw [hname] at h; cases h
  | some name =>
      cases hfun : s.program.function? name with
      | none => simp only [hname, hfun] at h; cases h
      | some f =>
          cases hlist : s.program.arena.list? args with
          | none => simp only [hname, hfun, hlist] at h; cases h
          | some ids =>
              simp only [hname, hfun, hlist] at h
              by_cases hlen : ids.length = f.arity
              · by_cases hmax : f.arity ≤ maxArity
                · rw [if_pos hlen, if_pos hmax] at h
                  cases h
                  exact hlen
                · rw [if_pos hlen, if_neg hmax] at h
                  cases h
              · rw [if_neg hlen] at h
                cases h

-- ================================================================= binding

/-- The array that argument node `arg` passes to the array parameter
`param` at `position`, copied from the caller. -/
def arrayArgument (caller : Frame) (f : Function) (position : Nat) (arg : ExprId)
    (param : VarId) : Except Cause (Array Float) := do
  match s.program.expr? arg with
  | some (.var source) =>
    let some given := s.program.symbols.get? source | throw (.unknownVariable source)
    let some wanted := s.program.symbols.get? param | throw (.unknownVariable param)
    unless given.size = wanted.size do
      throw (.sizeMismatch f.name wanted.size given.size)
    caller.snapshot source given.size
  | _ => throw (.arrayExpected f.name position)

/-- Bind parameters to arguments in the given order, taking scalar values
off the stack. -/
def bind (caller : Frame) (f : Function) :
    List (Nat × Param × ExprId) → Frame → Values → Except Cause (Frame × Values)
  | [], vars, values => .ok (vars, values)
  | (_, .scalar var, _) :: rest, vars, values => do
    let (value, values) ← values.pop
    bind caller f rest (vars.setScalar var value) values
  | (position, .array var, arg) :: rest, vars, values => do
    let contents ← arrayArgument s caller f position arg var
    bind caller f rest (vars.putArray var contents) values

/-- Parameters with their positions and arguments, the last first. -/
def bindings (i : Invocation) : List (Nat × Param × ExprId) :=
  ((i.callee.params.zip i.args).mapIdx fun position pair => (position, pair)).reverse

/-- Bind the arguments in a fresh frame and start on the body. -/
def invoke (m : Machine) (i : Invocation) : Except Cause Machine := do
  let (vars, values) ← bind s (← m.vars) i.callee (bindings i) {} m.values
  { m with values }.enter i.callee vars (i.callee.arity + 1)

-- =============================================================== returning

/-- Leave the latest call: drop its frame and the value of its body, and
yield its result. -/
def leave (m : Machine) : Except Cause (Float × Machine) :=
  match m.frames with
  | [] => .error (.broken .frameUnderflow)
  | top :: frames =>
    match top.vars.named? s.program.symbols Program.resultName with
    | none => .error (.missingResult top.function.name)
    | some result => do
      let (_, m) ← { m with frames }.pop
      return (result, m)

-- ================================================================== a step

/-- One step of a call. -/
def stepCall (m : Machine) (callee : NameId) (args : Span) : Except Cause Progress := do
  let i ← resolve s callee args
  let last := i.callee.arity + 1
  if m.phase < last then
    match i.callee.nextScalar? m.phase with
    | some position =>
      let some arg := i.args[position]? | throw (.broken .argumentsOutOfRange)
      return .quiet (← m.descend (position + 1) arg)
    | none => return .quiet (← m.invoke s i)
  else if m.phase = last then
    let (result, m) ← m.leave s
    if i.callee.name = s.entry then
      return .finished result
    else
      return .quiet (← m.produce result)
  else
    throw (.broken (.badPhase m.phase "call"))

end Machine

end ExprGraph
