/-
The state of a run, and how control moves in it.

A node is evaluated in phases. It is entered in phase 0; whenever it hands
control to a child it waits on the agenda with the phase it goes on in,
and the child's completion takes it back. A node completes by leaving
exactly one value. The bottom of the agenda is the run itself, waiting for
the entry function to return.
-/
import ExprGraph.Access
import ExprGraph.Machine.Stack

namespace ExprGraph

-- =================================================================== state

/-- A call in progress: the function, and the variables of this call. -/
structure Activation where
  function : Function
  vars : Frame

/-- The state of a run: what is worked on and in which phase, what waits,
the values of finished nodes, and the calls in progress, the latest
first. -/
structure Machine where
  task : Task
  phase : Nat
  agenda : Agenda
  values : Values := []
  frames : List Activation := []

/-- What stays fixed during a run: the program, and the function whose
return ends the run. -/
structure Setting where
  program : Program
  entry : String

/-- What one step leads to: a further state, with the store made on the
way if there was one, or the value of the run. -/
inductive Progress where
  | running (next : Machine) (stored : Option Store)
  | finished (value : Float)

namespace Progress

/-- A step that stores nothing. -/
def quiet (m : Machine) : Progress := .running m none

/-- A step that makes one store. -/
def storing (store : Store) (m : Machine) : Progress := .running m (some store)

end Progress

namespace Machine

-- ========================================================== moving control

/-- Wait with phase `resume` and start on `child`. -/
def descend (m : Machine) (resume : Nat) (child : ExprId) : Except Cause Machine := do
  let agenda ← m.agenda.push ⟨resume, m.task⟩
  return { m with agenda, task := .expr child, phase := 0 }

/-- Go back to what waits; the value of this node is in place. -/
def complete (m : Machine) : Except Cause Machine :=
  match m.agenda.pop with
  | some (p, agenda) => .ok { m with agenda, task := p.task, phase := p.phase }
  | none => .error (.broken .pendingUnderflow)

/-- Complete with `value`. -/
def produce (m : Machine) (value : Float) : Except Cause Machine :=
  { m with values := value :: m.values }.complete

/-- Take the value a child left. -/
def pop (m : Machine) : Except Cause (Float × Machine) := do
  let (value, values) ← m.values.pop
  return (value, { m with values })

/-- Start on the body of `f`; the current task waits with phase
`resume`. -/
def enter (m : Machine) (f : Function) (vars : Frame) (resume : Nat) : Except Cause Machine := do
  let agenda ← m.agenda.push ⟨resume, m.task⟩
  return { m with
    agenda
    task := .expr f.body
    phase := 0
    frames := ⟨f, vars⟩ :: m.frames }

-- =============================================================== variables

/-- The variables of the call in progress. -/
def vars (m : Machine) : Except Cause Frame :=
  match m.frames with
  | top :: _ => .ok top.vars
  | [] => .error (.broken .noFrame)

/-- Run an access on the variables of the call in progress. The machine is
taken apart first, so that the access has the variables to itself. -/
def access {α : Type} : Machine → (Frame → Except Cause (α × Frame)) → Except Cause (α × Machine)
  | ⟨task, phase, agenda, values, ⟨function, vars⟩ :: frames⟩, act => do
    let (a, vars) ← act vars
    return (a, ⟨task, phase, agenda, values, ⟨function, vars⟩ :: frames⟩)
  | ⟨_, _, _, _, []⟩, _ => .error (.broken .noFrame)

/-- An access changes nothing but the variables of the latest call. -/
theorem access_eq_ok_iff {α : Type} {m m' : Machine} {act : Frame → Except Cause (α × Frame)}
    {a : α} :
    m.access act = .ok (a, m') ↔
      ∃ top rest vars, m.frames = top :: rest ∧ act top.vars = .ok (a, vars) ∧
        m' = { m with frames := { top with vars } :: rest } := by
  obtain ⟨task, phase, agenda, values, frames⟩ := m
  cases frames with
  | nil => simp [access]
  | cons top rest =>
    simp only [access, bind, Except.bind]
    cases done : act top.vars with
    | error cause => simp [done]
    | ok pair =>
      obtain ⟨b, vars⟩ := pair
      simp only [pure, Except.pure, Except.ok.injEq, Prod.mk.injEq]
      constructor
      · rintro ⟨rfl, rfl⟩
        exact ⟨top, rest, vars, rfl, done, rfl⟩
      · rintro ⟨_, _, _, same, done', rfl⟩
        cases same
        simp_all

-- ==================================================================== site

/-- Where a failure of the next step is met. -/
def site (m : Machine) : Site where
  function := m.frames.head?.map fun top => top.function.name
  expr :=
    match m.task with
    | .entry => none
    | .expr id => some id

end Machine

end ExprGraph
