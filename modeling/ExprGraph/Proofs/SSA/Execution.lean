/-
Running three-address code.

An environment gives variables their values; a variable without one is
undefined. Reading an undefined variable is no value like others: an
assignment or a branch that reads one is stuck, and so is an assignment
whose operator fails. A phi reads nothing but one variable, and copies
what is there, be it undefined.

The same execution serves code before and behind the renaming. Before, a
source variable has no version, and its one cell is written over and over;
behind, every version has a cell of its own.

Which arm of a branch is taken is left open: it may depend on the value of
the condition, as it does in a real run, and on the arms taken before.
-/
import ExprGraph.Arith
import ExprGraph.SSA.Basic

namespace ExprGraph.SSA

-- ============================================================ environments

/-- The values of variables. -/
abbrev Env := Var → Option Float

/-- The environment with another value for one variable. -/
def Env.set (env : Env) (x : Var) (value : Option Float) : Env :=
  fun y => if y = x then value else env y

theorem Env.set_self (env : Env) (x : Var) (value : Option Float) :
    env.set x value x = value :=
  if_pos rfl

/-- The other variables keep their values. -/
theorem Env.set_of_ne {x y : Var} (env : Env) (value : Option Float) (h : y ≠ x) :
    env.set x value y = env y :=
  if_neg h

/-- Why an instruction has no value. -/
inductive Trap where
  | undefined (x : Var)
  | fault (cause : Cause)

/-- The value of an operand, unless it is undefined. -/
def Operand.value (env : Env) : Operand → Except Trap Float
  | .const value => .ok value
  | .var x =>
    match env x with
    | some value => .ok value
    | none => .error (.undefined x)

/-- A variable that is defined has its value. -/
theorem Operand.value_var_iff {env : Env} {x : Var} {value : Float} :
    (Operand.var x).value env = .ok value ↔ env x = some value := by
  unfold Operand.value
  cases h : env x with
  | none => simp only [h, reduceCtorEq]
  | some cell => simp only [h, Except.ok.injEq, Option.some.injEq]

/-- The value of a right-hand side, operands from left to right. -/
def Rhs.value (env : Env) : Rhs → Except Trap Float
  | .copy operand => operand.value env
  | .unary op operand => do return op.eval (← operand.value env)
  | .binary op left right => do
    let l ← left.value env
    let r ← right.value env
    (op.eval l r).mapError .fault

-- =================================================================== traces

/-- What happens at an instruction: the instruction, without its arms, and
what it came to. -/
inductive Event where
  | assigned (dest : Var) (rhs : Rhs) (value : Float)
  | branched (cond : Operand) (value : Float) (thenTaken : Bool)
  | merged (dest : Var) (sources : List Var) (value : Option Float)
  | stuckAssign (dest : Var) (rhs : Rhs) (trap : Trap)
  | stuckBranch (cond : Operand) (trap : Trap)

/-- What happened, in order. -/
abbrev Events := List Event

/-- The arms taken, in order. -/
def Events.arms (trace : Events) : List Bool :=
  trace.filterMap fun
    | .branched _ _ thenTaken => some thenTaken
    | _ => none

/-- The values that source variables were given, by name and in order. A
phi of source variables gives no variable of the source a value. -/
def Events.definitions (trace : Events) : List (String × Option Float) :=
  trace.filterMap fun
    | .assigned (.user name _) _ value => some (name, some value)
    | .merged (.user name _) sources value =>
      if sources.any fun x => !x.isTemp then none else some (name, value)
    | _ => none

/-- The arms taken in two stretches. -/
theorem Events.arms_append (a b : Events) : Events.arms (a ++ b) = a.arms ++ b.arms :=
  List.filterMap_append

/-- The definitions made in two stretches. -/
theorem Events.definitions_append (a b : Events) :
    Events.definitions (a ++ b) = a.definitions ++ b.definitions :=
  List.filterMap_append

/-- A phi over temporaries is a definition of its own; one over source
variables merges definitions made before. -/
theorem Events.definitions_merged (name : String) (version : Option Nat) (sources : List Var)
    (value : Option Float) :
    Events.definitions [.merged (.user name version) sources value] =
      if sources.any fun x => !x.isTemp then [] else [(name, value)] := by
  unfold definitions
  rw [List.filterMap_cons]
  dsimp only
  split
  · rename_i hnone
    split at hnone
    · rename_i hany
      rw [if_pos hany]
      rfl
    · cases hnone
  · rename_i hsome
    split at hsome
    · cases hsome
    · rename_i hany
      cases hsome
      rw [if_neg hany]
      rfl

-- ================================================================ execution

/-- The state of an execution: the environment, the arm taken last at this
level, and what happened so far. -/
structure State where
  env : Env
  arm : Bool := true
  trace : Events := []

/-- The value a phi copies, if an arm was taken. -/
def State.incoming (st : State) (sources : List Var) : Option Float :=
  sources[if st.arm then 0 else 1]?.bind st.env

mutual

/-- Execute an instruction. An execution that gets stuck leaves what
happened, the instruction it is stuck at included. -/
def Inst.exec (choose : List Bool → Float → Bool) (st : State) : Inst → Except Events State
  | .assign dest rhs =>
    match rhs.value st.env with
    | .ok value =>
      .ok { st with
        env := st.env.set dest (some value)
        trace := st.trace ++ [.assigned dest rhs value] }
    | .error trap => .error (st.trace ++ [.stuckAssign dest rhs trap])
  | .branch cond thenArm elseArm =>
    match cond.value st.env with
    | .ok value => do
      let arm := choose st.trace.arms value
      let st := { st with trace := st.trace ++ [.branched cond value arm] }
      let st ← if arm then execAll choose st thenArm else execAll choose st elseArm
      return { st with arm }
    | .error trap => .error (st.trace ++ [.stuckBranch cond trap])
  | .phi dest sources =>
    let value := st.incoming sources
    .ok { st with
      env := st.env.set dest value
      trace := st.trace ++ [.merged dest sources value] }

/-- Run the instructions of a list in order. -/
def execAll (choose : List Bool → Float → Bool) (st : State) : List Inst → Except Events State
  | [] => .ok st
  | i :: rest => do execAll choose (← i.exec choose st) rest

end

variable {choose : List Bool → Float → Bool}

/-- A list in two parts runs the one and then the other. -/
theorem execAll_append (st : State) (a b : List Inst) :
    execAll choose st (a ++ b) = (do execAll choose (← execAll choose st a) b) := by
  induction a generalizing st with
  | nil => rfl
  | cons i a ih =>
      rw [List.cons_append, execAll, execAll]
      cases i.exec choose st with
      | error trace => rfl
      | ok st => exact ih st

-- ====================================================== single instructions

section Single

variable {st st' : State} {dest : Var} {rhs : Rhs} {cond : Operand} {thenArm elseArm : List Inst}

/-- The state behind an assignment. -/
def State.assigned (st : State) (dest : Var) (rhs : Rhs) (value : Float) : State :=
  { st with
    env := st.env.set dest (some value)
    trace := st.trace ++ [.assigned dest rhs value] }

/-- After an assignment the destination has the value. -/
@[simp] theorem State.env_assigned (st : State) (dest : Var) (rhs : Rhs) (value : Float) :
    (st.assigned dest rhs value).env = st.env.set dest (some value) := rfl

/-- The state behind a phi. -/
def State.merged (st : State) (dest : Var) (sources : List Var) : State :=
  { st with
    env := st.env.set dest (st.incoming sources)
    trace := st.trace ++ [.merged dest sources (st.incoming sources)] }

/-- The state in front of an arm. -/
def State.branched (choose : List Bool → Float → Bool) (st : State) (cond : Operand)
    (value : Float) : State :=
  { st with trace := st.trace ++ [.branched cond value (choose st.trace.arms value)] }

/-- An assignment executes iff its right-hand side has a value. -/
theorem exec_assign_iff : (Inst.assign dest rhs).exec choose st = .ok st' ↔
    ∃ value, rhs.value st.env = .ok value ∧ st' = st.assigned dest rhs value := by
  rw [Inst.exec]
  cases rhs.value st.env with
  | error trap =>
      constructor
      · intro h
        cases h
      · rintro ⟨value, h, -⟩
        cases h
  | ok value =>
      constructor
      · intro h
        cases h
        exact ⟨value, rfl, rfl⟩
      · rintro ⟨_, h, rfl⟩
        cases h
        rfl

/-- A branch executes iff its condition has a value and the arm that is
chosen executes. -/
theorem exec_branch_iff : (Inst.branch cond thenArm elseArm).exec choose st = .ok st' ↔
    ∃ value st₁, cond.value st.env = .ok value
      ∧ execAll choose (st.branched choose cond value)
          (if choose st.trace.arms value then thenArm else elseArm) = .ok st₁
      ∧ st' = { st₁ with arm := choose st.trace.arms value } := by
  rw [Inst.exec]
  cases cond.value st.env with
  | error trap =>
      constructor
      · intro h
        cases h
      · rintro ⟨value, st₁, h, -⟩
        cases h
  | ok value =>
      have hgo : ∀ {arm : Bool} {start : State},
          ((if arm then (do let st ← execAll choose start thenArm; return { st with arm })
            else (do let st ← execAll choose start elseArm; return { st with arm }))
            : Except Events State) = .ok st' ↔
          ∃ st₁, execAll choose start (if arm then thenArm else elseArm) = .ok st₁
            ∧ st' = { st₁ with arm } := by
        intro arm start
        cases arm <;> exact bind_eq_ok.trans (exists_congr fun st₁ =>
          and_congr_right fun _ => ⟨fun h => by cases h; rfl, fun h => by rw [h]; rfl⟩)
      exact hgo.trans ⟨fun ⟨st₁, h⟩ => ⟨value, st₁, rfl, h⟩,
        fun ⟨_, st₁, hvalue, h⟩ => by cases hvalue; exact ⟨st₁, h⟩⟩

theorem execAll_cons_iff {i : Inst} {rest : List Inst} :
    execAll choose st (i :: rest) = .ok st' ↔
      ∃ st₁, i.exec choose st = .ok st₁ ∧ execAll choose st₁ rest = .ok st' := by
  rw [execAll]
  exact bind_eq_ok

theorem execAll_append_iff {a b : List Inst} :
    execAll choose st (a ++ b) = .ok st' ↔
      ∃ st₁, execAll choose st a = .ok st₁ ∧ execAll choose st₁ b = .ok st' := by
  rw [execAll_append]
  exact bind_eq_ok

theorem execAll_singleton (st : State) (i : Inst) :
    execAll choose st [i] = i.exec choose st := by
  rw [execAll]
  cases i.exec choose st with
  | error trace => rfl
  | ok st' => rfl

end Single

end ExprGraph.SSA
