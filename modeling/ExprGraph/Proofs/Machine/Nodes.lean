/-
The simulation, for every kind of node but the call.

`EntryFollows n ev` says that a run which enters a node does what `ev`
says of it. From this for the children, `NodeFollows` is shown for each
kind of node: its first step takes one of the `n + 1` steps, so `n` are
left for the children. A loop needs an induction of its own, on the number
of rounds.
-/
import ExprGraph.Proofs.Machine.Follows

namespace ExprGraph

-- ===================================================== the agenda, unbounded

/-- Without a bound every push succeeds, and the pop that answers it
brings back the agenda as it was. -/
theorem Agenda.push_of_unlimited {a : Agenda} (h : a.limit = none) (p : Pending) :
    ∃ b, a.push p = .ok b ∧ b.limit = none ∧ b.pop = some (p, a) := by
  obtain ⟨limit, entries, depth, hdepth⟩ := a
  have hnone : limit = none := h
  subst hnone
  exact ⟨_, rfl, rfl, rfl⟩

namespace Machine

open Evaluation

variable {s : Setting} {α : Type}

-- ============================================================ single moves

section Moves

variable {task : Task} {phase : Nat} {agenda back : Agenda} {p : Pending}
  {values : Values} {f : Function} {vars : Frame} {frames : List Activation}

/-- There is a value to take. -/
theorem pop_cons (v : Float) (rest : List Activation) :
    Machine.pop ⟨task, phase, agenda, v :: values, rest⟩
      = .ok (v, ⟨task, phase, agenda, values, rest⟩) := rfl

theorem peek_cons (v : Float) : Values.peek (v :: values) = .ok v := rfl

/-- There is a call in progress. -/
theorem vars_cons :
    Machine.vars ⟨task, phase, agenda, values, ⟨f, vars⟩ :: frames⟩ = .ok vars := rfl

/-- The access is to the variables of that call. -/
theorem access_cons (act : Frame → Except Cause (α × Frame)) :
    Machine.access ⟨task, phase, agenda, values, ⟨f, vars⟩ :: frames⟩ act
      = (act vars >>= fun (a, vars') =>
          .ok (a, ⟨task, phase, agenda, values, ⟨f, vars'⟩ :: frames⟩)) := rfl

/-- Completing goes back to what waits. -/
theorem complete_of_pop (hpop : agenda.pop = some (p, back)) (rest : List Activation) :
    Machine.complete ⟨task, phase, agenda, values, rest⟩
      = .ok ⟨p.task, p.phase, back, values, rest⟩ := by
  rw [complete, hpop]

/-- So does completing with a value. -/
theorem produce_of_pop (hpop : agenda.pop = some (p, back)) (v : Float)
    (rest : List Activation) :
    Machine.produce ⟨task, phase, agenda, values, rest⟩ v
      = .ok ⟨p.task, p.phase, back, v :: values, rest⟩ :=
  complete_of_pop hpop rest

end Moves

-- ===================================================== entering a child

/-- From every state in which a node is entered, the run does what `ev`
says of the node, and goes on with what waited for it. -/
def EntryFollows (s : Setting) (n : Nat) (ev : ExprId → Evaluation Float) : Prop :=
  ∀ (id : ExprId) (agenda back : Agenda) (p : Pending) (values : Values)
    (f : Function) (frames : List Activation) (w : World),
    agenda.limit = none → agenda.pop = some (p, back) →
    Follows s n ⟨.expr id, 0, agenda, values, ⟨f, w.vars⟩ :: frames⟩ w.stores (ev id w)
      fun v vars => ⟨p.task, p.phase, back, v :: values, ⟨f, vars⟩ :: frames⟩

/-- What is so for many steps is so for fewer. -/
theorem EntryFollows.mono {few many : Nat} {ev : ExprId → Evaluation Float}
    (hle : few ≤ many) (h : EntryFollows s many ev) : EntryFollows s few ev :=
  fun id agenda back p values f frames w hlimit hpop =>
    (h id agenda back p values f frames w hlimit hpop).mono hle

section Steps

variable {n : Nat} {ev : ExprId → Evaluation Float} {id : ExprId} {phase : Nat}
  {agenda back : Agenda} {p : Pending} {values : Values} {f : Function}
  {frames : List Activation} {w : World} {m : Machine}

/-- A step that starts on a child: the run does what the child means, and
is back at the node behind it. -/
theorem Follows.child {values' : Values} {resume : Nat} {child : ExprId}
    (hev : EntryFollows s n ev) (hlimit : agenda.limit = none)
    (hstep : m.step s = (do
      return .quiet (← Machine.descend
        ⟨.expr id, phase, agenda, values', ⟨f, w.vars⟩ :: frames⟩ resume child))) :
    Follows s (n + 1) m w.stores (ev child w)
      fun v vars => ⟨.expr id, resume, agenda, v :: values', ⟨f, vars⟩ :: frames⟩ := by
  obtain ⟨pushed, hpush, hpushed, hback⟩ :=
    Agenda.push_of_unlimited hlimit ⟨resume, .expr id⟩
  refine Follows.quiet ?_ (hev child pushed agenda _ values' f frames w hpushed hback)
  rw [hstep, descend, hpush]
  rfl

/-- A step that completes a node with a value, unless there is none. -/
theorem Follows.complete {e : Except Cause Float}
    (hpop : agenda.pop = some (p, back))
    (hstep : m.step s = (do
      let v ← e
      return .quiet (← Machine.produce
        ⟨.expr id, phase, agenda, values, ⟨f, w.vars⟩ :: frames⟩ v))) :
    Follows s (n + 1) m w.stores (attempt e w)
      fun v vars => ⟨p.task, p.phase, back, v :: values, ⟨f, vars⟩ :: frames⟩ := by
  cases e with
  | error cause => exact Follows.halt hstep
  | ok v =>
      rw [ok_bind, produce_of_pop hpop] at hstep
      exact Follows.quiet hstep (Follows.done rfl)

/-- A step that completes a node with a value and a store, unless the
store fails. -/
theorem Follows.store {act : Frame → Except Cause (Store × Frame)} {v : Float}
    (herror : ∀ cause, act w.vars = .error cause → m.step s = .error cause)
    (hok : ∀ store vars, act w.vars = .ok (store, vars) → m.step s =
      .ok (.storing store ⟨p.task, p.phase, back, v :: values, ⟨f, vars⟩ :: frames⟩)) :
    Follows s (n + 1) m w.stores ((storing act >>= fun _ => pure v) w)
      fun v vars => ⟨p.task, p.phase, back, v :: values, ⟨f, vars⟩ :: frames⟩ := by
  cases hact : act w.vars with
  | error cause =>
      rw [storing_bind_error hact]
      exact Follows.halt (herror cause hact)
  | ok pair =>
      obtain ⟨store, vars⟩ := pair
      rw [storing_bind_ok hact]
      exact Follows.step (hok store vars hact) (Follows.done (w := ⟨vars, w.stores ++ [store]⟩) rfl)

end Steps

-- ================================================================== nodes

/-- What is to be shown of a node of each kind. -/
def NodeFollows (s : Setting) (n : Nat) (ev : ExprId → Evaluation Float) (node : Expr) :
    Prop :=
  ∀ (id : ExprId) (agenda back : Agenda) (p : Pending) (values : Values)
    (f : Function) (frames : List Activation) (w : World),
    s.program.expr? id = some node →
    agenda.limit = none → agenda.pop = some (p, back) →
    Follows s (n + 1) ⟨.expr id, 0, agenda, values, ⟨f, w.vars⟩ :: frames⟩ w.stores
      (evalNode s ev n node w)
      fun v vars => ⟨p.task, p.phase, back, v :: values, ⟨f, vars⟩ :: frames⟩

section Kinds

variable {n : Nat} {ev : ExprId → Evaluation Float}

/-- A step of a state at work on a node is a step of that node. -/
theorem step_of_node {m : Machine} {id : ExprId} {node : Expr} (htask : m.task = .expr id)
    (hnode : s.program.expr? id = some node) : m.step s = m.stepNode s node := by
  simp only [step, htask, hnode]

/-- A number is its own value. -/
theorem nodeFollows_number (v : Float) : NodeFollows s n ev (.number v) := by
  intro id agenda back p values f frames w hnode _ hpop
  exact Follows.complete (e := .ok v) hpop (step_of_node rfl hnode)

theorem nodeFollows_empty : NodeFollows s n ev .empty := by
  intro id agenda back p values f frames w hnode _ hpop
  exact Follows.complete (e := .ok 0.0) hpop (step_of_node rfl hnode)

/-- A variable has the value it reads, or fails where that fails. -/
theorem nodeFollows_var (var : VarId) : NodeFollows s n ev (.var var) := by
  intro id agenda back p values f frames w hnode _ hpop
  exact Follows.complete hpop (step_of_node rfl hnode)

/-- The operand is followed first. -/
theorem nodeFollows_unary (hev : EntryFollows s n ev) (op : UnaryOp) (operand : ExprId) :
    NodeFollows s n ev (.unary op operand) := by
  intro id agenda back p values f frames w hnode hlimit hpop
  apply (Follows.child hev hlimit (step_of_node rfl hnode)).bind
  intro v w'
  exact Follows.complete (e := .ok (op.eval v)) hpop (step_of_node rfl hnode)

/-- The right operand is followed first, then the left one. -/
theorem nodeFollows_binary (hev : EntryFollows s n ev) (op : BinaryOp) (left right : ExprId) :
    NodeFollows s n ev (.binary op left right) := by
  intro id agenda back p values f frames w hnode hlimit hpop
  apply (Follows.child hev hlimit (step_of_node rfl hnode)).bind
  intro r w₁
  apply (Follows.child hev hlimit (step_of_node rfl hnode)).bind
  intro l w₂
  exact Follows.complete hpop (step_of_node rfl hnode)

/-- The value is followed first, then the index if there is one, then the
store. -/
theorem nodeFollows_assign (hev : EntryFollows s n ev) (target : Place) (value : ExprId) :
    NodeFollows s n ev (.assign target value) := by
  intro id agenda back p values f frames w hnode hlimit hpop
  cases target with
  | scalar var =>
      apply (Follows.child hev hlimit (step_of_node rfl hnode)).bind
      intro assigned w'
      refine Follows.store (fun cause hact => ?_) (fun store vars hact => ?_)
      · rw [step_of_node rfl hnode]
        simp only [stepNode, stepAssign, peek_cons, access_cons, hact, ok_bind, error_bind]
      · rw [step_of_node rfl hnode]
        simp only [stepNode, stepAssign, peek_cons, access_cons, hact, ok_bind,
          complete_of_pop hpop]
        rfl
  | element array index =>
      apply (Follows.child hev hlimit (step_of_node rfl hnode)).bind
      intro assigned w₁
      apply (Follows.child hev hlimit (step_of_node rfl hnode)).bind
      intro i w₂
      cases hcell : s.program.cell array i with
      | error cause =>
          apply Follows.halt
          rw [Halts, step_of_node rfl hnode]
          simp only [stepNode, stepAssign, pop_cons, peek_cons, hcell, ok_bind, error_bind]
      | ok cell =>
          refine Follows.store (fun cause hact => ?_) (fun store vars hact => ?_)
          · rw [step_of_node rfl hnode]
            simp only [stepNode, stepAssign, pop_cons, peek_cons, hcell, access_cons, hact,
              ok_bind, error_bind]
          · rw [step_of_node rfl hnode]
            simp only [stepNode, stepAssign, pop_cons, peek_cons, hcell, access_cons, hact,
              ok_bind, complete_of_pop hpop]
            rfl

/-- The index is followed first, then the access. -/
theorem nodeFollows_index (hev : EntryFollows s n ev) (array : VarId) (index : ExprId) :
    NodeFollows s n ev (.index array index) := by
  intro id agenda back p values f frames w hnode hlimit hpop
  apply (Follows.child hev hlimit (step_of_node rfl hnode)).bind
  intro i w'
  cases hcell : s.program.cell array i with
  | error cause =>
      apply Follows.halt
      rw [Halts, step_of_node rfl hnode]
      simp only [stepNode, stepIndex, pop_cons, hcell, ok_bind, error_bind]
  | ok cell =>
      cases hread : w'.vars.readCell cell with
      | error cause =>
          rw [attempt_ok, pure_bind, updating, getVars_bind, hread]
          apply Follows.halt
          rw [Halts, step_of_node rfl hnode]
          simp only [stepNode, stepIndex, pop_cons, hcell, access_cons, hread, ok_bind,
            error_bind]
      | ok pair =>
          obtain ⟨v, vars⟩ := pair
          rw [attempt_ok, pure_bind, updating, getVars_bind, hread]
          refine Follows.quiet ?_ (Follows.done (w := ⟨vars, w'.stores⟩) rfl)
          rw [step_of_node rfl hnode]
          simp only [stepNode, stepIndex, pop_cons, hcell, access_cons, hread, ok_bind,
            produce_of_pop hpop]
          rfl

/-- The index is followed first if there is one, then the access and the
store. -/
theorem nodeFollows_step (hev : EntryFollows s n ev) (op : StepOp) (target : Place) :
    NodeFollows s n ev (.step op target) := by
  intro id agenda back p values f frames w hnode hlimit hpop
  cases target with
  | scalar var =>
      cases hread : w.vars.readScalar s.program var with
      | error cause =>
          rw [evalNode, getVars_bind, hread]
          apply Follows.halt
          rw [Halts, step_of_node rfl hnode]
          simp only [stepNode, stepStep, vars_cons, hread, ok_bind, error_bind]
      | ok old =>
          rw [evalNode, getVars_bind, hread]
          refine Follows.store (fun cause hact => ?_) (fun store vars hact => ?_)
          · rw [step_of_node rfl hnode]
            simp only [stepNode, stepStep, vars_cons, hread, access_cons, hact, ok_bind,
              error_bind]
          · rw [step_of_node rfl hnode]
            simp only [stepNode, stepStep, vars_cons, hread, access_cons, hact, ok_bind,
              produce_of_pop hpop]
            rfl
  | element array index =>
      apply (Follows.child hev hlimit (step_of_node rfl hnode)).bind
      intro i w'
      cases hcell : s.program.cell array i with
      | error cause =>
          apply Follows.halt
          rw [Halts, step_of_node rfl hnode]
          simp only [stepNode, stepStep, pop_cons, hcell, ok_bind, error_bind]
      | ok cell =>
          rw [attempt_ok, pure_bind]
          cases hread : w'.vars.readCell cell with
          | error cause =>
              rw [updating_bind_error hread]
              apply Follows.halt
              rw [Halts, step_of_node rfl hnode]
              simp only [stepNode, stepStep, pop_cons, hcell, access_cons, hread, ok_bind,
                error_bind]
          | ok pair =>
              obtain ⟨old, vars⟩ := pair
              rw [updating_bind_ok hread]
              refine Follows.store (w := ⟨vars, w'.stores⟩) (fun cause hact => ?_)
                (fun store vars' hact => ?_)
              · rw [step_of_node rfl hnode]
                simp only [stepNode, stepStep, pop_cons, hcell, access_cons, hread, hact,
                  ok_bind, error_bind]
              · rw [step_of_node rfl hnode]
                simp only [stepNode, stepStep, pop_cons, hcell, access_cons, hread, hact,
                  ok_bind, produce_of_pop hpop]
                rfl

/-- Both kinds of choice step alike, and mean the same. -/
theorem nodeFollows_choice (hev : EntryFollows s n ev) {node : Expr}
    {cond thenArm elseArm : ExprId}
    (hstep : ∀ m : Machine, m.stepNode s node = m.stepChoice node cond thenArm elseArm)
    (heval : evalNode s ev n node = (do
      if Arith.isZero (← ev cond) then ev elseArm else ev thenArm)) :
    NodeFollows s n ev node := by
  intro id agenda back p values f frames w hnode hlimit hpop
  have hchoice : ∀ m : Machine, m.task = .expr id →
      m.step s = m.stepChoice node cond thenArm elseArm := by
    intro m htask
    rw [step_of_node htask hnode, hstep]
  rw [heval]
  apply (Follows.child hev hlimit (hchoice _ rfl)).bind
  intro c w'
  have harm : (if Arith.isZero c = true then ev elseArm else ev thenArm)
      = ev (if Arith.isZero c = true then elseArm else thenArm) := by
    split <;> rfl
  rw [harm]
  apply (Follows.child hev hlimit (hchoice _ rfl)).then_quiet
  intro v vars
  rw [hchoice _ rfl]
  simp only [stepChoice, complete_of_pop hpop, ok_bind]
  rfl

/-- Both parts are followed, and the value is that of the second. -/
theorem nodeFollows_seq (hev : EntryFollows s n ev) (first second : ExprId) :
    NodeFollows s n ev (.seq first second) := by
  intro id agenda back p values f frames w hnode hlimit hpop
  apply (Follows.child hev hlimit (step_of_node rfl hnode)).bind
  intro v w'
  apply (Follows.child hev hlimit (step_of_node rfl hnode)).then_quiet
  intro v' vars
  rw [step_of_node rfl hnode]
  simp only [stepNode, stepSeq, complete_of_pop hpop, ok_bind]
  rfl

/-- A loop that is about to evaluate its condition, with `last` kept below
it. Every round makes at least one step, so as many rounds as there are
steps left are enough. -/
theorem follows_rounds (hev : EntryFollows s n ev) {id cond body : ExprId}
    {agenda pushed back : Agenda} {p : Pending} {values : Values} {f : Function}
    {frames : List Activation} (hnode : s.program.expr? id = some (.loop cond body))
    (hlimit : agenda.limit = none) (hpop : agenda.pop = some (p, back))
    (hpush : agenda.push ⟨1, .expr id⟩ = .ok pushed) (hpushed : pushed.limit = none)
    (hback : pushed.pop = some (⟨1, .expr id⟩, agenda)) :
    ∀ (rounds : Nat) (last : Float) (w : World), rounds ≤ n →
      Follows s rounds
        ⟨.expr cond, 0, pushed, last :: values, ⟨f, w.vars⟩ :: frames⟩ w.stores
        (evalLoop ev cond body rounds last w)
        fun v vars => ⟨p.task, p.phase, back, v :: values, ⟨f, vars⟩ :: frames⟩ := by
  intro rounds
  induction rounds with
  | zero =>
      intro last w _
      exact Follows.unanswered
  | succ rounds ih =>
      intro last w hle
      apply Follows.bind (hev.mono hle cond pushed agenda _ _ f frames w hpushed hback)
      intro c w₁
      by_cases hzero : Arith.isZero c = true
      · rw [if_pos hzero]
        refine Follows.quiet ?_ (Follows.done rfl)
        rw [step_of_node rfl hnode]
        simp only [stepNode, stepLoop, pop_cons, ok_bind, if_pos hzero, complete_of_pop hpop]
        rfl
      · rw [if_neg hzero]
        have hround : Machine.step s
            ⟨.expr id, 1, agenda, c :: last :: values, ⟨f, w₁.vars⟩ :: frames⟩ = (do
              return .quiet (← Machine.descend
                ⟨.expr id, 1, agenda, last :: values, ⟨f, w₁.vars⟩ :: frames⟩ 2 body)) := by
          rw [step_of_node rfl hnode]
          simp only [stepNode, stepLoop, pop_cons, ok_bind, if_neg hzero]
        have hfewer := hev.mono (Nat.le_of_succ_le hle)
        apply (Follows.child hfewer hlimit hround).bind
        intro v w₂
        refine Follows.quiet ?_ (ih v w₂ (Nat.le_of_succ_le hle))
        rw [step_of_node rfl hnode]
        simp only [stepNode, stepLoop, pop_cons, ok_bind, descend, hpush]
        rfl

/-- Round by round, by induction on how many there are at most. -/
theorem nodeFollows_loop (hev : EntryFollows s n ev) (cond body : ExprId) :
    NodeFollows s n ev (.loop cond body) := by
  intro id agenda back p values f frames w hnode hlimit hpop
  obtain ⟨pushed, hpush, hpushed, hback⟩ :=
    Agenda.push_of_unlimited hlimit ⟨1, .expr id⟩
  refine Follows.quiet ?_
    (follows_rounds hev hnode hlimit hpop hpush hpushed hback n 0.0 w (Nat.le_refl n))
  rw [step_of_node rfl hnode]
  simp only [stepNode, stepLoop, descend, hpush, ok_bind]
  rfl

end Kinds

end Machine

end ExprGraph
