/-
A limit on what waits changes nothing but where a run stops.

A run under a limit and the run without one go through the same states, up
to the limit that they carry, until more tasks would wait than the limit
lets; there the run under the limit fails, before the step has any effect
(`Capped`). No other failure of a run is one for a limit. So the two runs
are the same if and only if the one without a limit never has more tasks
waiting (`sameRun_iff`), and otherwise the stores of the other are a prefix
of its stores.

# A step under a limit

A step pushes one task at most, and does so last: a look-up, an access or a
return on the way leaves the agenda alone (`Aside`), and is the same under
a limit.
-/
import ExprGraph.Proofs.Machine.Failures
import ExprGraph.Proofs.Machine.Reached

namespace ExprGraph

/-- The agenda with another limit. -/
def Agenda.limited (a : Agenda) (limit : Nat) : Agenda :=
  { a with limit := some limit }

/-- The state with another limit on its agenda. -/
def Machine.limited (m : Machine) (limit : Nat) : Machine :=
  { m with agenda := m.agenda.limited limit }

/-- Without a limit a push succeeds. Under one it succeeds unless it would
leave more waiting. -/
theorem Agenda.push_limited {a : Agenda} (h : a.limit = none) (limit : Nat) (p : Pending) :
    ∃ b, a.push p = .ok b ∧ b.limit = none
      ∧ (a.limited limit).push p
        = if b.entries.length ≤ limit then .ok (b.limited limit)
          else .error (.depthLimit limit) := by
  obtain ⟨bound, entries, depth, rfl⟩ := a
  cases h
  refine ⟨_, rfl, rfl, ?_⟩
  unfold push hasRoom limited
  dsimp only
  simp only [decide_eq_true_eq, List.length_cons, Nat.succ_le_iff]
  rfl

/-- What a step comes to under a limit: it fails if it would leave more
tasks waiting. -/
def Machine.cap (limit : Nat) : Except Cause Progress → Except Cause Progress
  | .ok (.running m stored) =>
    if m.agenda.entries.length ≤ limit then .ok (.running (m.limited limit) stored)
    else .error (.depthLimit limit)
  | x => x

namespace Machine

variable {s : Setting} {limit : Nat} {m : Machine}

@[simp] theorem limited_task (m : Machine) (limit : Nat) : (m.limited limit).task = m.task := rfl

@[simp] theorem limited_phase (m : Machine) (limit : Nat) :
    (m.limited limit).phase = m.phase := rfl

-- ================================================ moves beside the agenda

/-- The same move under a limit; it leaves the agenda as it is, and does not
fail for a limit. -/
structure Aside {α : Type} (limit : Nat) (m : Machine) (xl x : Except Cause (α × Machine)) :
    Prop where
  same : xl = x.map fun (a, m') => (a, m'.limited limit)
  unlimited : Avoids .limit x
  agenda : ∀ a m', x = .ok (a, m') → m'.agenda = m.agenda

/-- Taking a value does not look at the limit. -/
theorem aside_pop (m : Machine) : Aside limit m (m.limited limit).pop m.pop where
  same := by
    unfold pop limited
    dsimp only
    cases m.values.pop <;> rfl
  unlimited := avoids_pop nofun
  agenda := by
    intro value m' h
    obtain ⟨⟨value', values⟩, -, h⟩ := bind_eq_ok.mp h
    cases h
    rfl

/-- Nor does an access. -/
theorem aside_access {α : Type} {act : Frame → Except Cause (α × Frame)}
    (hact : ∀ f, Avoids .limit (act f)) :
    Aside limit m ((m.limited limit).access act) (m.access act) where
  same := by
    obtain ⟨task, phase, agenda, values, frames⟩ := m
    cases frames with
    | nil => rfl
    | cons top rest =>
        show (act top.vars >>= _) = (act top.vars >>= _).map _
        cases act top.vars <;> rfl
  unlimited := avoids_access nofun fun call _ => hact call.vars
  agenda := by
    intro a m' h
    obtain ⟨top, rest, vars, -, -, rfl⟩ := access_eq_ok_iff.mp h
    rfl

/-- Nor does the return from a call. -/
theorem aside_leave (m : Machine) : Aside limit m ((m.limited limit).leave s) (m.leave s) where
  same := by
    obtain ⟨task, phase, agenda, values, frames⟩ := m
    cases frames with
    | nil => rfl
    | cons top frames =>
        unfold leave limited
        dsimp only
        cases top.vars.named? s.program.symbols Program.resultName with
        | none => rfl
        | some result => cases values <;> rfl
  unlimited := avoids_leave nofun
  agenda := by
    intro result m' h
    unfold leave at h
    split at h
    · cases h
    · split at h
      · cases h
      · obtain ⟨⟨value, m₁⟩, hpop, h⟩ := bind_eq_ok.mp h
        cases h
        obtain ⟨popped, -, hpop⟩ := bind_eq_ok.mp hpop
        cases hpop
        rfl

-- ================================================================ a step capped

/-- A step, and the same step under a limit. Without a limit it does not
fail for one. -/
structure Capped (limit : Nat) (xl x : Except Cause Progress) : Prop where
  same : xl = cap limit x
  unlimited : Avoids .limit x
  free : ∀ m' stored, x = .ok (.running m' stored) → m'.agenda.limit = none

/-- No limit is set, and no more wait than one lets. -/
structure Under (limit : Nat) (a : Agenda) : Prop where
  free : a.limit = none
  within : a.entries.length ≤ limit

namespace Capped

variable {α : Type}

/-- What both do first they do alike. -/
theorem bind {x : Except Cause α} {f g : α → Except Cause Progress} (hx : Avoids .limit x)
    (h : ∀ a, x = .ok a → Capped limit (f a) (g a)) : Capped limit (x >>= f) (x >>= g) := by
  cases hres : x with
  | error cause =>
      refine ⟨rfl, fun cause' hn => hx cause' ?_, by nofun⟩
      cases hn
      exact hres
  | ok a => exact h a hres

/-- A move beside the agenda comes first, and leaves as many waiting. -/
theorem aside {xl x : Except Cause (α × Machine)} {f : α × Machine → Except Cause Progress}
    (hx : Aside limit m xl x) (hm : Under limit m.agenda)
    (h : ∀ a (m' : Machine), Under limit m'.agenda →
      Capped limit (f (a, m'.limited limit)) (f (a, m'))) :
    Capped limit (xl >>= f) (x >>= f) := by
  rw [hx.same]
  cases hres : x with
  | error cause =>
      refine ⟨rfl, fun cause' hn => hx.unlimited cause' ?_, by nofun⟩
      cases hn
      exact hres
  | ok pair =>
      obtain ⟨a, m'⟩ := pair
      exact h a m' (hx.agenda a m' hres ▸ hm)

/-- The end of the run is the same under a limit. -/
theorem finished (value : Float) :
    Capped limit (.ok (.finished value)) (.ok (.finished value)) :=
  ⟨rfl, avoids_ok _, by nofun⟩

/-- So is a breach. -/
theorem broken (breach : Breach) :
    Capped limit (.error (.broken breach)) (.error (.broken breach)) :=
  ⟨rfl, avoids_breach nofun, by nofun⟩

/-- Pushing is what the limit is about. -/
theorem push {a : Agenda} (ha : Under limit a) (p : Pending) {f : Agenda → Machine}
    (hf : ∀ b, (f b).agenda = b) (hlimited : ∀ b, f (b.limited limit) = (f b).limited limit) :
    Capped limit ((a.limited limit).push p >>= fun b => pure (.quiet (f b)))
      (a.push p >>= fun b => pure (.quiet (f b))) := by
  obtain ⟨b, hb, hfree, hpush⟩ := Agenda.push_limited ha.free limit p
  rw [hb, hpush]
  have hbound : (f b).agenda.entries.length = b.entries.length := by rw [hf b]
  refine ⟨?_, avoids_ok _, ?_⟩
  · show _ = if (f b).agenda.entries.length ≤ limit
      then Except.ok (Progress.running ((f b).limited limit) none)
      else Except.error (Cause.depthLimit limit)
    rw [hbound]
    by_cases hroom : b.entries.length ≤ limit
    · rw [if_pos hroom, if_pos hroom, ← hlimited]
      rfl
    · rw [if_neg hroom, if_neg hroom]
      rfl
  · intro m' stored h
    cases h
    rw [hf b]
    exact hfree

/-- Starting on a child pushes one task. -/
theorem descend (hm : Under limit m.agenda) (resume : Nat) (child : ExprId) :
    Capped limit ((m.limited limit).descend resume child >>= fun m => pure (.quiet m))
      (m.descend resume child >>= fun m => pure (.quiet m)) := by
  unfold Machine.descend
  rw [bind_assoc, bind_assoc]
  exact push hm _ (fun _ => rfl) fun _ => rfl

/-- So does starting on the body of a function. -/
theorem enter (hm : Under limit m.agenda) (f : Function) (vars : Frame) (resume : Nat) :
    Capped limit ((m.limited limit).enter f vars resume >>= fun m => pure (.quiet m))
      (m.enter f vars resume >>= fun m => pure (.quiet m)) := by
  unfold Machine.enter
  rw [bind_assoc, bind_assoc]
  exact push hm _ (fun _ => rfl) fun _ => rfl

/-- A node that completes leaves less waiting than there was. -/
theorem complete (hm : Under limit m.agenda) (stored : Option Store) :
    Capped limit ((m.limited limit).complete >>= fun m => pure (.running m stored))
      (m.complete >>= fun m => pure (.running m stored)) := by
  obtain ⟨task, phase, ⟨bound, entries, depth, hdepth⟩, values, frames⟩ := m
  obtain ⟨hfree, hwithin⟩ := hm
  cases hfree
  cases entries with
  | nil => exact broken _
  | cons p entries =>
      refine ⟨?_, avoids_ok _, ?_⟩
      · exact (if_pos (Nat.le_of_succ_le hwithin)).symm
      · intro m' stored' h
        cases h
        rfl

theorem produce (hm : Under limit m.agenda) (value : Float) (stored : Option Store) :
    Capped limit ((m.limited limit).produce value >>= fun m => pure (.running m stored))
      (m.produce value >>= fun m => pure (.running m stored)) :=
  complete (m := { m with values := value :: m.values }) hm stored

end Capped

-- ============================================================ kinds of nodes

variable (hm : Under limit m.agenda)

include hm

theorem capped_unary (op : UnaryOp) (operand : ExprId) :
    Capped limit ((m.limited limit).stepUnary op operand) (m.stepUnary op operand) := by
  obtain ⟨task, phase, agenda, values, frames⟩ := m
  rcases phase with _ | _ | phase
  · exact .descend hm _ _
  · exact .aside (aside_pop _) hm fun value m' hm' => .produce hm' _ none
  · exact .broken _

theorem capped_binary (op : BinaryOp) (left right : ExprId) :
    Capped limit ((m.limited limit).stepBinary op left right) (m.stepBinary op left right) := by
  obtain ⟨task, phase, agenda, values, frames⟩ := m
  rcases phase with _ | _ | _ | phase
  · exact .descend hm _ _
  · exact .descend hm _ _
  · refine .aside (aside_pop _) hm fun l m₁ hm₁ => ?_
    refine .aside (aside_pop m₁) hm₁ fun r m₂ hm₂ => ?_
    exact .bind (avoids_eval op l r) fun value _ => .produce hm₂ value none
  · exact .broken _

/-- The store comes before the node completes, which leaves less waiting. -/
theorem capped_assign (target : Place) (value : ExprId) :
    Capped limit ((m.limited limit).stepAssign s target value) (m.stepAssign s target value) := by
  obtain ⟨task, phase, agenda, values, frames⟩ := m
  cases target with
  | scalar var =>
      rcases phase with _ | _ | _ | phase
      · exact .descend hm _ _
      · refine .bind (avoids_peek nofun) fun assigned _ => ?_
        refine .aside (aside_access fun _ => Frame.avoids_storeScalar nofun) hm
          fun store m₁ hm₁ => ?_
        exact .complete hm₁ (some store)
      · exact .broken _
      · exact .broken _
  | element array index =>
      rcases phase with _ | _ | _ | phase
      · exact .descend hm _ _
      · exact .descend hm _ _
      · refine .aside (aside_pop _) hm fun i m₁ hm₁ => ?_
        refine .bind (avoids_peek nofun) fun assigned _ => ?_
        refine .bind (avoids_cell nofun) fun cell _ => ?_
        refine .aside (aside_access fun _ => Frame.avoids_storeCell nofun) hm₁
          fun store m₂ hm₂ => ?_
        exact .complete hm₂ (some store)
      · exact .broken _

theorem capped_index (array : VarId) (index : ExprId) :
    Capped limit ((m.limited limit).stepIndex s array index) (m.stepIndex s array index) := by
  obtain ⟨task, phase, agenda, values, frames⟩ := m
  rcases phase with _ | _ | phase
  · exact .descend hm _ _
  · refine .aside (aside_pop _) hm fun i m₁ hm₁ => ?_
    refine .bind (avoids_cell nofun) fun cell _ => ?_
    refine .aside (aside_access fun _ => Frame.avoids_readCell nofun) hm₁ fun value m₂ hm₂ => ?_
    exact .produce hm₂ value none
  · exact .broken _

theorem capped_step (op : StepOp) (target : Place) :
    Capped limit ((m.limited limit).stepStep s op target) (m.stepStep s op target) := by
  obtain ⟨task, phase, agenda, values, frames⟩ := m
  cases target with
  | scalar var =>
      rcases phase with _ | _ | phase
      · refine .bind (avoids_vars nofun) fun vars _ => ?_
        refine .bind (Frame.avoids_readScalar nofun) fun old _ => ?_
        refine .aside (aside_access fun _ => Frame.avoids_storeScalar nofun) hm
          fun store m₁ hm₁ => ?_
        exact .produce hm₁ _ (some store)
      · exact .broken _
      · exact .broken _
  | element array index =>
      rcases phase with _ | _ | phase
      · exact .descend hm _ _
      · refine .aside (aside_pop _) hm fun i m₁ hm₁ => ?_
        refine .bind (avoids_cell nofun) fun cell _ => ?_
        refine .aside (aside_access fun _ => Frame.avoids_readCell nofun) hm₁ fun old m₂ hm₂ => ?_
        refine .aside (aside_access fun _ => Frame.avoids_storeCell nofun) hm₂
          fun store m₃ hm₃ => ?_
        exact .produce hm₃ _ (some store)
      · exact .broken _

theorem capped_choice (node : Expr) (cond thenArm elseArm : ExprId) :
    Capped limit ((m.limited limit).stepChoice node cond thenArm elseArm)
      (m.stepChoice node cond thenArm elseArm) := by
  obtain ⟨task, phase, agenda, values, frames⟩ := m
  rcases phase with _ | _ | _ | phase
  · exact .descend hm _ _
  · exact .aside (aside_pop _) hm fun value m₁ hm₁ => .descend hm₁ _ _
  · exact .complete hm none
  · exact .broken _

theorem capped_seq (first second : ExprId) :
    Capped limit ((m.limited limit).stepSeq first second) (m.stepSeq first second) := by
  obtain ⟨task, phase, agenda, values, frames⟩ := m
  rcases phase with _ | _ | _ | phase
  · exact .descend hm _ _
  · exact .aside (aside_pop _) hm fun value m₁ hm₁ => .descend hm₁ _ _
  · exact .complete hm none
  · exact .broken _

/-- Of the three ways a loop goes on, one completes and two push one
task. -/
theorem capped_loop (cond body : ExprId) :
    Capped limit ((m.limited limit).stepLoop cond body) (m.stepLoop cond body) := by
  obtain ⟨task, phase, agenda, values, frames⟩ := m
  rcases phase with _ | _ | _ | phase
  · exact .descend (m := ⟨task, 0, agenda, 0.0 :: values, frames⟩) hm _ _
  · refine .aside (aside_pop _) hm fun value m₁ hm₁ => ?_
    dsimp only
    by_cases hzero : Arith.isZero value = true
    · rw [if_pos hzero, if_pos hzero]
      exact .complete hm₁ none
    · rw [if_neg hzero, if_neg hzero]
      exact .descend hm₁ _ _
  · refine .aside (aside_pop _) hm fun value m₁ hm₁ => ?_
    refine .aside (aside_pop m₁) hm₁ fun last m₂ hm₂ => ?_
    exact .descend (m := { m₂ with values := value :: m₂.values }) hm₂ _ _
  · exact .broken _

/-- The arguments are bound before the body is pushed for. -/
theorem capped_invoke (i : Invocation) :
    Capped limit ((m.limited limit).invoke s i >>= fun m => pure (.quiet m))
      (m.invoke s i >>= fun m => pure (.quiet m)) := by
  unfold invoke
  simp only [bind_assoc]
  refine .bind (avoids_vars nofun) fun caller _ => ?_
  refine .bind (avoids_bind nofun nofun nofun) fun ⟨vars, values⟩ _ => ?_
  exact .enter (m := { m with values }) hm _ _ _

/-- A call that is invoked or whose argument is started pushes one task; its
return completes. -/
theorem capped_call (callee : NameId) (args : Span) :
    Capped limit ((m.limited limit).stepCall s callee args) (m.stepCall s callee args) := by
  refine .bind (avoids_resolve nofun) fun i _ => ?_
  by_cases harguments : m.phase < i.callee.arity + 1
  · simp only [limited_phase, harguments, if_true]
    cases i.callee.nextScalar? m.phase with
    | none => exact capped_invoke hm i
    | some position =>
        dsimp only
        cases i.args[position]? with
        | none => exact .broken _
        | some arg => exact .descend hm _ _
  · simp only [limited_phase, harguments, if_false]
    by_cases hbody : m.phase = i.callee.arity + 1
    · simp only [hbody, if_true]
      refine .aside (aside_leave m) hm fun result m₁ hm₁ => ?_
      dsimp only
      by_cases hentry : i.callee.name = s.entry
      · rw [if_pos hentry, if_pos hentry]
        exact .finished result
      · rw [if_neg hentry, if_neg hentry]
        exact .produce hm₁ result none
    · simp only [hbody, if_false]
      exact .broken _

-- ================================================================== a step

/-- A step of a node pushes one task at most, and does so last. -/
theorem capped_stepNode (node : Expr) :
    Capped limit ((m.limited limit).stepNode s node) (m.stepNode s node) := by
  cases node with
  | number value => exact .produce hm value none
  | var var =>
      refine .bind (avoids_vars nofun) fun vars _ => ?_
      exact .bind (Frame.avoids_readScalar nofun) fun value _ => .produce hm value none
  | empty => exact .produce hm _ none
  | unary op operand => exact capped_unary hm op operand
  | binary op left right => exact capped_binary hm op left right
  | assign target value => exact capped_assign hm target value
  | index array index => exact capped_index hm array index
  | step op target => exact capped_step hm op target
  | ternary cond thenArm elseArm => exact capped_choice hm _ cond thenArm elseArm
  | branch cond thenArm elseArm => exact capped_choice hm _ cond thenArm elseArm
  | seq first second => exact capped_seq hm first second
  | loop cond body => exact capped_loop hm cond body
  | call callee args => exact capped_call hm callee args

/-- A step under a limit is the step without one, unless it would leave
more waiting. -/
theorem Under.capped : Capped limit ((m.limited limit).step s) (m.step s) := by
  unfold Machine.step
  rw [limited_task]
  cases m.task with
  | entry =>
      unfold stepEntry
      by_cases hphase : m.phase = 1
      · simp only [limited_phase, hphase, if_true]
        exact .aside (aside_leave m) hm fun result m₁ _ => .finished result
      · simp only [limited_phase, hphase, if_false]
        exact .broken _
  | expr id =>
      dsimp only
      cases s.program.expr? id with
      | none => exact .broken _
      | some node => exact capped_stepNode hm node

omit hm

-- ============================================================ whole stretches

/-- The next step would leave more waiting than the limit lets. -/
def Exceeds (s : Setting) (limit : Nat) (m : Machine) : Prop :=
  ∃ m' stored, m.step s = .ok (.running m' stored) ∧ limit < m'.agenda.entries.length

/-- Without a limit, as many as wait are a limit that was not exceeded. -/
theorem under_of_free {a : Agenda} (h : a.limit = none) : Under a.entries.length a :=
  ⟨h, Nat.le_refl _⟩

/-- A run without a limit stays without one. -/
theorem free_of_step {m' : Machine} {stored : Option Store} (hfree : m.agenda.limit = none)
    (h : m.step s = .ok (.running m' stored)) : m'.agenda.limit = none :=
  (under_of_free hfree).capped.free m' stored h

/-- Without a limit, no step fails for one. -/
theorem unlimited_of_free (hfree : m.agenda.limit = none) : Avoids .limit (m.step s) :=
  (under_of_free hfree).capped.unlimited

/-- As long as no more wait than the limit lets, both runs make the same
step. -/
theorem Under.step {m' : Machine} {stored : Option Store} (hm : Under limit m.agenda)
    (h : m.step s = .ok (.running m' stored)) (hroom : m'.agenda.entries.length ≤ limit) :
    (m.limited limit).step s = .ok (.running (m'.limited limit) stored)
      ∧ Under limit m'.agenda := by
  refine ⟨?_, free_of_step hm.free h, hroom⟩
  rw [hm.capped.same, h]
  exact if_pos hroom

/-- Where more would wait, the run under the limit fails for it. -/
theorem Under.step_of_exceeds (hm : Under limit m.agenda) (h : Exceeds s limit m) :
    (m.limited limit).step s = .error (.depthLimit limit) := by
  obtain ⟨m', stored, hstep, hmore⟩ := h
  rw [hm.capped.same, hstep]
  exact if_neg (Nat.not_le_of_lt hmore)

/-- The run under a limit follows the run without one until the latter
exceeds it. -/
theorem Under.steps {m' : Machine} {t : List Store} (hm : Under limit m.agenda)
    (h : Steps s m t m') :
    (Under limit m'.agenda ∧ Steps s (m.limited limit) t (m'.limited limit))
      ∨ ∃ t₁ m₁, Steps s m t₁ m₁ ∧ Exceeds s limit m₁
        ∧ Under limit m₁.agenda ∧ Steps s (m.limited limit) t₁ (m₁.limited limit) := by
  induction h with
  | refl => exact .inl ⟨hm, .refl _⟩
  | @step m m₁ m₂ stored t hstep _ ih =>
      by_cases hroom : m₁.agenda.entries.length ≤ limit
      · obtain ⟨hlimited, hm₁⟩ := hm.step hstep hroom
        rcases ih hm₁ with ⟨hunder, hsteps⟩ | ⟨t', m', hfree, hexceeds, hunder, hsteps⟩
        · exact .inl ⟨hunder, .step hlimited hsteps⟩
        · exact .inr ⟨_, m', .step hstep hfree, hexceeds, hunder, .step hlimited hsteps⟩
      · exact .inr ⟨[], m, .refl m, ⟨m₁, stored, hstep, Nat.lt_of_not_le hroom⟩, hm, .refl _⟩

/-- The run under a limit goes nowhere else. -/
theorem Under.of_steps {n : Machine} {t : List Store} (hm : Under limit m.agenda)
    (h : Steps s (m.limited limit) t n) :
    ∃ m', n = m'.limited limit ∧ Under limit m'.agenda ∧ Steps s m t m' := by
  generalize hk : m.limited limit = k at h
  induction h generalizing m with
  | refl => exact ⟨m, hk.symm, hm, .refl m⟩
  | @step k n₁ n₂ stored t hstep _ ih =>
      subst hk
      rw [hm.capped.same] at hstep
      cases hres : m.step s with
      | error cause => rw [hres] at hstep; cases hstep
      | ok progress =>
          cases progress with
          | finished value => rw [hres] at hstep; cases hstep
          | running m₁ stored₁ =>
              rw [hres] at hstep
              unfold cap at hstep
              dsimp only at hstep
              split at hstep
              · rename_i hroom
                cases hstep
                obtain ⟨m', hn, hunder, hsteps⟩ := ih ⟨free_of_step hm.free hres, hroom⟩ rfl
                exact ⟨m', hn, hunder, .step hres hsteps⟩
              · cases hstep

/-- The last step is the same too, for it leaves nothing waiting. -/
theorem Under.last {result : Except Fault Float} (hm : Under limit m.agenda)
    (h : Last s m result) : Last s (m.limited limit) result := by
  rcases h with ⟨cause, hstep, rfl⟩ | ⟨value, hstep, rfl⟩
  · exact .inl ⟨cause, by rw [hm.capped.same, hstep]; rfl, rfl⟩
  · exact .inr ⟨value, by rw [hm.capped.same, hstep]; rfl, rfl⟩

/-- A run under a limit ends where the run without one ends, or exceeds the
limit. -/
theorem Under.of_last {result : Except Fault Float} (hm : Under limit m.agenda)
    (h : Last s (m.limited limit) result) : Last s m result ∨ Exceeds s limit m := by
  cases hres : m.step s with
  | error cause =>
      have hlimited : (m.limited limit).step s = .error cause := by
        rw [hm.capped.same, hres]
        rfl
      rcases h with ⟨cause', hstep, rfl⟩ | ⟨value, hstep, rfl⟩
      · rw [hlimited] at hstep
        cases hstep
        exact .inl (.inl ⟨cause, hres, rfl⟩)
      · rw [hlimited] at hstep
        cases hstep
  | ok progress =>
      cases progress with
      | finished value =>
          have hlimited : (m.limited limit).step s = .ok (.finished value) := by
            rw [hm.capped.same, hres]
            rfl
          rcases h with ⟨cause, hstep, rfl⟩ | ⟨value', hstep, rfl⟩
          · rw [hlimited] at hstep
            cases hstep
          · rw [hlimited] at hstep
            cases hstep
            exact .inl (.inr ⟨value, hres, rfl⟩)
      | running m₁ stored =>
          right
          refine ⟨m₁, stored, hres, Nat.lt_of_not_le fun hroom => ?_⟩
          exact not_last_of_running (hm.step hres hroom).1 result h

/-- The first state has one task waiting, the run itself. -/
theorem start_limited (limit : Nat) (f : Function) (vars : Frame) :
    ∃ m, Machine.start none f vars = .ok m ∧ m.agenda.limit = none ∧ m.agenda.entries.length = 1
      ∧ Machine.start (some limit) f vars
        = if 1 ≤ limit then .ok (m.limited limit) else .error (.depthLimit limit) := by
  obtain ⟨b, hb, hfree, hpush⟩ := Agenda.push_limited (a := {}) rfl limit ⟨1, .entry⟩
  have hlength : b.entries.length = 1 := congrArg List.length (Agenda.entries_of_push hb).1
  refine ⟨⟨.expr f.body, 0, b, [], [⟨f, vars⟩]⟩, ?_, hfree, hlength, ?_⟩
  · show (Agenda.push {} ⟨1, .entry⟩ >>= _) = _
    rw [hb]
    rfl
  · show ((Agenda.limited {} limit).push ⟨1, .entry⟩ >>= _) = _
    rw [hpush, hlength]
    split <;> rfl

end Machine

namespace Interpreter

open Machine

/-- The interpreter with another bound on what may wait, or none. -/
def bounded (i : Interpreter) (bound : Option Nat) : Interpreter :=
  { i with maxDepth := bound }

variable (i : Interpreter) (limit : Nat) (name : String) (args : List Argument)

/-- The runs with and without the limit come to the same end, if they come
to one, and make the same stores on the way. -/
def SameRun : Prop :=
  (∀ out, (i.bounded (some limit)).Ends name args out ↔ (i.bounded none).Ends name args out)
    ∧ ∀ t, (∃ m, (i.bounded (some limit)).Reaches name args t m)
      ↔ ∃ m, (i.bounded none).Reaches name args t m

/-- The run under the limit fails for it, after stores with which the run
without one starts. -/
def CutOff : Prop :=
  ∃ site stores, (i.bounded (some limit)).Ends name args ⟨.error ⟨.depthLimit limit, site⟩, stores⟩
    ∧ (∃ m, (i.bounded none).Reaches name args stores m)
    ∧ ∀ out, (i.bounded none).Ends name args out → stores <+: out.stores

/-- Without a limit, no more tasks ever wait than it would let. -/
def StaysWithin : Prop :=
  ∀ t m, (i.bounded none).Reaches name args t m → m.agenda.entries.length ≤ limit

variable {i limit name args}

/-- A call by the host is refused without a limit only for reasons that
hold under every limit. -/
theorem Refuses.bounded {fault : Fault} (h : (i.bounded none).Refuses name args fault)
    (bound : Option Nat) : (i.bounded bound).Refuses name args fault := by
  cases h with
  | undefined hfun => exact .undefined hfun
  | unbound hfun hargs => exact .unbound hfun hargs
  | @unstarted f vars cause hfun hargs hstart =>
      obtain ⟨m, hm, -⟩ := start_limited 0 f vars
      exact absurd (hm.symm.trans hstart) nofun

/-- So a run without a limit starts without one, and with one task
waiting. -/
theorem Starts.free {f : Function} {vars : Frame} {m : Machine}
    (h : (i.bounded none).Starts name args f vars m) :
    m.agenda.limit = none ∧ m.agenda.entries.length = 1 := by
  obtain ⟨m', hm', hfree, hlength, -⟩ := start_limited 0 f vars
  have hm : Machine.start none f vars = .ok m := h.started
  rw [hm'] at hm
  cases hm
  exact ⟨hfree, hlength⟩

/-- Under a limit a run starts alike, or is refused because not even the
run itself may wait. -/
theorem Starts.limited {f : Function} {vars : Frame} {m : Machine}
    (h : (i.bounded none).Starts name args f vars m) (limit : Nat) :
    (1 ≤ limit ∧ (i.bounded (some limit)).Starts name args f vars (m.limited limit))
      ∨ limit = 0 ∧ (i.bounded (some limit)).Refuses name args { cause := .depthLimit limit } := by
  obtain ⟨m', hm', hfree, hlength, hstart⟩ := start_limited limit f vars
  have hm : Machine.start none f vars = .ok m := h.started
  rw [hm'] at hm
  cases hm
  by_cases hroom : 1 ≤ limit
  · rw [if_pos hroom] at hstart
    exact .inl ⟨hroom, h.found, h.bound, hstart⟩
  · rw [if_neg hroom] at hstart
    exact .inr ⟨Nat.lt_one_iff.mp (Nat.lt_of_not_le hroom), .unstarted h.found h.bound hstart⟩

/-- Without a limit no run fails for one. -/
theorem not_ends_of_depthLimit {n : Nat} {site : Site} {stores : List Store} :
    ¬(i.bounded none).Ends name args ⟨.error ⟨.depthLimit n, site⟩, stores⟩ := by
  intro h
  rcases h.last with ⟨fault, hrefuses, hout⟩ | ⟨m, ⟨f, vars, m₀, hstarts, hsteps⟩, hlast⟩
  · cases hout
    generalize hfault : (⟨.depthLimit n, site⟩ : Fault) = fault at hrefuses
    cases hrefuses with
    | undefined => cases hfault
    | @unbound f _ _ hargs =>
        cases hfault
        have hbind : Avoids .limit ((i.bounded none).bindArguments f args) :=
          avoids_bindArguments nofun
        exact hbind _ hargs rfl
    | @unstarted f vars cause _ _ hstart =>
        obtain ⟨m, hm, -⟩ := start_limited 0 f vars
        exact absurd (hm.symm.trans hstart) nofun
  · have hfree : m.agenda.limit = none :=
      Steps.keeps (P := fun m => m.agenda.limit = none) (fun hstep hm => free_of_step hm hstep)
        hsteps hstarts.free.1
    rcases hlast with ⟨cause, hstep, hout⟩ | ⟨value, -, hout⟩
    · cases hout
      exact unlimited_of_free hfree _ hstep rfl
    · cases hout

/-- A run cannot both be cut off and be the same. -/
theorem CutOff.not_sameRun (h : i.CutOff limit name args) : ¬i.SameRun limit name args := by
  intro hsame
  obtain ⟨site, stores, hends, -, -⟩ := h
  exact not_ends_of_depthLimit ((hsame.1 _).mp hends)

/-- A run that stays within the limit is the run under it. -/
theorem StaysWithin.sameRun (h : i.StaysWithin limit name args) : i.SameRun limit name args := by
  rcases starts_or_refuses (i.bounded none) name args with ⟨f, vars, m₀, hfree⟩ | ⟨fault, hrefuses⟩
  · have hm₀ : Under limit m₀.agenda := ⟨hfree.free.1, h [] m₀ hfree.reaches⟩
    have hwithin : ∀ {t m}, Steps i.setting m₀ t m → ¬Exceeds i.setting limit m := by
      rintro t m hsteps ⟨m', stored, hstep, hmore⟩
      have hroom := h _ m' (hfree.reaches_iff.mpr (hsteps.snoc hstep))
      exact absurd hroom (Nat.not_le_of_lt hmore)
    rcases hfree.limited limit with ⟨-, hlimited⟩ | ⟨hzero, -⟩
    · constructor
      · intro out
        rw [hlimited.ends_iff, hfree.ends_iff]
        constructor
        · rintro ⟨n, hsteps, hlast⟩
          obtain ⟨m, rfl, hm, hsteps⟩ := hm₀.of_steps hsteps
          rcases hm.of_last hlast with hlast | hexceeds
          · exact ⟨m, hsteps, hlast⟩
          · exact absurd hexceeds (hwithin hsteps)
        · rintro ⟨m, hsteps, hlast⟩
          rcases hm₀.steps hsteps with ⟨hm, hlimited⟩ | ⟨t, m', hsteps, hexceeds, -, -⟩
          · exact ⟨m.limited limit, hlimited, hm.last hlast⟩
          · exact absurd hexceeds (hwithin hsteps)
      · intro t
        constructor
        · rintro ⟨n, hreaches⟩
          obtain ⟨m, -, -, hsteps⟩ := hm₀.of_steps (hlimited.reaches_iff.mp hreaches)
          exact ⟨m, hfree.reaches_iff.mpr hsteps⟩
        · rintro ⟨m, hreaches⟩
          rcases hm₀.steps (hfree.reaches_iff.mp hreaches) with
            ⟨-, hsteps⟩ | ⟨t, m', hsteps, hexceeds, -, -⟩
          · exact ⟨m.limited limit, hlimited.reaches_iff.mpr hsteps⟩
          · exact absurd hexceeds (hwithin hsteps)
    · have hroom := hm₀.within
      rw [hfree.free.2, hzero] at hroom
      exact absurd hroom (Nat.not_succ_le_zero 0)
  · have hlimited := hrefuses.bounded (some limit)
    constructor
    · intro out
      rw [hlimited.ends_iff, hrefuses.ends_iff]
    · intro t
      constructor
      · rintro ⟨m, hreaches⟩
        exact absurd hreaches hlimited.not_reaches
      · rintro ⟨m, hreaches⟩
        exact absurd hreaches hrefuses.not_reaches

/-- A run that does not stay within the limit is cut off under it. -/
theorem cutOff_of_not_staysWithin (h : ¬i.StaysWithin limit name args) :
    i.CutOff limit name args := by
  simp only [StaysWithin, Classical.not_forall, Nat.not_le] at h
  obtain ⟨t, m, ⟨f, vars, m₀, hfree, hsteps⟩, hmore⟩ := h
  rcases hfree.limited limit with ⟨hroom, hlimited⟩ | ⟨-, hrefuses⟩
  · have hm₀ : Under limit m₀.agenda := ⟨hfree.free.1, hfree.free.2 ▸ hroom⟩
    rcases hm₀.steps hsteps with ⟨hm, -⟩ | ⟨t₁, m₁, hsteps₁, hexceeds, hm₁, hlimited₁⟩
    · exact absurd hm.within (Nat.not_le_of_lt hmore)
    · refine ⟨m₁.site, t₁, ?_, ⟨m₁, hfree.reaches_iff.mpr hsteps₁⟩, fun out hends => ?_⟩
      · exact hlimited.ends_iff.mpr ⟨_, hlimited₁, .inl ⟨_, hm₁.step_of_exceeds hexceeds, rfl⟩⟩
      · obtain ⟨m', hsteps', hlast⟩ := hfree.ends_iff.mp hends
        exact hsteps₁.prefix_of_last hsteps' hlast
  · exact ⟨{}, [], hrefuses.ends, ⟨m₀, hfree.reaches⟩, fun out _ => List.nil_prefix⟩

/-- The two runs are the same iff the limit is never exceeded. -/
theorem sameRun_iff : i.SameRun limit name args ↔ i.StaysWithin limit name args := by
  constructor
  · intro hsame
    refine Classical.byContradiction fun h => ?_
    exact (cutOff_of_not_staysWithin h).not_sameRun hsame
  · exact StaysWithin.sameRun

/-- A limit on what may wait is transparent. The run under it is the run
without it, or fails for the limit after stores with which the latter
starts; it is the former if and only if the latter never has more waiting.
So a run that succeeds under a limit succeeds alike under every larger one,
and under none. -/
theorem depth_transparent (i : Interpreter) (limit : Nat) (name : String) (args : List Argument) :
    (i.SameRun limit name args ∨ i.CutOff limit name args)
    ∧ (i.SameRun limit name args ↔ i.StaysWithin limit name args)
    ∧ ∀ value stores, (i.bounded (some limit)).Ends name args ⟨.ok value, stores⟩ →
      (i.bounded none).Ends name args ⟨.ok value, stores⟩
      ∧ ∀ larger, limit ≤ larger → (i.bounded (some larger)).Ends name args ⟨.ok value, stores⟩ := by
  refine ⟨?_, sameRun_iff, fun value stores hends => ?_⟩
  · by_cases h : i.StaysWithin limit name args
    · exact .inl h.sameRun
    · exact .inr (cutOff_of_not_staysWithin h)
  · have hwithin : i.StaysWithin limit name args := by
      refine Classical.byContradiction fun h => ?_
      obtain ⟨site, stores', hcut, -, -⟩ := cutOff_of_not_staysWithin h
      cases hends.unique hcut
    have hfree := (hwithin.sameRun.1 _).mp hends
    refine ⟨hfree, fun larger hle => ?_⟩
    have hlarger : i.StaysWithin larger name args := fun t m h => Nat.le_trans (hwithin t m h) hle
    exact (hlarger.sameRun.1 _).mpr hfree

/-- `result = 1`, with the assignment waiting above the run. -/
def settling : Interpreter where
  program := {
    arena := { nodes := #[.number 1.0, .assign (.scalar ⟨0⟩) ⟨0⟩] }
    symbols := { entries := #[⟨"result", 1⟩] }
    functions := (Functions.empty.register ⟨"main", [], ⟨1⟩⟩).2 }

theorem depth_transparent_settling :
    settling.CutOff 1 "main" [] ∧ settling.SameRun 2 "main" []
      ∧ (settling.bounded (some 3)).Ends "main" [] ⟨.ok 1.0, [.scalar ⟨0⟩ "result" 1.0]⟩ := by
  have hends : (settling.bounded (some 2)).Ends "main" [] ⟨.ok 1.0, [.scalar ⟨0⟩ "result" 1.0]⟩ :=
    ⟨20, rfl⟩
  have hcut : (settling.bounded (some 1)).Ends "main" []
      ⟨.error ⟨.depthLimit 1, ⟨some "main", some ⟨1⟩⟩⟩, []⟩ := ⟨20, rfl⟩
  obtain ⟨htwo, -, hsucceeds⟩ := depth_transparent settling 2 "main" []
  obtain ⟨hfree, hlarger⟩ := hsucceeds _ _ hends
  refine ⟨?_, ?_, hlarger 3 (by decide)⟩
  · refine (depth_transparent settling 1 "main" []).1.resolve_left fun hsame => ?_
    cases hfree.unique ((hsame.1 _).mp hcut)
  · refine htwo.resolve_right fun hcutOff => ?_
    obtain ⟨site, stores, hfails, -, -⟩ := hcutOff
    cases hends.unique hfails

end Interpreter

end ExprGraph
