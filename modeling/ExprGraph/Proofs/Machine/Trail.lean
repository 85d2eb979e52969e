/-
Where control is, and how it got there.

A step of a node goes down to a child of the node, or back to what waits;
a call also enters the body of its callee, and comes back from it. Nothing
else moves control (`Goes`, `steers_call`). So what waits below a node at
work is a trail: the run itself, under the body of its function; under a
node, the nodes that went down to it one after the other; and under the
body of a callee, the call that entered it (`Trail`).

# The invariant

While its callee runs a call waits in the phase behind all its arguments,
and in no other (`Waits`). A state at work therefore has a trail to its
node, unless the node is a call whose callee has just completed: then the
trail leads to the call, and the calls in progress are one more than the
trail has (`OnTrail`). Each kind of move keeps one of these, and every
state a run reaches is one (`Reaches.onTrail`).
-/
import ExprGraph.Proofs.Paths
import ExprGraph.Proofs.Machine.Held
import ExprGraph.Proofs.Machine.Reached

namespace ExprGraph

namespace Machine

-- =============================================================== one step

/-- The functions of the calls in progress, the latest first. -/
def calls (m : Machine) : List Function := m.frames.map Activation.function

/-- A state that differs in values and variables only. -/
structure Beside (m m₁ : Machine) : Prop where
  task : m₁.task = m.task
  agenda : m₁.agenda = m.agenda
  calls : m₁.calls = m.calls

/-- Control goes down to one of these nodes, or back to what waits. -/
inductive Goes (children : List ExprId) (m : Machine) : Machine → Prop where
  | down {m' : Machine} {child : ExprId} {resume : Nat} : child ∈ children →
      m'.task = .expr child → m'.phase = 0 →
      m'.agenda.entries = ⟨resume, m.task⟩ :: m.agenda.entries → m'.calls = m.calls →
      Goes children m m'
  | back {m' : Machine} : m.agenda.entries = ⟨m'.phase, m'.task⟩ :: m'.agenda.entries →
      m'.calls = m.calls → Goes children m m'

/-- If the computation goes on, control goes so. -/
def Steers (children : List ExprId) (m : Machine) (x : Except Cause Progress) : Prop :=
  ∀ (m' : Machine) (stored : Option Store), x = .ok (.running m' stored) → Goes children m m'

section Moves

variable {m m₁ m' : Machine} {children : List ExprId} {α : Type}

theorem Beside.refl (m : Machine) : Beside m m := ⟨rfl, rfl, rfl⟩

/-- Moves beside control, one after the other. -/
theorem Beside.trans {m₂ : Machine} (h : Beside m m₁) (h' : Beside m₁ m₂) : Beside m m₂ :=
  ⟨h'.task.trans h.task, h'.agenda.trans h.agenda, h'.calls.trans h.calls⟩

theorem Beside.pushed (h : Beside m m₁) (value : Float) :
    Beside m { m₁ with values := value :: m₁.values } := ⟨h.task, h.agenda, h.calls⟩

/-- Taking a value is beside control. -/
theorem beside_pop {value : Float} (h : m.pop = .ok (value, m₁)) : Beside m m₁ := by
  obtain ⟨⟨value', values⟩, -, h⟩ := bind_eq_ok.mp h
  cases h
  exact ⟨rfl, rfl, rfl⟩

/-- So is an access. -/
theorem beside_access {act : Frame → Except Cause (α × Frame)} {a : α}
    (h : m.access act = .ok (a, m₁)) : Beside m m₁ := by
  obtain ⟨top, rest, vars, hF, -, rfl⟩ := access_eq_ok_iff.mp h
  exact ⟨rfl, rfl, by rw [calls, calls, hF]; rfl⟩

/-- What comes first makes no difference, if what comes of it steers. -/
theorem Steers.bind {x : Except Cause α} {f : α → Except Cause Progress}
    (h : ∀ a, x = .ok a → Steers children m (f a)) : Steers children m (x >>= f) := by
  intro m' stored hx
  obtain ⟨a, ha, hx⟩ := bind_eq_ok.mp hx
  exact h a ha m' stored hx

/-- What is done beside the control comes first. -/
theorem Steers.beside {x : Except Cause (α × Machine)} {f : α × Machine → Except Cause Progress}
    (hb : Beside m m₁) (hx : ∀ {a : α} {m₂ : Machine}, x = .ok (a, m₂) → Beside m₁ m₂)
    (h : ∀ (a : α) (m₂ : Machine), Beside m m₂ → Steers children m (f (a, m₂))) :
    Steers children m (x >>= f) :=
  .bind fun ⟨a, m₂⟩ hdone => h a m₂ (hb.trans (hx hdone))

/-- Taking a value first is beside control. -/
theorem Steers.pop {f : Float × Machine → Except Cause Progress} (hb : Beside m m₁)
    (h : ∀ (value : Float) (m₂ : Machine), Beside m m₂ → Steers children m (f (value, m₂))) :
    Steers children m (m₁.pop >>= f) :=
  .beside hb beside_pop h

/-- An access first is beside control. -/
theorem Steers.access {act : Frame → Except Cause (α × Frame)}
    {f : α × Machine → Except Cause Progress} (hb : Beside m m₁)
    (h : ∀ (a : α) (m₂ : Machine), Beside m m₂ → Steers children m (f (a, m₂))) :
    Steers children m (m₁.access act >>= f) :=
  .beside hb beside_access h

/-- A failure goes nowhere. -/
theorem Steers.error (cause : Cause) : Steers children m (.error cause) := by nofun

/-- Starting on a child of the node is one of the two ways to go on. -/
theorem Steers.descend {child : ExprId} (hb : Beside m m₁) (hchild : child ∈ children)
    (resume : Nat) :
    Steers children m (m₁.descend resume child >>= fun m => pure (Progress.quiet m)) := by
  intro m' stored h
  obtain ⟨agenda, hentries, rfl⟩ := descend_inv (quiet_inv h)
  rw [hb.task, hb.agenda] at hentries
  exact .down hchild rfl rfl hentries hb.calls

/-- Completing is the other. -/
theorem Steers.complete (hb : Beside m m₁) (stored : Option Store) :
    Steers children m (m₁.complete >>= fun m => pure (Progress.running m stored)) := by
  intro m' stored' h
  obtain ⟨m₂, hcomplete, h⟩ := bind_eq_ok.mp h
  cases h
  obtain ⟨p, agenda, hentries, rfl⟩ := complete_inv hcomplete
  rw [hb.agenda] at hentries
  exact .back hentries hb.calls

theorem Steers.produce (hb : Beside m m₁) (value : Float) (stored : Option Store) :
    Steers children m (m₁.produce value >>= fun m => pure (Progress.running m stored)) :=
  .complete (hb.pushed value) stored

end Moves

-- ================================================== nodes other than calls

section Nodes

variable {s : Setting} (m : Machine)

theorem steers_unary (op : UnaryOp) (operand : ExprId) :
    Steers [operand] m (m.stepUnary op operand) := by
  unfold stepUnary
  split
  · exact .descend (.refl m) List.mem_cons_self 1
  · exact .pop (.refl m) fun value m₁ hb => .produce hb _ none
  · exact .error _

theorem steers_binary (op : BinaryOp) (left right : ExprId) :
    Steers [left, right] m (m.stepBinary op left right) := by
  unfold stepBinary
  split
  · exact .descend (.refl m) (by simp) 1
  · exact .descend (.refl m) (by simp) 2
  · refine .pop (.refl m) fun l m₁ hb => .pop hb fun r m₂ hb => ?_
    exact .bind fun value _ => .produce hb value none
  · exact .error _

/-- The children of an assignment are its value and its target's index. -/
theorem steers_assign (target : Place) (value : ExprId) :
    Steers (value :: target.children) m (m.stepAssign s target value) := by
  unfold stepAssign
  split
  · exact .descend (.refl m) List.mem_cons_self 1
  · refine .bind fun assigned _ => .access (.refl m) fun store m₁ hb => ?_
    exact .complete hb (some store)
  · exact .descend (.refl m) (by simp [Place.children]) 2
  · refine .pop (.refl m) fun index m₁ hb => .bind fun assigned _ => ?_
    refine .bind fun cell _ => .access hb fun store m₂ hb => ?_
    exact .complete hb (some store)
  · exact .error _

theorem steers_index (array : VarId) (index : ExprId) :
    Steers [index] m (m.stepIndex s array index) := by
  unfold stepIndex
  split
  · exact .descend (.refl m) List.mem_cons_self 1
  · refine .pop (.refl m) fun index m₁ hb => .bind fun cell _ => ?_
    exact .access hb fun value m₂ hb => .produce hb value none
  · exact .error _

/-- The child of an increment is its target's index. -/
theorem steers_step (op : StepOp) (target : Place) :
    Steers target.children m (m.stepStep s op target) := by
  unfold stepStep
  split
  · refine .bind fun vars _ => .bind fun old _ => .access (.refl m) fun store m₁ hb => ?_
    exact .produce hb _ (some store)
  · exact .descend (.refl m) List.mem_cons_self 1
  · refine .pop (.refl m) fun index m₁ hb => .bind fun cell _ => ?_
    refine .access hb fun old m₂ hb => .access hb fun store m₃ hb => ?_
    exact .produce hb _ (some store)
  · exact .error _

/-- Both kinds of choice have the same children. -/
theorem steers_choice (node : Expr) (cond thenArm elseArm : ExprId) :
    Steers [cond, thenArm, elseArm] m (m.stepChoice node cond thenArm elseArm) := by
  unfold stepChoice
  split
  · exact .descend (.refl m) List.mem_cons_self 1
  · refine .pop (.refl m) fun value m₁ hb => .descend hb ?_ 2
    split
    · simp
    · simp
  · exact .complete (.refl m) none
  · exact .error _

theorem steers_seq (first second : ExprId) :
    Steers [first, second] m (m.stepSeq first second) := by
  unfold stepSeq
  split
  · exact .descend (.refl m) List.mem_cons_self 1
  · exact .pop (.refl m) fun value m₁ hb => .descend hb (by simp) 2
  · exact .complete (.refl m) none
  · exact .error _

/-- A loop goes down to its condition again after every round. -/
theorem steers_loop (cond body : ExprId) : Steers [cond, body] m (m.stepLoop cond body) := by
  unfold stepLoop
  split
  · exact .descend ((Beside.refl m).pushed 0.0) List.mem_cons_self 1
  · refine .pop (.refl m) fun value m₁ hb => ?_
    dsimp only
    split
    · exact .complete hb none
    · exact .descend hb (by simp) 2
  · refine .pop (.refl m) fun value m₁ hb => .pop hb fun last m₂ hb => ?_
    exact .descend (hb.pushed value) List.mem_cons_self 1
  · exact .error _

/-- A node that is not a call goes down to its children, or back. -/
theorem steers_node {node : Expr} (hcall : ∀ callee args, node ≠ .call callee args) :
    Steers (s.program.children node) m (m.stepNode s node) := by
  cases node with
  | number value => exact .produce (.refl m) value none
  | var var => exact .bind fun vars _ => .bind fun value _ => .produce (.refl m) value none
  | empty => exact .produce (.refl m) _ none
  | unary op operand => exact steers_unary m op operand
  | binary op left right => exact steers_binary m op left right
  | assign target value => exact steers_assign m target value
  | index array index => exact steers_index m array index
  | step op target => exact steers_step m op target
  | ternary cond thenArm elseArm => exact steers_choice m _ cond thenArm elseArm
  | branch cond thenArm elseArm => exact steers_choice m _ cond thenArm elseArm
  | seq first second => exact steers_seq m first second
  | loop cond body => exact steers_loop m cond body
  | call callee args => exact absurd rfl (hcall callee args)

end Nodes

-- =================================================================== calls

section Calls

variable {s : Setting}

/-- The node is a call, and its references lead to this callee and these
arguments. -/
def Invokes (s : Setting) (id : ExprId) (i : Invocation) : Prop :=
  ∃ callee args, s.program.expr? id = some (.call callee args) ∧ resolve s callee args = .ok i

/-- A call node invokes one function, with one list of arguments. -/
theorem Invokes.unique {id : ExprId} {i i' : Invocation} (h : Invokes s id i)
    (h' : Invokes s id i') : i = i' := by
  obtain ⟨callee, args, hnode, hresolve⟩ := h
  obtain ⟨callee', args', hnode', hresolve'⟩ := h'
  rw [hnode] at hnode'
  cases hnode'
  rw [hresolve] at hresolve'
  cases hresolve'
  rfl

/-- What the references of a call lead to. -/
theorem resolve_eq_ok {callee : NameId} {args : Span} {i : Invocation}
    (h : resolve s callee args = .ok i) :
    s.program.names.text? callee = some i.name ∧ s.program.function? i.name = some i.callee
      ∧ s.program.arena.list? args = some i.args ∧ i.callee.arity ≤ maxArity := by
  unfold resolve at h
  cases hname : s.program.names.text? callee with
  | none => rw [hname] at h; cases h
  | some name =>
      cases hfun : s.program.function? name with
      | none => simp only [hname, hfun] at h; cases h
      | some f =>
          cases hlist : s.program.arena.list? args with
          | none => simp only [hname, hfun, hlist] at h; cases h
          | some ids =>
              simp only [hname, hfun, hlist] at h
              by_cases hlen : ids.length = f.arity
              · by_cases hmax : f.arity ≤ maxArity
                · rw [if_pos hlen, if_pos hmax] at h
                  cases h
                  exact ⟨rfl, hfun, rfl, hmax⟩
                · rw [if_pos hlen, if_neg hmax] at h
                  cases h
              · rw [if_neg hlen] at h
                cases h

/-- The function is one of the program. -/
theorem Invokes.registered {id : ExprId} {i : Invocation} (h : Invokes s id i) :
    s.program.function? i.name = some i.callee := by
  obtain ⟨callee, args, -, hresolve⟩ := h
  exact (resolve_eq_ok hresolve).2.1

/-- The arguments are children of the call node. -/
theorem Invokes.isChild {id arg : ExprId} {i : Invocation} (h : Invokes s id i)
    (harg : arg ∈ i.args) : s.program.IsChild arg id := by
  obtain ⟨callee, args, hnode, hresolve⟩ := h
  refine ⟨_, hnode, ?_⟩
  rw [Program.children, (resolve_eq_ok hresolve).2.2.1]
  exact harg

/-- A call in this phase has no callee in progress; any other node never
has one. -/
def Waits (s : Setting) (id : ExprId) (phase : Nat) : Prop :=
  ∀ i, Invokes s id i → phase ≤ i.callee.arity

theorem waits_zero (id : ExprId) : Waits s id 0 := fun _ _ => Nat.zero_le _

/-- While its arguments are evaluated, a call waits in front of its body. -/
theorem Invokes.waits {id : ExprId} {i : Invocation} {phase : Nat} (h : Invokes s id i)
    (hphase : phase ≤ i.callee.arity) : Waits s id phase := by
  intro i' h'
  rw [← h.unique h']
  exact hphase

/-- Behind its body it does not. -/
theorem Invokes.not_waits {id : ExprId} {i : Invocation} (h : Invokes s id i) :
    ¬Waits s id (i.callee.arity + 1) :=
  fun hwaits => Nat.not_succ_le_self _ (hwaits i h)

/-- What a step of a node does to control. -/
inductive Moves (s : Setting) (id : ExprId) (m : Machine) : Machine → Prop where
  | down {m' : Machine} {child : ExprId} {resume : Nat} : s.program.IsChild child id →
      Waits s id m.phase → Waits s id resume → m'.task = .expr child → m'.phase = 0 →
      m'.agenda.entries = ⟨resume, .expr id⟩ :: m.agenda.entries → m'.calls = m.calls →
      Moves s id m m'
  | back {m' : Machine} : Waits s id m.phase →
      m.agenda.entries = ⟨m'.phase, m'.task⟩ :: m'.agenda.entries → m'.calls = m.calls →
      Moves s id m m'
  | enters {m' : Machine} {i : Invocation} : Invokes s id i → Waits s id m.phase →
      m'.task = .expr i.callee.body → m'.phase = 0 →
      m'.agenda.entries = ⟨i.callee.arity + 1, .expr id⟩ :: m.agenda.entries →
      m'.calls = i.callee :: m.calls → Moves s id m m'
  | returns {m' : Machine} {i : Invocation} (f : Function) : Invokes s id i →
      m.phase = i.callee.arity + 1 →
      m.agenda.entries = ⟨m'.phase, m'.task⟩ :: m'.agenda.entries →
      m.calls = f :: m'.calls → Moves s id m m'

variable {m m' : Machine} {id : ExprId} {stored : Option Store}

/-- Leaving a call drops the latest, and touches nothing else of control. -/
theorem leave_inv {result : Float} {m₁ : Machine} (h : m.leave s = .ok (result, m₁)) :
    m₁.agenda = m.agenda ∧ ∃ f, m.calls = f :: m₁.calls := by
  obtain ⟨task, phase, agenda, values, frames⟩ := m
  cases frames with
  | nil => cases h
  | cons top frames =>
      unfold leave at h
      dsimp only at h
      split at h
      · cases h
      · obtain ⟨⟨value, m₂⟩, hpop, h⟩ := bind_eq_ok.mp h
        cases h
        have hb := beside_pop hpop
        exact ⟨hb.agenda, top.function, congrArg (top.function :: ·) hb.calls.symm⟩

/-- A call goes on with an argument, or with the callee's body, or goes
back. -/
theorem moves_of_stepCall {callee : NameId} {args : Span} (htask : m.task = .expr id)
    (hnode : s.program.expr? id = some (.call callee args))
    (h : m.stepCall s callee args = .ok (.running m' stored)) : Moves s id m m' := by
  unfold stepCall at h
  obtain ⟨i, hresolve, h⟩ := bind_eq_ok.mp h
  have hinvokes : Invokes s id i := ⟨callee, args, hnode, hresolve⟩
  dsimp only at h
  by_cases hargs : m.phase < i.callee.arity + 1
  · rw [if_pos hargs] at h
    have hwaits := hinvokes.waits (Nat.le_of_lt_succ hargs)
    cases hnext : i.callee.nextScalar? m.phase with
    | some position =>
        obtain ⟨-, hlt⟩ := Function.scalarsBefore_of_nextScalar? hnext
        simp only [hnext] at h
        cases harg : i.args[position]? with
        | none => rw [harg] at h; cases h
        | some arg =>
            rw [harg] at h
            obtain ⟨agenda, hentries, rfl⟩ := descend_inv (quiet_inv h)
            rw [htask] at hentries
            exact .down (hinvokes.isChild (List.mem_of_getElem? harg)) hwaits
              (hinvokes.waits hlt) rfl rfl hentries rfl
    | none =>
        simp only [hnext] at h
        obtain ⟨caller, -, hinvoke⟩ := bind_eq_ok.mp (quiet_inv h)
        obtain ⟨⟨vars, values⟩, -, henter⟩ := bind_eq_ok.mp hinvoke
        obtain ⟨agenda, hentries, rfl⟩ := enter_inv henter
        rw [htask] at hentries
        exact .enters hinvokes hwaits rfl rfl hentries rfl
  · rw [if_neg hargs] at h
    by_cases hbody : m.phase = i.callee.arity + 1
    · rw [if_pos hbody] at h
      obtain ⟨⟨result, m₁⟩, hleave, h⟩ := bind_eq_ok.mp h
      obtain ⟨hagenda, f, hcalls⟩ := leave_inv hleave
      dsimp only at h
      split at h
      · cases h
      · obtain ⟨p, agenda, hentries, rfl⟩ := complete_inv (quiet_inv h)
        have hentries : m₁.agenda.entries = p :: agenda.entries := hentries
        rw [hagenda] at hentries
        exact .returns f hinvokes hbody hentries hcalls
    · rw [if_neg hbody] at h
      cases h

/-- A step of a node moves control in one of these ways. -/
theorem moves_of_step (htask : m.task = .expr id)
    (h : m.step s = .ok (.running m' stored)) : Moves s id m m' := by
  unfold Machine.step at h
  simp only [htask] at h
  cases hnode : s.program.expr? id with
  | none => rw [hnode] at h; cases h
  | some node =>
      rw [hnode] at h
      dsimp only at h
      by_cases hcall : ∃ callee args, node = .call callee args
      · obtain ⟨callee, args, rfl⟩ := hcall
        exact moves_of_stepCall htask hnode h
      · have hwaits : ∀ phase, Waits s id phase := by
          rintro phase i ⟨callee, args, hnode', -⟩
          rw [hnode] at hnode'
          exact absurd ⟨callee, args, Option.some.inj hnode'⟩ hcall
        have hgoes := steers_node m (fun callee args heq => hcall ⟨callee, args, heq⟩) m' stored h
        cases hgoes with
        | down hchild htask' hphase hentries hcalls =>
            rw [htask] at hentries
            exact .down ⟨node, hnode, hchild⟩ (hwaits _) (hwaits _) htask' hphase hentries hcalls
        | back hentries hcalls => exact .back (hwaits _) hentries hcalls

end Calls

-- ================================================================== trails

/-- What waits below a node, the latest first, while these functions are in
progress: the run of `f`, the nodes that went down to it, and the calls
that entered their callees. -/
inductive Trail (s : Setting) (f : Function) : List Function → List Pending → ExprId → Prop where
  | body : Trail s f [f] [⟨1, .entry⟩] f.body
  | child {F : List Function} {C : List Pending} {parent child : ExprId} {resume : Nat} :
      Trail s f F C parent → s.program.IsChild child parent → Waits s parent resume →
      Trail s f F (⟨resume, .expr parent⟩ :: C) child
  | callee {F : List Function} {C : List Pending} {call : ExprId} {i : Invocation} :
      Trail s f F C call → Invokes s call i →
      Trail s f (i.callee :: F) (⟨i.callee.arity + 1, .expr call⟩ :: C) i.callee.body

/-- Where a run of `f` can be: at a node; at a call whose callee has just
completed; or behind the body of `f`, at the return of the run. -/
inductive OnTrail (s : Setting) (f : Function) (m : Machine) : Prop where
  | node {id : ExprId} : m.task = .expr id → Waits s id m.phase →
      Trail s f m.calls m.agenda.entries id → OnTrail s f m
  | completed {id : ExprId} {i : Invocation} {F : List Function} : m.task = .expr id →
      Invokes s id i → m.phase = i.callee.arity + 1 → m.calls = i.callee :: F →
      Trail s f F m.agenda.entries id → OnTrail s f m
  | ended : m.task = .entry → m.phase = 1 → m.calls = [f] → m.agenda.entries = [] → OnTrail s f m

section Trails

variable {s : Setting} {f : Function} {F : List Function} {C : List Pending} {id : ExprId}
  {m m' : Machine} {stored : Option Store}

/-- Going back takes up what waits. -/
theorem Trail.back (h : Trail s f m.calls (⟨m.phase, m.task⟩ :: m.agenda.entries) id) :
    OnTrail s f m := by
  generalize hcalls : m.calls = F at h
  generalize hphase : m.phase = phase at h
  generalize htask : m.task = task at h
  generalize hentries : m.agenda.entries = C at h
  cases h with
  | body => exact .ended htask hphase hcalls hentries
  | child htrail _ hwaits =>
      rw [← hphase] at hwaits
      rw [← hcalls, ← hentries] at htrail
      exact .node htask hwaits htrail
  | callee htrail hinvokes =>
      rw [← hentries] at htrail
      exact .completed htask hinvokes hphase hcalls htrail

/-- A step of a run on a trail stays on a trail. -/
theorem OnTrail.step (h : OnTrail s f m) (hstep : m.step s = .ok (.running m' stored)) :
    OnTrail s f m' := by
  cases h with
  | @node id htask hwaits htrail =>
      cases moves_of_step htask hstep with
      | down hchild _ hresume htask' hphase hentries hcalls =>
          rw [← hcalls] at htrail
          refine .node htask' (hphase ▸ waits_zero _) ?_
          rw [hentries]
          exact .child htrail hchild hresume
      | back _ hentries hcalls =>
          rw [← hcalls, hentries] at htrail
          exact htrail.back
      | enters hinvokes _ htask' hphase hentries hcalls =>
          refine .node htask' (hphase ▸ waits_zero _) ?_
          rw [hentries, hcalls]
          exact .callee htrail hinvokes
      | returns g hinvokes hphase =>
          rw [hphase] at hwaits
          exact absurd hwaits hinvokes.not_waits
  | @completed id i F htask hinvokes hphase hcalls htrail =>
      have hnot : ¬Waits s id m.phase := hphase ▸ hinvokes.not_waits
      cases moves_of_step htask hstep with
      | down _ hwaits => exact absurd hwaits hnot
      | back hwaits => exact absurd hwaits hnot
      | enters _ hwaits => exact absurd hwaits hnot
      | returns g _ _ hentries hcalls' =>
          rw [hcalls] at hcalls'
          obtain ⟨-, rfl⟩ := List.cons.inj hcalls'
          rw [hentries] at htrail
          exact htrail.back
  | ended htask hphase _ _ =>
      -- the return ends the run
      unfold Machine.step stepEntry at hstep
      simp only [htask, hphase, if_true] at hstep
      obtain ⟨⟨result, m₁⟩, -, hlast⟩ := bind_eq_ok.mp hstep
      cases hlast

/-- The node a trail leads to is in the function that was called last. -/
theorem Trail.reachable (h : Trail s f F C id) :
    ∃ g F', F = g :: F' ∧ s.program.Reachable g.body id := by
  induction h with
  | body => exact ⟨f, [], rfl, .refl _⟩
  | child _ hchild _ ih =>
      obtain ⟨g, F', rfl, hreach⟩ := ih
      exact ⟨g, F', rfl, hreach.child hchild⟩
  | @callee F C call i _ _ _ => exact ⟨i.callee, F, rfl, .refl _⟩

/-- Functions in progress are registered, if the one the run started with
is. -/
theorem Trail.registered {name : String} (hf : s.program.function? name = some f)
    (h : Trail s f F C id) : ∀ g ∈ F, ∃ key, s.program.function? key = some g := by
  induction h with
  | body => exact List.forall_mem_singleton.mpr ⟨name, hf⟩
  | child _ _ _ ih => exact ih
  | callee _ hinvokes ih => exact List.forall_mem_cons.mpr ⟨⟨_, hinvokes.registered⟩, ih⟩

/-- The function called last is registered, and the node a trail leads to
is in its body. -/
theorem Trail.top {name : String} (hf : s.program.function? name = some f)
    (h : Trail s f F C id) :
    ∃ g F' key, F = g :: F' ∧ s.program.function? key = some g
      ∧ s.program.Reachable g.body id := by
  obtain ⟨g, F', rfl, hreach⟩ := h.reachable
  obtain ⟨key, hkey⟩ := h.registered hf g List.mem_cons_self
  exact ⟨g, F', key, rfl, hkey, hreach⟩

end Trails

end Machine

namespace Interpreter

open Machine

variable {i : Interpreter} {name : String} {args : List Argument}

/-- In the first state the body is at work, and nothing waits but the
run. -/
theorem Starts.onTrail {f : Function} {vars : Frame} {m : Machine}
    (h : i.Starts name args f vars m) : OnTrail i.setting f m := by
  obtain ⟨agenda, hentries, rfl⟩ := enter_inv h.started
  refine .node rfl (waits_zero f.body) ?_
  show Trail _ f [f] agenda.entries f.body
  rw [hentries]
  exact .body

/-- Every state a run reaches is on a trail. -/
theorem Reaches.onTrail {t : List Store} {m : Machine} (h : i.Reaches name args t m) :
    ∃ f, i.program.function? name = some f ∧ OnTrail i.setting f m := by
  obtain ⟨f, vars, m₀, hstarts, hsteps⟩ := h
  exact ⟨f, hstarts.found, hsteps.keeps (fun hstep h => h.step hstep) hstarts.onTrail⟩

end Interpreter

end ExprGraph
