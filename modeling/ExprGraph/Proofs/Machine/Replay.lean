/-
The stores of a run tell what is in its variables.

Along a run an account is kept for each call in progress: the variables it
was entered with, and the stores made since then while it was the latest
call (`Booked`). Laid over the former in order, the latter are what the
call reads now, in scalars and in arrays (`replay_booked`), however many
calls came and went above it in between.

# Stores and failures

A step answers with a failure, or with a state and perhaps a store; so it
cannot be said of a step that it made a store and then failed. `report` is
the same step with every store handed out as soon as it is made, before
the control moves on. It comes to the same result (`result_report`), and
in a state that is reached it hands out what the step makes, which is
nothing if the step fails (`Reporting.Faithful`).
-/
import ExprGraph.Proofs.Machine.Faults
import Mathlib.Data.List.Forall2

namespace ExprGraph

-- ================================================================= contents

/-- What a call reads in its variables. -/
structure Contents where
  scalar : VarId → Option Float
  array : VarId → Option (Array Float)

/-- The contents of variables. An array that was not touched reads as zeros
of its declared length. -/
def Frame.contents (p : Program) (f : Frame) : Contents where
  scalar := f.scalar?
  array var := (f.array? var).or
    ((p.symbols.get? var).map fun sym => Array.replicate sym.size 0.0)

/-- Contents with one store laid over them. -/
def Contents.store (c : Contents) : Store → Contents
  | .scalar var _ value =>
    { c with scalar := fun other => if var = other then some value else c.scalar other }
  | .element array _ slot value =>
    { c with array := fun other =>
        if array = other then (c.array other).map (·.setIfInBounds slot value)
        else c.array other }

/-- The store is what it says: the name is the declared one, the slot is
below the declared length, and the value is there. -/
def Store.Shows (p : Program) (f : Frame) : Store → Prop
  | .scalar var name value =>
    (∃ sym, p.symbols.get? var = some sym ∧ sym.name = name) ∧ f.scalar? var = some value
  | .element array name slot value =>
    (∃ sym, p.symbols.get? array = some sym ∧ sym.name = name ∧ slot < sym.size)
      ∧ f.element? array slot = some value

/-- The variables hold the parameters of a function, and nothing else. -/
def Frame.BoundTo (f : Function) (vars : Frame) : Prop :=
  ∃ given : List Bound, (given.map Bound.param).Perm f.params ∧ vars = given.foldl Frame.give {}

namespace Frame

variable {p : Program} {f g : Frame}

theorem contents_touch {array : VarId} {sym : Symbol} (hget : p.symbols.get? array = some sym)
    (h : f.touch array sym.size = .ok g) : g.contents p = f.contents p := by
  have hscalar : g.scalar? = f.scalar? := funext (scalar?_touch h)
  simp only [contents, hscalar, Contents.mk.injEq, true_and]
  funext other
  by_cases heq : array = other
  · subst heq
    rw [array?_touch h, hget]
    cases f.array? array <;> rfl
  · rw [array?_touch_of_ne h heq]

theorem contents_setScalar (f : Frame) (var : VarId) (name : String) (value : Float) :
    (f.setScalar var value).contents p = (f.contents p).store (.scalar var name value) := by
  simp only [contents, Contents.store, array?_setScalar, Contents.mk.injEq, and_true]
  funext other
  exact scalar?_setScalar f var other value

theorem contents_setElement {array : VarId} {slot : Nat} (h : (f.element? array slot).isSome = true)
    (name : String) (value : Float) :
    (f.setElement array slot value).contents p
      = (f.contents p).store (.element array name slot value) := by
  have hscalar : (f.setElement array slot value).scalar? = f.scalar? :=
    funext fun other => scalar?_setElement f array other slot value
  simp only [contents, Contents.store, hscalar, Contents.mk.injEq, true_and]
  funext other
  rw [array?_setElement]
  by_cases heq : array = other
  · subst heq
    rw [if_pos rfl, if_pos rfl]
    cases hold : f.array? array with
    | some values => rfl
    | none =>
        unfold element? at h
        rw [hold] at h
        cases h
  · rw [if_neg heq, if_neg heq]

/-- A store is laid over what was there. -/
theorem Makes.contents {store : Store} (h : f.Makes p store g) :
    g.contents p = (f.contents p).store store := by
  cases h with
  | scalar value hget => exact contents_setScalar f _ _ value
  | element value hget hlt htouch hsome =>
      rw [contents_setElement hsome, contents_touch hget htouch]

theorem Makes.shows {store : Store} (h : f.Makes p store g) : store.Shows p g := by
  cases h with
  | scalar value hget =>
      exact ⟨⟨_, hget, rfl⟩, by rw [scalar?_setScalar, if_pos rfl]⟩
  | @element array sym slot g' value hget hlt htouch hsome =>
      refine ⟨⟨sym, hget, rfl, hlt⟩, ?_⟩
      unfold element? at hsome ⊢
      rw [array?_setElement, if_pos rfl]
      cases hold : g'.array? array with
      | none => rw [hold] at hsome; cases hsome
      | some values =>
          rw [hold, Option.bind_some] at hsome
          exact Array.getElem?_setIfInBounds_self_of_lt (by simpa using hsome)

end Frame

-- ================================================================ reporting

/-- A computation that hands out stores as it goes. What was handed out
stands, also when the computation fails afterwards. -/
structure Reporting (α : Type) where
  stores : List Store
  result : Except Cause α

namespace Reporting

variable {α β : Type}

/-- A computation that hands out nothing. -/
def silent (x : Except Cause α) : Reporting α := ⟨[], x⟩

/-- Hand out one store. -/
def report (store : Store) : Reporting Unit := ⟨[store], .ok ()⟩

protected def bind (x : Reporting α) (f : α → Reporting β) : Reporting β :=
  match x.result with
  | .ok a => ⟨x.stores ++ (f a).stores, (f a).result⟩
  | .error cause => ⟨x.stores, .error cause⟩

instance : Monad Reporting where
  pure a := silent (.ok a)
  bind := Reporting.bind

instance : MonadLift (Except Cause) Reporting where
  monadLift := silent

theorem result_bind (x : Reporting α) (f : α → Reporting β) :
    (x >>= f).result = x.result >>= fun a => (f a).result := by
  obtain ⟨stores, result⟩ := x
  cases result <;> rfl

/-- What a step makes. -/
def made : Except Cause Progress → List Store
  | .ok (.running _ stored) => stored.toList
  | _ => []

/-- A step hands out what it makes, and nothing if it fails. -/
def Faithful (x : Reporting Progress) : Prop :=
  x.stores = made x.result

theorem Faithful.bind {x : Except Cause α} {f : α → Reporting Progress}
    (h : ∀ a, x = .ok a → Faithful (f a)) : Faithful (silent x >>= f) := by
  cases hx : x with
  | error cause => rfl
  | ok a => exact h a hx

/-- A store is handed out before the control moves on; so the control must
move on. -/
theorem Faithful.report {store : Store} {x : Except Cause Machine} {m : Machine} (h : x = .ok m) :
    Faithful (report store >>= fun _ => silent x >>= fun m => pure (.storing store m)) := by
  rw [h]
  rfl

/-- A step that makes no store need not hand out one. -/
theorem faithful_silent {x : Except Cause Progress}
    (h : ∀ m stored, x = .ok (.running m stored) → stored = none) : Faithful (silent x) := by
  cases hx : x with
  | error cause => rfl
  | ok progress =>
      cases progress with
      | finished value => rfl
      | running m stored => rw [h m stored hx]; rfl

end Reporting

namespace Machine

open Reporting

variable (s : Setting)

/-- An assignment, its store handed out when it is made. -/
def reportAssign (m : Machine) (target : Place) (value : ExprId) : Reporting Progress :=
  match m.phase, target with
  | 1, .scalar var => do
    let assigned ← m.values.peek
    let (store, m) ← m.access (·.storeScalar s.program var assigned)
    Reporting.report store
    return .storing store (← m.complete)
  | 2, .element array _ => do
    let (index, m) ← m.pop
    let assigned ← m.values.peek
    let cell ← s.program.cell array index
    let (store, m) ← m.access (·.storeCell cell assigned)
    Reporting.report store
    return .storing store (← m.complete)
  | _, _ => silent (m.stepAssign s target value)

/-- An increment, its store handed out when it is made. -/
def reportStep (m : Machine) (op : StepOp) (target : Place) : Reporting Progress :=
  match m.phase, target with
  | 0, .scalar var => do
    let old ← (← m.vars).readScalar s.program var
    let new := old + op.delta
    let (store, m) ← m.access (·.storeScalar s.program var new)
    Reporting.report store
    return .storing store (← m.produce (op.result old new))
  | 1, .element array _ => do
    let (index, m) ← m.pop
    let cell ← s.program.cell array index
    let (old, m) ← m.access (·.readCell cell)
    let new := old + op.delta
    let (store, m) ← m.access (·.storeCell cell new)
    Reporting.report store
    return .storing store (← m.produce (op.result old new))
  | _, _ => silent (m.stepStep s op target)

/-- A step of a node, its store handed out when it is made. -/
def reportNode (m : Machine) : Expr → Reporting Progress
  | .assign target value => m.reportAssign s target value
  | .step op target => m.reportStep s op target
  | node => silent (m.stepNode s node)

/-- One step, its store handed out when it is made. -/
def report (m : Machine) : Reporting Progress :=
  match m.task with
  | .entry => silent (m.stepEntry s)
  | .expr id =>
    match s.program.expr? id with
    | some node => m.reportNode s node
    | none => silent (.error (.broken (.danglingExpr id)))

variable {s}

theorem result_reportAssign (m : Machine) (target : Place) (value : ExprId) :
    (m.reportAssign s target value).result = m.stepAssign s target value := by
  obtain ⟨task, phase, agenda, values, frames⟩ := m
  cases target with
  | scalar var =>
      rcases phase with _ | _ | _ | phase
      · rfl
      · simp only [reportAssign, stepAssign, result_bind]
        rfl
      · rfl
      · rfl
  | element array index =>
      rcases phase with _ | _ | _ | phase
      · rfl
      · rfl
      · simp only [reportAssign, stepAssign, result_bind]
        rfl
      · rfl

theorem result_reportStep (m : Machine) (op : StepOp) (target : Place) :
    (m.reportStep s op target).result = m.stepStep s op target := by
  obtain ⟨task, phase, agenda, values, frames⟩ := m
  cases target with
  | scalar var =>
      rcases phase with _ | _ | phase
      · simp only [reportStep, stepStep, result_bind]
        rfl
      · rfl
      · rfl
  | element array index =>
      rcases phase with _ | _ | phase
      · rfl
      · simp only [reportStep, stepStep, result_bind]
        rfl
      · rfl

theorem result_reportNode (m : Machine) (node : Expr) :
    (m.reportNode s node).result = m.stepNode s node := by
  cases node with
  | assign target value => exact result_reportAssign m target value
  | step op target => exact result_reportStep m op target
  | _ => rfl

/-- Handing out stores changes no result. -/
theorem result_report (m : Machine) : (m.report s).result = m.step s := by
  unfold report Machine.step
  cases m.task with
  | entry => rfl
  | expr id =>
      dsimp only
      cases s.program.expr? id with
      | none => rfl
      | some node => exact result_reportNode m node

-- ================================================== stores are handed out

theorem agenda_pop {m m' : Machine} {value : Float} (h : m.pop = .ok (value, m')) :
    m'.agenda = m.agenda := by
  obtain ⟨⟨value', values⟩, -, h⟩ := bind_eq_ok.mp h
  cases h
  rfl

section Handed

variable {m : Machine}

/-- An access that makes a store, and then a move that cannot fail. -/
theorem faithful_stored (act : Frame → Except Cause (Store × Frame))
    (next : Machine → Except Cause Machine) (hpending : m.agenda.entries ≠ [])
    (hnext : ∀ {m₁ : Machine}, m₁.agenda.entries ≠ [] → ∃ m₂, next m₁ = .ok m₂) :
    Faithful (silent (m.access act) >>= fun (store, m) => Reporting.report store >>= fun _ =>
      silent (next m) >>= fun m => pure (Progress.storing store m)) := by
  refine .bind fun ⟨store, m₁⟩ haccess => ?_
  rw [← agenda_access haccess] at hpending
  obtain ⟨m₂, hm₂⟩ := hnext hpending
  exact .report hm₂

/-- A step of an assignment hands out the store that it makes. -/
theorem faithful_reportAssign (hpending : m.agenda.entries ≠ []) (target : Place)
    (value : ExprId) : Faithful (m.reportAssign s target value) := by
  unfold reportAssign
  split
  · refine .bind fun assigned _ => ?_
    exact faithful_stored (·.storeScalar s.program _ assigned) complete hpending
      complete_of_pending
  · refine .bind fun ⟨index, m₁⟩ hpop => ?_
    rw [← agenda_pop hpop] at hpending
    refine .bind fun assigned _ => .bind fun cell _ => ?_
    exact faithful_stored (·.storeCell cell assigned) complete hpending complete_of_pending
  · rename_i hscalar helement
    refine faithful_silent fun m' stored h => ?_
    unfold stepAssign at h
    split at h
    · exact (Steady.descend rfl _ _ m' stored h).1
    · rename_i hphase
      exact (hscalar _ hphase rfl).elim
    · exact (Steady.descend rfl _ _ m' stored h).1
    · rename_i hphase
      exact (helement _ _ hphase rfl).elim
    · cases h

/-- So does one of an increment or a decrement. -/
theorem faithful_reportStep (hpending : m.agenda.entries ≠ []) (op : StepOp) (target : Place) :
    Faithful (m.reportStep s op target) := by
  unfold reportStep
  split
  · refine .bind fun vars _ => .bind fun old _ => ?_
    exact faithful_stored (·.storeScalar s.program _ (old + op.delta))
      (·.produce (op.result old (old + op.delta))) hpending fun h => produce_of_pending h _
  · refine .bind fun ⟨index, m₁⟩ hpop => ?_
    rw [← agenda_pop hpop] at hpending
    refine .bind fun cell _ => .bind fun ⟨old, m₂⟩ hread => ?_
    rw [← agenda_access hread] at hpending
    exact faithful_stored (·.storeCell cell (old + op.delta))
      (·.produce (op.result old (old + op.delta))) hpending fun h => produce_of_pending h _
  · rename_i hscalar helement
    refine faithful_silent fun m' stored h => ?_
    unfold stepStep at h
    split at h
    · rename_i hphase
      exact (hscalar _ hphase rfl).elim
    · exact (Steady.descend rfl _ _ m' stored h).1
    · rename_i hphase
      exact (helement _ _ hphase rfl).elim
    · cases h

/-- Reading an element makes no store. -/
theorem quiet_index {m' : Machine} {stored : Option Store} {array : VarId} {index : ExprId}
    (h : m.stepIndex s array index = .ok (.running m' stored)) : stored = none := by
  unfold stepIndex at h
  split at h
  · exact (Steady.descend rfl _ _ m' stored h).1
  · obtain ⟨⟨i, m₁⟩, -, h⟩ := bind_eq_ok.mp h
    obtain ⟨cell, -, h⟩ := bind_eq_ok.mp h
    obtain ⟨⟨value, m₂⟩, -, h⟩ := bind_eq_ok.mp h
    exact (Steady.produce rfl _ m' stored h).1
  · cases h

/-- Nor does a step of a call. -/
theorem quiet_call {m' : Machine} {stored : Option Store} {callee : NameId} {args : Span}
    (h : m.stepCall s callee args = .ok (.running m' stored)) : stored = none := by
  obtain ⟨i, -, h⟩ := bind_eq_ok.mp h
  dsimp only at h
  split at h
  · split at h
    · rename_i position _
      cases harg : i.args[position]? with
      | none => rw [harg] at h; cases h
      | some arg =>
          rw [harg] at h
          exact (Steady.descend rfl _ _ m' stored h).1
    · obtain ⟨m₁, -, h⟩ := bind_eq_ok.mp h
      cases h
      rfl
  · split at h
    · obtain ⟨⟨result, m₁⟩, -, h⟩ := bind_eq_ok.mp h
      dsimp only at h
      split at h
      · cases h
      · exact (Steady.produce rfl _ m' stored h).1
    · cases h

/-- A step that keeps the calls and makes no store has none to hand out. -/
theorem faithful_steady {F : List Activation} {x : Except Cause Progress} (h : Steady F x) :
    Faithful (silent x) :=
  faithful_silent fun m' stored hx => (h m' stored hx).1

/-- A step of a node hands out what it makes. -/
theorem faithful_reportNode (hpending : m.agenda.entries ≠ []) (node : Expr) :
    Faithful (m.reportNode s node) := by
  cases node with
  | assign target value => exact faithful_reportAssign hpending target value
  | step op target => exact faithful_reportStep hpending op target
  | number value => exact faithful_steady (.produce rfl value)
  | var var => exact faithful_steady (.bind fun vars _ => .bind fun value _ => .produce rfl value)
  | empty => exact faithful_steady (.produce rfl _)
  | unary op operand => exact faithful_steady (steady_unary m op operand)
  | binary op left right => exact faithful_steady (steady_binary m op left right)
  | index array index => exact faithful_silent fun m' stored h => quiet_index h
  | ternary cond thenArm elseArm => exact faithful_steady (steady_choice m _ cond thenArm elseArm)
  | branch cond thenArm elseArm => exact faithful_steady (steady_choice m _ cond thenArm elseArm)
  | seq first second => exact faithful_steady (steady_seq m first second)
  | loop cond body => exact faithful_steady (steady_loop m cond body)
  | call callee args => exact faithful_silent fun m' stored h => quiet_call h

/-- As long as the control can move on, a step hands out what it makes. -/
theorem faithful_report (h : ∀ id, m.task = .expr id → m.agenda.entries ≠ []) :
    Faithful (m.report s) := by
  unfold report
  cases htask : m.task with
  | entry =>
      refine faithful_silent fun m' stored h => ?_
      unfold stepEntry at h
      split at h
      · obtain ⟨⟨result, m₁⟩, -, h⟩ := bind_eq_ok.mp h
        cases h
      · cases h
  | expr id =>
      dsimp only
      cases s.program.expr? id with
      | none => rfl
      | some node => exact faithful_reportNode (h id htask) node

end Handed

end Machine

-- ================================================================ accounts

/-- What is kept of a call in progress: the variables it was entered with,
and the stores made while it was the latest call. -/
structure Account where
  entry : Frame
  made : List Store

/-- A call was entered with its parameters only, and reads what it was
entered with under the stores on its account. -/
structure Account.Settles (p : Program) (call : Activation) (a : Account) : Prop where
  params : a.entry.BoundTo call.function
  contents : call.vars.contents p = a.made.foldl Contents.store (a.entry.contents p)

/-- There is an account for each call, and each settles. -/
abbrev Settled (p : Program) : List Activation → List Account → Prop :=
  List.Forall₂ (Account.Settles p)

namespace Machine

/-- Entering binds the parameters from the last to the first. -/
theorem Enters.boundTo {p : Program} {caller : Frame} {f : Function} {vars : Frame}
    (h : Enters p caller f vars) : vars.BoundTo f := by
  obtain ⟨given, hparams, hvars, -⟩ := h
  exact ⟨given, hparams ▸ List.reverse_perm _, hvars⟩

section Changes

variable {p : Program} {F F' : List Activation} {stored : Option Store} {accounts : List Account}

/-- As long as no call is entered or left, a store goes to the account of
the latest call. -/
theorem Change.settled {a : Account} (h : Change p F stored F') (hlength : F'.length = F.length)
    (hsettled : Settled p F (a :: accounts)) :
    Settled p F' ({ a with made := a.made ++ stored.toList } :: accounts) := by
  cases h with
  | same =>
      rw [Option.toList_none, List.append_nil]
      exact hsettled
  | touched hget htouch =>
      obtain ⟨hparams, hcontents⟩ := (List.forall₂_cons.mp hsettled).1
      rw [Option.toList_none, List.append_nil]
      exact List.Forall₂.cons ⟨hparams, (Frame.contents_touch hget htouch).trans hcontents⟩
        (List.forall₂_cons.mp hsettled).2
  | stored hmakes =>
      obtain ⟨hparams, hcontents⟩ := (List.forall₂_cons.mp hsettled).1
      refine List.Forall₂.cons ⟨hparams, ?_⟩ (List.forall₂_cons.mp hsettled).2
      rw [Option.toList_some, List.foldl_append, ← hcontents]
      exact hmakes.contents
  | entered => exact absurd hlength (Nat.succ_ne_self _)
  | left => exact absurd hlength.symm (Nat.succ_ne_self _)

/-- A call that is entered has a clear account. -/
theorem Change.settled_entered {call : Activation} (h : Change p F stored F')
    (henters : F' = call :: F) (hsettled : Settled p F accounts) :
    Settled p F' (⟨call.vars, []⟩ :: accounts) := by
  have hlength : F'.length = F.length + 1 := congrArg List.length henters
  cases h with
  | same => exact absurd hlength.symm (Nat.succ_ne_self _)
  | touched => exact absurd hlength.symm (Nat.succ_ne_self _)
  | stored => exact absurd hlength.symm (Nat.succ_ne_self _)
  | entered hparams =>
      obtain ⟨rfl, -⟩ := List.cons.inj henters
      exact List.Forall₂.cons ⟨hparams.boundTo, rfl⟩ hsettled
  | left =>
      rw [List.length_cons] at hlength
      omega

/-- The account of a call that is left is dropped. -/
theorem Change.settled_left {call : Activation} {a : Account} (h : Change p F stored F')
    (hleaves : F = call :: F') (hsettled : Settled p F (a :: accounts)) :
    Settled p F' accounts := by
  subst hleaves
  exact (List.forall₂_cons.mp hsettled).2

/-- A store shows in the variables of the latest call. -/
theorem Change.shows {store : Store} (h : Change p F (some store) F') :
    ∃ call rest, F' = call :: rest ∧ store.Shows p call.vars := by
  cases h with
  | stored hmakes => exact ⟨_, _, rfl, hmakes.shows⟩

end Changes

end Machine

namespace Interpreter

open Machine

variable (i : Interpreter) (name : String) (args : List Argument)

/-- The accounts of the calls in progress, the latest first, kept along a
run that made these stores on its way to a state. -/
inductive Booked : List Store → Machine → List Account → Prop where
  | start {f : Function} {vars : Frame} {m : Machine} : i.Starts name args f vars m →
      Booked [] m [⟨vars, []⟩]
  /-- The latest call goes on; a store is put to its account. -/
  | worked {t : List Store} {m m' : Machine} {a : Account} {accounts : List Account}
      {stored : Option Store} : Booked t m (a :: accounts) →
      m.step i.setting = .ok (.running m' stored) → m'.frames.length = m.frames.length →
      Booked (t ++ stored.toList) m' ({ a with made := a.made ++ stored.toList } :: accounts)
  /-- A call is entered, and nothing is stored. -/
  | entered {t : List Store} {m m' : Machine} {accounts : List Account} {call : Activation} :
      Booked t m accounts → m.step i.setting = .ok (.running m' none) →
      m'.frames = call :: m.frames → Booked t m' (⟨call.vars, []⟩ :: accounts)
  /-- A call is left, and nothing is stored. -/
  | left {t : List Store} {m m' : Machine} {a : Account} {accounts : List Account}
      {call : Activation} : Booked t m (a :: accounts) →
      m.step i.setting = .ok (.running m' none) → m.frames = call :: m'.frames →
      Booked t m' accounts

variable {i : Interpreter} {name : String} {args : List Argument}

theorem Booked.reaches {t : List Store} {m : Machine} {accounts : List Account}
    (h : i.Booked name args t m accounts) : i.Reaches name args t m := by
  induction h with
  | start hstarts => exact hstarts.reaches
  | worked _ hstep _ ih => exact ih.step hstep
  | entered _ hstep _ ih =>
      have hreaches := ih.step hstep
      rwa [Option.toList_none, List.append_nil] at hreaches
  | left _ hstep _ ih =>
      have hreaches := ih.step hstep
      rwa [Option.toList_none, List.append_nil] at hreaches

/-- The host binds the parameters from the first to the last. -/
theorem Starts.boundTo {f : Function} {vars : Frame} {m : Machine}
    (h : i.Starts name args f vars m) : vars.BoundTo f := by
  obtain ⟨given, hparams, hvars, -⟩ := given_of_bindArguments h.bound
  exact ⟨given, hparams ▸ List.Perm.refl _, hvars⟩

theorem Booked.settled {t : List Store} {m : Machine} {accounts : List Account}
    (h : i.Booked name args t m accounts) : Settled i.program m.frames accounts := by
  induction h with
  | start hstarts =>
      obtain ⟨agenda, -, rfl⟩ := hstarts.eq
      exact List.Forall₂.cons ⟨hstarts.boundTo, rfl⟩ List.Forall₂.nil
  | worked _ hstep hlength ih => exact (change_of_step hstep).settled hlength ih
  | entered _ hstep henters ih => exact (change_of_step hstep).settled_entered henters ih
  | left _ hstep hleaves ih => exact (change_of_step hstep).settled_left hleaves ih

/-- The accounts can be kept through every step. -/
theorem Booked.step {t : List Store} {m m' : Machine} {accounts : List Account}
    {stored : Option Store} (h : i.Booked name args t m accounts)
    (hstep : m.step i.setting = .ok (.running m' stored)) :
    ∃ accounts', i.Booked name args (t ++ stored.toList) m' accounts' := by
  have hsettled := h.settled
  have hcalls := h.reaches.calls
  have hchange := change_of_step hstep
  generalize hF : m.frames = F at hchange hsettled hcalls
  generalize hF' : m'.frames = F' at hchange
  cases hchange with
  | same =>
      cases hsettled with
      | nil => exact absurd rfl hcalls
      | cons => exact ⟨_, h.worked hstep (by rw [hF, hF'])⟩
  | touched =>
      cases hsettled
      exact ⟨_, h.worked hstep (by rw [hF, hF']; rfl)⟩
  | stored =>
      cases hsettled
      exact ⟨_, h.worked hstep (by rw [hF, hF']; rfl)⟩
  | entered =>
      rw [Option.toList_none, List.append_nil]
      exact ⟨_, h.entered hstep (by rw [hF, hF'])⟩
  | left =>
      cases hsettled
      rw [Option.toList_none, List.append_nil]
      exact ⟨_, h.left hstep (by rw [hF, hF'])⟩

/-- Accounts can be kept along every run. -/
theorem Reaches.booked {t : List Store} {m : Machine} (h : i.Reaches name args t m) :
    ∃ accounts, i.Booked name args t m accounts := by
  obtain ⟨f, vars, m₀, hstarts, hsteps⟩ := h
  suffices ∀ {m m' : Machine} {t' : List Store}, Steps i.setting m t' m' →
      ∀ {t : List Store} {accounts : List Account}, i.Booked name args t m accounts →
        ∃ accounts', i.Booked name args (t ++ t') m' accounts' from
    this hsteps (.start hstarts)
  intro m m' t' hsteps
  induction hsteps with
  | refl =>
      intro t accounts hbooked
      exact ⟨accounts, by rwa [List.append_nil]⟩
  | step hstep _ ih =>
      intro t accounts hbooked
      obtain ⟨accounts', hbooked'⟩ := hbooked.step hstep
      rw [← List.append_assoc]
      exact ih hbooked'

/-- In a state that is reached, a step hands out what it makes. -/
theorem Reaches.faithful {t : List Store} {m : Machine} (h : i.Reaches name args t m) :
    (m.report i.setting).Faithful := by
  refine faithful_report fun id htask => ?_
  rcases h.inside_or_returns with ⟨f, vars, hinside⟩ | hreturns
  · exact (h.sound hinside).pending
  · rw [hreturns.task] at htask
    cases htask

/-- The stores of a run are complete and sound. Accounts can be kept along
it up to every state it reaches, and however they are kept, each call in
progress reads its parameters with the stores on its account laid over
them. Each store shows in the latest call when it is made, in a slot that
is there if it is to an array. A step hands out the store it makes, and
none if it fails or ends the run; and a run that ends has the stores made
up to the last state it reaches, or was refused and has none. -/
theorem replay_of_reaches (i : Interpreter) (name : String) (args : List Argument) :
    (∀ t m, i.Reaches name args t m ↔ ∃ accounts, i.Booked name args t m accounts)
    ∧ (∀ t m accounts, i.Booked name args t m accounts → Settled i.program m.frames accounts)
    ∧ (∀ t m, i.Reaches name args t m →
      (m.report i.setting).result = m.step i.setting
      ∧ (∀ cause, m.step i.setting = .error cause → (m.report i.setting).stores = [])
      ∧ (∀ value, m.step i.setting = .ok (.finished value) → (m.report i.setting).stores = [])
      ∧ ∀ m' stored, m.step i.setting = .ok (.running m' stored) →
        (m.report i.setting).stores = stored.toList
        ∧ ∀ store, stored = some store →
          ∃ call rest, m'.frames = call :: rest ∧ store.Shows i.program call.vars)
    ∧ ∀ out, i.Ends name args out →
      (∃ fault, i.Refuses name args fault ∧ out = ⟨.error fault, []⟩)
        ∨ ∃ m, i.Reaches name args out.stores m ∧ Last i.setting m out.result := by
  refine ⟨fun t m => ⟨Reaches.booked, fun ⟨_, h⟩ => h.reaches⟩, fun t m accounts h => h.settled,
    fun t m h => ?_, fun out h => h.last⟩
  have hfaithful := h.faithful
  unfold Reporting.Faithful at hfaithful
  rw [result_report] at hfaithful
  refine ⟨result_report m, fun cause hstep => ?_, fun value hstep => ?_, fun m' stored hstep => ?_⟩
  · rw [hfaithful, hstep]
    rfl
  · rw [hfaithful, hstep]
    rfl
  · refine ⟨by rw [hfaithful, hstep]; rfl, ?_⟩
    rintro store rfl
    exact (change_of_step hstep).shows

/-- `result = keep(x = 3)`, where `keep(n)` is `result = n`. -/
def keeping : Interpreter where
  program := {
    arena := {
      nodes := #[.number 3.0, .assign (.scalar ⟨0⟩) ⟨0⟩, .call ⟨0⟩ ⟨0, 1⟩,
        .assign (.scalar ⟨2⟩) ⟨2⟩, .var ⟨1⟩, .assign (.scalar ⟨2⟩) ⟨4⟩]
      lists := #[⟨1⟩] }
    names := Names.ofTexts #["keep"]
    symbols := { entries := #[⟨"x", 1⟩, ⟨"n", 1⟩, ⟨"result", 1⟩] }
    functions := ((Functions.empty.register ⟨"main", [], ⟨3⟩⟩).2.register
      ⟨"keep", [.scalar ⟨1⟩], ⟨5⟩⟩).2 }

/-- `keep` makes its store, and then its account has that store and the
account of its caller the one made before. -/
theorem replay_of_reaches_keeping :
    ∃ (m m' : Machine) (entry : Frame), (m.report keeping.setting).stores = [.scalar ⟨2⟩ "result" 3.0]
      ∧ m.step keeping.setting = .ok (.running m' (some (.scalar ⟨2⟩ "result" 3.0)))
      ∧ keeping.Reaches "main" [] [.scalar ⟨0⟩ "x" 3.0, .scalar ⟨2⟩ "result" 3.0] m'
      ∧ entry.scalar? ⟨1⟩ = some 3.0
      ∧ Settled keeping.program m'.frames
        [⟨entry, [.scalar ⟨2⟩ "result" 3.0]⟩, ⟨{}, [.scalar ⟨0⟩ "x" 3.0]⟩] := by
  obtain ⟨hbooks, hsettles, hsteps, -⟩ := replay_of_reaches keeping "main" []
  have hstarts : keeping.Starts "main" [] ⟨"main", [], ⟨3⟩⟩ {} _ := ⟨rfl, rfl, rfl⟩
  -- the argument, and the store it makes
  have hargument := (((((Booked.start hstarts).worked rfl rfl).worked rfl rfl).worked rfl
    rfl).worked rfl rfl).worked rfl rfl
  -- the call, up to its store
  have hbody := ((hargument.entered rfl rfl).worked rfl rfl).worked rfl rfl
  have hstored := hbody.worked rfl rfl
  obtain ⟨-, -, -, hhanded⟩ := hsteps _ _ hbody.reaches
  exact ⟨_, _, _, (hhanded _ _ rfl).1, rfl, (hbooks _ _).mpr ⟨_, hstored⟩, rfl,
    hsettles _ _ _ hstored⟩

end Interpreter

end ExprGraph
