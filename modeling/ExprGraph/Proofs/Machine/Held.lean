/-
What nodes hold on the stacks.

Between its phases a node keeps values, and a call keeps the frame of its
callee, on top of what was there when it was entered. How many depends on
nothing but the node and the phase (`held`).

A step of a node either starts on a child, and leaves behind what the
phase it goes on in holds, short of the child's value; or it completes,
and leaves one value (`Turn`). This is shown kind by kind, from the moves
a step is made of; whatever else a step may do, it is a failure or the end
of the run.
-/
import ExprGraph.Proofs.Machine.Steps

namespace ExprGraph

-- ============================================================ parameters

/-- The number of scalars among the first parameters of a function. -/
def Function.scalarsBefore (f : Function) (position : Nat) : Nat :=
  (f.params.take position).countP fun param => !param.isArray

namespace Function

variable {f : Function} {start position : Nat}

/-- Up to the first element that is such, and with it, one is. -/
theorem countP_take_of_findIdx? {α : Type} {p : α → Bool} {xs : List α} {i : Nat}
    (h : xs.findIdx? p = some i) : i < xs.length ∧ (xs.take (i + 1)).countP p = 1 := by
  induction xs generalizing i with
  | nil => cases h
  | cons x xs ih =>
      rw [List.findIdx?_cons] at h
      by_cases hx : p x = true
      · rw [if_pos hx] at h
        cases h
        exact ⟨Nat.succ_pos _, by simp only [List.take_succ_cons, List.take_zero,
          List.countP_cons_of_pos hx, List.countP_nil]⟩
      · rw [if_neg hx, Option.map_eq_some_iff] at h
        obtain ⟨j, hj, rfl⟩ := h
        obtain ⟨hlt, hcount⟩ := ih hj
        refine ⟨Nat.succ_lt_succ hlt, ?_⟩
        rw [List.take_succ_cons, List.countP_cons_of_neg hx]
        exact hcount

/-- The next scalar argument is one more than there were, and it is an
argument. -/
theorem scalarsBefore_of_nextScalar? (h : f.nextScalar? start = some position) :
    f.scalarsBefore (position + 1) = f.scalarsBefore start + 1 ∧ position < f.arity := by
  unfold nextScalar? at h
  obtain ⟨i, hi, rfl⟩ := Option.map_eq_some_iff.mp h
  obtain ⟨hlt, hcount⟩ := countP_take_of_findIdx? hi
  rw [List.length_drop] at hlt
  constructor
  · unfold scalarsBefore
    rw [Nat.add_assoc, List.take_add, List.countP_append, hcount]
  · unfold arity
    omega

/-- If no scalar argument is left, all of them were evaluated. -/
theorem scalarsBefore_of_nextScalar?_none (h : f.nextScalar? start = none) :
    f.scalarsBefore start = f.params.countP fun param => !param.isArray := by
  unfold nextScalar? at h
  rw [Option.map_eq_none_iff, List.findIdx?_eq_none_iff] at h
  have hrest : (f.params.drop start).countP (fun param => !param.isArray) = 0 :=
    List.countP_eq_zero.mpr fun param hmem => by rw [h param hmem]; exact Bool.false_ne_true
  unfold scalarsBefore
  conv => rhs; rw [← List.take_append_drop start f.params]
  rw [List.countP_append, hrest, Nat.add_zero]

end Function

namespace Machine

variable {s : Setting}

-- ========================================================= the moves, inverted

section Moves

variable {m m' : Machine}

/-- To descend is to wait and to start on the child; the stacks of values
and frames stay. -/
theorem descend_inv {resume : Nat} {child : ExprId} (h : m.descend resume child = .ok m') :
    ∃ agenda, agenda.entries = ⟨resume, m.task⟩ :: m.agenda.entries
      ∧ m' = ⟨.expr child, 0, agenda, m.values, m.frames⟩ := by
  unfold descend at h
  rw [bind_eq_ok] at h
  obtain ⟨agenda, hpush, hm⟩ := h
  cases hm
  exact ⟨agenda, (Agenda.entries_of_push hpush).1, rfl⟩

/-- To enter a function is to wait and to start on its body with a frame
more. -/
theorem enter_inv {f : Function} {vars : Frame} {resume : Nat}
    (h : m.enter f vars resume = .ok m') :
    ∃ agenda, agenda.entries = ⟨resume, m.task⟩ :: m.agenda.entries
      ∧ m' = ⟨.expr f.body, 0, agenda, m.values, ⟨f, vars⟩ :: m.frames⟩ := by
  unfold enter at h
  rw [bind_eq_ok] at h
  obtain ⟨agenda, hpush, hm⟩ := h
  cases hm
  exact ⟨agenda, (Agenda.entries_of_push hpush).1, rfl⟩

/-- To complete is to go back to the latest task that waits. -/
theorem complete_inv (h : m.complete = .ok m') :
    ∃ p agenda, m.agenda.entries = p :: agenda.entries
      ∧ m' = ⟨p.task, p.phase, agenda, m.values, m.frames⟩ := by
  unfold complete at h
  cases hpop : m.agenda.pop with
  | none => rw [hpop] at h; cases h
  | some pair =>
      rw [hpop] at h
      cases h
      exact ⟨pair.1, pair.2, (Agenda.entries_of_pop hpop).1, rfl⟩

/-- A step without a store leads where its last move leads. -/
theorem quiet_inv {x : Except Cause Machine} {stored : Option Store}
    (h : (x >>= fun m => pure (Progress.quiet m)) = .ok (Progress.running m' stored)) :
    x = .ok m' := by
  rw [bind_eq_ok] at h
  obtain ⟨m, hx, hm⟩ := h
  cases hm
  exact hx

/-- So does a step with one. -/
theorem storing_inv {x : Except Cause Machine} {store : Store} {stored : Option Store}
    (h : (x >>= fun m => pure (Progress.storing store m)) = .ok (Progress.running m' stored)) :
    x = .ok m' := by
  rw [bind_eq_ok] at h
  obtain ⟨m, hx, hm⟩ := h
  cases hm
  exact hx

end Moves

/-- Binding takes one value for each scalar. -/
theorem bind_inv {caller : Frame} {f : Function} {entries : List (Nat × Param × ExprId)}
    {vars vars' : Frame} {values values' : Values}
    (h : Machine.bind s caller f entries vars values = .ok (vars', values')) :
    ∃ taken, values = taken ++ values'
      ∧ taken.length = entries.countP fun entry => !entry.2.1.isArray := by
  induction entries generalizing vars values with
  | nil =>
      cases h
      exact ⟨[], rfl, rfl⟩
  | cons entry entries ih =>
      obtain ⟨position, param, arg⟩ := entry
      cases param with
      | scalar var =>
          cases values with
          | nil => cases h
          | cons v values =>
              obtain ⟨taken, rfl, hlen⟩ := ih h
              refine ⟨v :: taken, rfl, ?_⟩
              rw [List.length_cons, hlen]
              exact (List.countP_cons_of_pos rfl).symm
      | array var =>
          unfold Machine.bind at h
          rw [bind_eq_ok] at h
          obtain ⟨contents, -, hrest⟩ := h
          obtain ⟨taken, hvalues, hlen⟩ := ih hrest
          refine ⟨taken, hvalues, ?_⟩
          rw [hlen]
          exact (List.countP_cons_of_neg Bool.false_ne_true).symm

-- ======================================================= what a node holds

/-- The values a node other than a call has added to the stack when it
goes on in its phases `0, 1, …`. -/
def heldValues : Expr → List Nat
  | .number _ | .var _ | .empty | .step _ (.scalar _) | .call .. => [0]
  | .unary .. | .index .. | .step _ (.element ..) | .assign (.scalar _) _ => [0, 1]
  | .binary .. | .assign (.element ..) _ => [0, 1, 2]
  | .ternary .. | .branch .. | .seq .. => [0, 1, 1]
  | .loop .. => [0, 2, 2]

/-- The values, and the frames of callees, that a node has added to the
stacks when it goes on in a phase. -/
def held (s : Setting) : Expr → Nat → Option (Nat × Nat)
  | .call _ _, 0 => some (0, 0)
  | .call callee args, phase =>
    match resolve s callee args with
    | .ok i =>
      if phase ≤ i.callee.arity then some (i.callee.scalarsBefore phase, 0)
      else if phase = i.callee.arity + 1 then some (1, 1)
      else none
    | .error _ => none
  | node, phase => (heldValues node)[phase]?.map (·, 0)

/-- Nothing is held on entry. -/
theorem held_zero (node : Expr) : held s node 0 = some (0, 0) := by
  cases node with
  | assign target value => cases target <;> rfl
  | step op target => cases target <;> rfl
  | _ => rfl

/-- While its arguments are evaluated, a call holds the values of the
scalars so far. -/
theorem held_call {callee : NameId} {args : Span} {i : Invocation} {phase : Nat}
    (h : resolve s callee args = .ok i) (hphase : phase ≤ i.callee.arity) :
    held s (.call callee args) phase = some (i.callee.scalarsBefore phase, 0) := by
  cases phase with
  | zero => rfl
  | succ phase => simp only [held, h, if_pos hphase]

/-- In its last phase a call holds the value of the body and the callee's
frame. -/
theorem held_body {callee : NameId} {args : Span} {i : Invocation}
    (h : resolve s callee args = .ok i) :
    held s (.call callee args) (i.callee.arity + 1) = some (1, 1) := by
  simp only [held, h, if_neg (Nat.not_succ_le_self _), if_pos]

-- ======================================================== a step of a node

/-- The same calls in progress, up to the variables of the latest. -/
def SameBelow (F F' : List Activation) : Prop :=
  F'.length = F.length ∧ F'.tail = F.tail

theorem SameBelow.refl (F : List Activation) : SameBelow F F := ⟨rfl, rfl⟩

/-- Accesses one behind the other change no more than the latest frame. -/
theorem SameBelow.trans {F F' F'' : List Activation} (h : SameBelow F F')
    (h' : SameBelow F' F'') : SameBelow F F'' :=
  ⟨h'.1.trans h.1, h'.2.trans h.2⟩

/-- What a step of a node leads to, if the node lies on pending entries
`C`, values `D` and frames `F`. -/
inductive Turn (s : Setting) (node : Expr) (id : ExprId) (C : List Pending) (D : Values)
    (F : List Activation) : Machine → Prop where
  | descends {child : ExprId} {resume : Nat} {agenda : Agenda} (vs : Values)
      (fs : List Activation) {F' : List Activation} :
      agenda.entries = ⟨resume, .expr id⟩ :: C →
      held s node resume = some (vs.length + 1, fs.length) → SameBelow F F' →
      Turn s node id C D F ⟨.expr child, 0, agenda, vs ++ D, fs ++ F'⟩
  | completes {p : Pending} {agenda : Agenda} {v : Float} {F' : List Activation} :
      C = p :: agenda.entries → SameBelow F F' →
      Turn s node id C D F ⟨p.task, p.phase, agenda, v :: D, F'⟩

section Turns

variable {node : Expr} {id : ExprId} {phase : Nat} {agenda : Agenda} {D vs : Values}
  {F F' fs : List Activation} {m' : Machine} {stored : Option Store}

/-- Starting on a child is a turn if what is held now, with the child's
value on it, is what the phase to go on in holds. -/
theorem Turn.of_descend (vs : Values) (fs : List Activation) {resume : Nat} {child : ExprId}
    (h : Machine.descend ⟨.expr id, phase, agenda, vs ++ D, fs ++ F'⟩ resume child = .ok m')
    (hheld : held s node resume = some (vs.length + 1, fs.length))
    (hsame : SameBelow F F') : Turn s node id agenda.entries D F m' := by
  obtain ⟨agenda', hentries, rfl⟩ := descend_inv h
  exact .descends vs fs hentries hheld hsame

/-- Completing with a value in place is a turn. -/
theorem Turn.of_complete {v : Float}
    (h : Machine.complete ⟨.expr id, phase, agenda, v :: D, F'⟩ = .ok m')
    (hsame : SameBelow F F') : Turn s node id agenda.entries D F m' := by
  obtain ⟨p, agenda', hentries, rfl⟩ := complete_inv h
  exact .completes hentries hsame

/-- If nothing is held there is nothing on top. This and the next three take
the stacks apart by the number of what is held. -/
theorem none_held (h : some (0, 0) = some (vs.length, fs.length)) : vs = [] ∧ fs = [] := by
  simp only [Option.some.injEq, Prod.mk.injEq] at h
  exact ⟨List.length_eq_zero_iff.mp h.1.symm, List.length_eq_zero_iff.mp h.2.symm⟩

/-- One value and no frame. -/
theorem one_held (h : some (1, 0) = some (vs.length, fs.length)) :
    ∃ v, vs = [v] ∧ fs = [] := by
  simp only [Option.some.injEq, Prod.mk.injEq] at h
  obtain ⟨v, rfl⟩ := List.length_eq_one_iff.mp h.1.symm
  exact ⟨v, rfl, List.length_eq_zero_iff.mp h.2.symm⟩

/-- Two values and no frame. -/
theorem two_held (h : some (2, 0) = some (vs.length, fs.length)) :
    ∃ v w, vs = [v, w] ∧ fs = [] := by
  simp only [Option.some.injEq, Prod.mk.injEq] at h
  obtain ⟨hvs, hfs⟩ := h
  rcases vs with _ | ⟨v, _ | ⟨w, _ | ⟨x, vs⟩⟩⟩
  · cases hvs
  · cases hvs
  · exact ⟨v, w, rfl, List.length_eq_zero_iff.mp hfs.symm⟩
  · cases hvs

/-- The value of a body and the frame of its call. -/
theorem body_held (h : some (1, 1) = some (vs.length, fs.length)) :
    ∃ v top, vs = [v] ∧ fs = [top] := by
  simp only [Option.some.injEq, Prod.mk.injEq] at h
  obtain ⟨v, rfl⟩ := List.length_eq_one_iff.mp h.1.symm
  obtain ⟨top, rfl⟩ := List.length_eq_one_iff.mp h.2.symm
  exact ⟨v, top, rfl, rfl⟩

/-- What is to be shown of a node of each kind. -/
def Turns (s : Setting) (node : Expr) : Prop :=
  ∀ {id : ExprId} {phase : Nat} {agenda : Agenda} {D vs : Values} {F fs : List Activation}
    {m' : Machine} {stored : Option Store},
    held s node phase = some (vs.length, fs.length) →
    Machine.stepNode s ⟨.expr id, phase, agenda, vs ++ D, fs ++ F⟩ node
      = .ok (.running m' stored) →
    Turn s node id agenda.entries D F m'

/-- An access to the latest frame leaves those below it alone. -/
theorem access_inv {α : Type} {task : Task} {act : Frame → Except Cause (α × Frame)} {a : α}
    (h : Machine.access ⟨task, phase, agenda, vs, F⟩ act = .ok (a, m')) :
    ∃ F', SameBelow F F' ∧ m' = ⟨task, phase, agenda, vs, F'⟩ := by
  obtain ⟨top, rest, vars, hF, -, rfl⟩ := access_eq_ok_iff.mp h
  have hF : F = top :: rest := hF
  exact ⟨{ top with vars } :: rest, by rw [hF]; exact ⟨rfl, rfl⟩, rfl⟩

/-- A number completes at once. -/
theorem turns_number (v : Float) : Turns s (.number v) := by
  intro id phase agenda D vs F fs m' stored hheld hstep
  rcases phase with _ | phase
  · obtain ⟨rfl, rfl⟩ := none_held hheld
    exact .of_complete (quiet_inv hstep) (.refl F)
  · cases hheld

theorem turns_empty : Turns s .empty := by
  intro id phase agenda D vs F fs m' stored hheld hstep
  rcases phase with _ | phase
  · obtain ⟨rfl, rfl⟩ := none_held hheld
    exact .of_complete (quiet_inv hstep) (.refl F)
  · cases hheld

/-- A variable completes at once, if it can be read. -/
theorem turns_var (var : VarId) : Turns s (.var var) := by
  intro id phase agenda D vs F fs m' stored hheld hstep
  rcases phase with _ | phase
  · obtain ⟨rfl, rfl⟩ := none_held hheld
    unfold stepNode at hstep
    rw [bind_eq_ok] at hstep
    obtain ⟨vars, -, hstep⟩ := hstep
    rw [bind_eq_ok] at hstep
    obtain ⟨v, -, hstep⟩ := hstep
    exact .of_complete (quiet_inv hstep) (.refl F)
  · cases hheld

/-- One child, whose value is replaced by the result. -/
theorem turns_unary (op : UnaryOp) (operand : ExprId) : Turns s (.unary op operand) := by
  intro id phase agenda D vs F fs m' stored hheld hstep
  rcases phase with _ | _ | phase
  · obtain ⟨rfl, rfl⟩ := none_held hheld
    exact .of_descend [] [] (quiet_inv hstep) rfl (.refl F)
  · obtain ⟨v, rfl, rfl⟩ := one_held hheld
    exact .of_complete (quiet_inv hstep) (.refl F)
  · cases hheld

/-- The right operand is held while the left one is evaluated. -/
theorem turns_binary (op : BinaryOp) (left right : ExprId) : Turns s (.binary op left right) := by
  intro id phase agenda D vs F fs m' stored hheld hstep
  rcases phase with _ | _ | _ | phase
  · obtain ⟨rfl, rfl⟩ := none_held hheld
    exact .of_descend [] [] (quiet_inv hstep) rfl (.refl F)
  · obtain ⟨r, rfl, rfl⟩ := one_held hheld
    exact .of_descend [r] [] (quiet_inv hstep) rfl (.refl F)
  · obtain ⟨l, r, rfl, rfl⟩ := two_held hheld
    have hlast : (op.eval l r >>= fun v =>
        Machine.produce ⟨.expr id, 2, agenda, D, F⟩ v >>= fun m => pure (Progress.quiet m))
        = .ok (.running m' stored) := hstep
    rw [bind_eq_ok] at hlast
    obtain ⟨v, -, hlast⟩ := hlast
    exact .of_complete (quiet_inv hlast) (.refl F)
  · cases hheld

/-- An access to the latest frame, and then completion with a store. -/
theorem Turn.of_store {act : Frame → Except Cause (Store × Frame)} {v : Float}
    (h : (Machine.access ⟨.expr id, phase, agenda, v :: D, F⟩ act >>= fun (store, m) =>
      m.complete >>= fun m => pure (Progress.storing store m)) = .ok (.running m' stored)) :
    Turn s node id agenda.entries D F m' := by
  rw [bind_eq_ok] at h
  obtain ⟨⟨store, m⟩, haccess, hlast⟩ := h
  obtain ⟨F', hsame, rfl⟩ := access_inv haccess
  exact .of_complete (storing_inv hlast) hsame

/-- The assigned value is held while the index is evaluated, and is the
value of the node in the end. -/
theorem turns_assign (target : Place) (value : ExprId) : Turns s (.assign target value) := by
  intro id phase agenda D vs F fs m' stored hheld hstep
  cases target with
  | scalar var =>
      rcases phase with _ | _ | phase
      · obtain ⟨rfl, rfl⟩ := none_held hheld
        exact .of_descend [] [] (quiet_inv hstep) rfl (.refl F)
      · obtain ⟨assigned, rfl, rfl⟩ := one_held hheld
        exact .of_store hstep
      · cases hheld
  | element array index =>
      rcases phase with _ | _ | _ | phase
      · obtain ⟨rfl, rfl⟩ := none_held hheld
        exact .of_descend [] [] (quiet_inv hstep) rfl (.refl F)
      · obtain ⟨assigned, rfl, rfl⟩ := one_held hheld
        exact .of_descend [assigned] [] (quiet_inv hstep) rfl (.refl F)
      · obtain ⟨i, assigned, rfl, rfl⟩ := two_held hheld
        have hrest : (s.program.cell array i >>= fun cell =>
            Machine.access ⟨.expr id, 2, agenda, assigned :: D, F⟩ (·.storeCell cell assigned)
              >>= fun (store, m) => m.complete >>= fun m => pure (Progress.storing store m))
            = .ok (.running m' stored) := hstep
        rw [bind_eq_ok] at hrest
        obtain ⟨cell, -, hrest⟩ := hrest
        exact .of_store hrest
      · cases hheld

/-- One child, the index. -/
theorem turns_index (array : VarId) (index : ExprId) : Turns s (.index array index) := by
  intro id phase agenda D vs F fs m' stored hheld hstep
  rcases phase with _ | _ | phase
  · obtain ⟨rfl, rfl⟩ := none_held hheld
    exact .of_descend [] [] (quiet_inv hstep) rfl (.refl F)
  · obtain ⟨i, rfl, rfl⟩ := one_held hheld
    have hrest : (s.program.cell array i >>= fun cell =>
        Machine.access ⟨.expr id, 1, agenda, D, F⟩ (·.readCell cell) >>= fun read =>
          read.2.produce read.1 >>= fun m => pure (Progress.quiet m))
        = .ok (.running m' stored) := hstep
    rw [bind_eq_ok] at hrest
    obtain ⟨cell, -, hrest⟩ := hrest
    rw [bind_eq_ok] at hrest
    obtain ⟨⟨v, m⟩, haccess, hlast⟩ := hrest
    obtain ⟨F', hsame, rfl⟩ := access_inv haccess
    exact .of_complete (quiet_inv hlast) hsame
  · cases hheld

/-- An increment of a scalar completes at once; that of an element has the
index as its child. -/
theorem turns_step (op : StepOp) (target : Place) : Turns s (.step op target) := by
  intro id phase agenda D vs F fs m' stored hheld hstep
  cases target with
  | scalar var =>
      rcases phase with _ | phase
      · obtain ⟨rfl, rfl⟩ := none_held hheld
        have hrest : (Machine.vars ⟨.expr id, 0, agenda, D, F⟩ >>= fun vars =>
            vars.readScalar s.program var >>= fun old =>
            Machine.access ⟨.expr id, 0, agenda, D, F⟩
              (·.storeScalar s.program var (old + op.delta)) >>= fun (store, m) =>
            m.produce (op.result old (old + op.delta)) >>= fun m =>
              pure (Progress.storing store m)) = .ok (.running m' stored) := hstep
        rw [bind_eq_ok] at hrest
        obtain ⟨vars, -, hrest⟩ := hrest
        rw [bind_eq_ok] at hrest
        obtain ⟨old, -, hrest⟩ := hrest
        rw [bind_eq_ok] at hrest
        obtain ⟨⟨store, m⟩, haccess, hlast⟩ := hrest
        obtain ⟨F', hsame, rfl⟩ := access_inv haccess
        exact .of_complete (storing_inv hlast) hsame
      · cases hheld
  | element array index =>
      rcases phase with _ | _ | phase
      · obtain ⟨rfl, rfl⟩ := none_held hheld
        exact .of_descend [] [] (quiet_inv hstep) rfl (.refl F)
      · obtain ⟨i, rfl, rfl⟩ := one_held hheld
        have hrest : (s.program.cell array i >>= fun cell =>
            Machine.access ⟨.expr id, 1, agenda, D, F⟩ (·.readCell cell) >>= fun read =>
            read.2.access (·.storeCell cell (read.1 + op.delta)) >>= fun (store, m) =>
            m.produce (op.result read.1 (read.1 + op.delta)) >>= fun m =>
              pure (Progress.storing store m)) = .ok (.running m' stored) := hstep
        rw [bind_eq_ok] at hrest
        obtain ⟨cell, -, hrest⟩ := hrest
        rw [bind_eq_ok] at hrest
        obtain ⟨⟨old, m⟩, hread, hrest⟩ := hrest
        obtain ⟨F', hsame, rfl⟩ := access_inv hread
        rw [bind_eq_ok] at hrest
        obtain ⟨⟨store, m⟩, hstore, hlast⟩ := hrest
        obtain ⟨F'', hsame', rfl⟩ := access_inv hstore
        exact .of_complete (storing_inv hlast) (hsame.trans hsame')
      · cases hheld

/-- Both kinds of choice hold the same and step alike. -/
theorem turns_choice {node : Expr} {cond thenArm elseArm : ExprId}
    (hvalues : ∀ phase, held s node phase = ([0, 1, 1][phase]?).map (·, 0))
    (hchoice : ∀ m : Machine, m.stepNode s node = m.stepChoice node cond thenArm elseArm) :
    Turns s node := by
  intro id phase agenda D vs F fs m' stored hheld hstep
  rw [hvalues] at hheld
  rw [hchoice] at hstep
  rcases phase with _ | _ | _ | phase
  · obtain ⟨rfl, rfl⟩ := none_held hheld
    exact .of_descend [] [] (quiet_inv hstep) (hvalues 1) (.refl F)
  · obtain ⟨c, rfl, rfl⟩ := one_held hheld
    exact .of_descend [] [] (quiet_inv hstep) (hvalues 2) (.refl F)
  · obtain ⟨v, rfl, rfl⟩ := one_held hheld
    exact .of_complete (quiet_inv hstep) (.refl F)
  · cases hheld

/-- The value of the first part is dropped before the second. -/
theorem turns_seq (first second : ExprId) : Turns s (.seq first second) := by
  intro id phase agenda D vs F fs m' stored hheld hstep
  rcases phase with _ | _ | _ | phase
  · obtain ⟨rfl, rfl⟩ := none_held hheld
    exact .of_descend [] [] (quiet_inv hstep) rfl (.refl F)
  · obtain ⟨v, rfl, rfl⟩ := one_held hheld
    exact .of_descend [] [] (quiet_inv hstep) rfl (.refl F)
  · obtain ⟨v, rfl, rfl⟩ := one_held hheld
    exact .of_complete (quiet_inv hstep) (.refl F)
  · cases hheld

/-- The value of the last round is held below that of the condition, zero
before the first round. -/
theorem turns_loop (cond body : ExprId) : Turns s (.loop cond body) := by
  intro id phase agenda D vs F fs m' stored hheld hstep
  rcases phase with _ | _ | _ | phase
  · obtain ⟨rfl, rfl⟩ := none_held hheld
    exact .of_descend [0.0] [] (quiet_inv hstep) rfl (.refl F)
  · obtain ⟨c, last, rfl, rfl⟩ := two_held hheld
    have hround : (if Arith.isZero c = true
        then (Machine.complete ⟨.expr id, 1, agenda, last :: D, F⟩ >>= fun m =>
          pure (Progress.quiet m))
        else (Machine.descend ⟨.expr id, 1, agenda, last :: D, F⟩ 2 body >>= fun m =>
          pure (Progress.quiet m))) = .ok (.running m' stored) := hstep
    by_cases hzero : Arith.isZero c = true
    · rw [if_pos hzero] at hround
      exact .of_complete (quiet_inv hround) (.refl F)
    · rw [if_neg hzero] at hround
      exact .of_descend [last] [] (quiet_inv hround) rfl (.refl F)
  · obtain ⟨v, last, rfl, rfl⟩ := two_held hheld
    exact .of_descend [v] [] (quiet_inv hstep) rfl (.refl F)
  · cases hheld

/-- Positions in front of parameters and arguments leave both as they
are. -/
theorem params_positions {α : Type} {params : List Param} {args : List α}
    (h : args.length = params.length) :
    ((params.zip args).mapIdx fun position pair => (position, pair)).map (fun entry => entry.2.1)
      = params := by
  conv => rhs; rw [← List.map_fst_zip (Nat.le_of_eq h.symm)]
  exact List.ext_getElem (by simp) (by simp)

/-- Arguments with their positions are the arguments, in order. -/
theorem args_positions {α : Type} {params : List Param} {args : List α}
    (h : args.length = params.length) :
    ((params.zip args).mapIdx fun position pair => (position, pair)).map (fun entry => entry.2.2)
      = args := by
  conv => rhs; rw [← List.map_snd_zip (Nat.le_of_eq h)]
  exact List.ext_getElem (by simp) (by simp)

/-- Parameters are bound from the last to the first. -/
theorem params_bindings {i : Invocation} (h : i.args.length = i.callee.arity) :
    (bindings i).map (fun entry => entry.2.1) = i.callee.params.reverse := by
  rw [bindings, List.map_reverse, params_positions h]

/-- Whichever way parameters are counted, the bindings have as many as the
callee. -/
theorem countP_bindings {i : Invocation} (h : i.args.length = i.callee.arity)
    (p : Param → Bool) :
    (bindings i).countP (fun entry => p entry.2.1) = i.callee.params.countP p :=
  calc (bindings i).countP (fun entry => p entry.2.1)
      = ((bindings i).map fun entry => entry.2.1).countP p := List.countP_map.symm
    _ = i.callee.params.countP p := by rw [params_bindings h, List.countP_reverse]

/-- Arguments pile up, and are taken off when the body is entered; then the
call holds its frame until it replaces the body's value by the result. -/
theorem turns_call (callee : NameId) (args : Span) : Turns s (.call callee args) := by
  intro id phase agenda D vs F fs m' stored hheld hstep
  unfold stepNode stepCall at hstep
  rw [bind_eq_ok] at hstep
  obtain ⟨i, hresolve, hstep⟩ := hstep
  have hlen := length_of_resolve hresolve
  by_cases hargs : phase ≤ i.callee.arity
  · -- arguments are evaluated, or all values of arguments are there
    rw [if_pos (Nat.lt_succ_of_le hargs)] at hstep
    rw [held_call hresolve hargs] at hheld
    simp only [Option.some.injEq, Prod.mk.injEq] at hheld
    obtain ⟨hvs, hfs⟩ := hheld
    obtain rfl := List.length_eq_zero_iff.mp hfs.symm
    cases hnext : i.callee.nextScalar? phase with
    | some position =>
        obtain ⟨hcount, hlt⟩ := Function.scalarsBefore_of_nextScalar? hnext
        simp only [hnext] at hstep
        cases harg : i.args[position]? with
        | none => rw [harg] at hstep; cases hstep
        | some arg =>
            rw [harg] at hstep
            refine .of_descend vs [] (quiet_inv hstep) ?_ (.refl F)
            rw [held_call hresolve hlt, hcount, hvs]
            rfl
    | none =>
        have hall := Function.scalarsBefore_of_nextScalar?_none hnext
        simp only [hnext] at hstep
        have hinvoke := quiet_inv hstep
        unfold invoke at hinvoke
        rw [bind_eq_ok] at hinvoke
        obtain ⟨caller, -, hinvoke⟩ := hinvoke
        rw [bind_eq_ok] at hinvoke
        obtain ⟨⟨vars, values⟩, hbind, henter⟩ := hinvoke
        obtain ⟨taken, hvalues, htaken⟩ := bind_inv hbind
        rw [countP_bindings hlen (fun param => !param.isArray), ← hall, hvs] at htaken
        obtain ⟨rfl, rfl⟩ := List.append_inj hvalues htaken.symm
        obtain ⟨agenda', hentries, rfl⟩ := enter_inv henter
        exact .descends [] [⟨i.callee, vars⟩] hentries
          (held_body hresolve) (.refl F)
  · rw [if_neg (fun hlt => hargs (Nat.le_of_lt_succ hlt))] at hstep
    by_cases hbody : phase = i.callee.arity + 1
    · -- the body has left its value, and the frame of the callee is there
      subst hbody
      rw [held_body hresolve] at hheld
      obtain ⟨v, top, rfl, rfl⟩ := body_held hheld
      rw [if_pos rfl, bind_eq_ok] at hstep
      obtain ⟨⟨result, m⟩, hleave, hlast⟩ := hstep
      have hm : m = ⟨.expr id, i.callee.arity + 1, agenda, D, F⟩ := by
        simp only [leave, List.singleton_append] at hleave
        split at hleave
        · cases hleave
        · cases hleave
          rfl
      subst hm
      by_cases hentry : i.callee.name = s.entry
      · simp only [if_pos hentry] at hlast
        cases hlast
      · simp only [if_neg hentry] at hlast
        exact .of_complete (quiet_inv hlast) (.refl F)
    · rw [if_neg hbody] at hstep
      cases hstep

/-- A step of a node, of whichever kind, is a turn. -/
theorem turns (node : Expr) : Turns s node := by
  cases node with
  | number value => exact turns_number value
  | var var => exact turns_var var
  | empty => exact turns_empty
  | unary op operand => exact turns_unary op operand
  | binary op left right => exact turns_binary op left right
  | assign target value => exact turns_assign target value
  | index array index => exact turns_index array index
  | step op target => exact turns_step op target
  | ternary cond thenArm elseArm => exact turns_choice (fun _ => rfl) (fun _ => rfl)
  | branch cond thenArm elseArm => exact turns_choice (fun _ => rfl) (fun _ => rfl)
  | seq first second => exact turns_seq first second
  | loop cond body => exact turns_loop cond body
  | call callee args => exact turns_call callee args

end Turns

end Machine

end ExprGraph
