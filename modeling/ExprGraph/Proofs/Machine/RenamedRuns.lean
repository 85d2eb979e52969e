/-
Runs of programs of one shape.

A program that mirrors another makes the same run, through the images of
its states (`run_rename`). The numbers of nodes are in what is worked on,
in what waits and in the functions in progress, and nowhere else; no move
looks at them, and a step follows them only to a node, whose image is the
node at the image. So each move of the machine gives the image of what it
gave, from the image of what it had.

# Which nodes

Only nodes that are used have images. A state at work is at such a node,
because its trail leads there (`OnTrail.used`).
-/
import ExprGraph.Proofs.Machine.Trail
import ExprGraph.Proofs.Renaming

namespace ExprGraph

variable (φ : ExprId → ExprId)

-- ================================================================== images

/-- The task at the image of its node. -/
def Task.rename : Task → Task
  | .entry => .entry
  | .expr id => .expr (φ id)

/-- What waits, with the image of its node. -/
def Pending.rename (p : Pending) : Pending :=
  { p with task := p.task.rename φ }

/-- The tasks that wait, with the images of their nodes. As many wait, so
limits are met alike. -/
def Agenda.rename (a : Agenda) : Agenda :=
  ⟨a.limit, a.entries.map (Pending.rename φ), a.depth, by rw [List.length_map, a.depth_eq]⟩

/-- A call in progress, of the image of its function. -/
def Activation.rename (call : Activation) : Activation :=
  { call with function := call.function.rename φ }

/-- The state with the images of nodes. -/
def Machine.rename (m : Machine) : Machine where
  task := m.task.rename φ
  phase := m.phase
  agenda := m.agenda.rename φ
  values := m.values
  frames := m.frames.map (Activation.rename φ)

/-- What a step leads to, with the images of nodes. -/
def Progress.rename : Progress → Progress
  | .running m stored => .running (m.rename φ) stored
  | .finished value => .finished value

/-- What a run came to, with the image of the node at fault. -/
def Outcome.rename (o : Outcome) : Outcome :=
  { o with result := o.result.mapError fun fault =>
      { fault with site := { fault.site with expr := fault.site.expr.map φ } } }

section Except

variable {ε α α' β β' : Type} {x : Except ε α}

/-- Images of what comes first, and of what comes of it. -/
theorem map_bind {r : α → α'} {t : β → β'} {f : α → Except ε β} {g : α' → Except ε β'}
    (h : ∀ a, g (r a) = (f a).map t) : (x.map r >>= g) = (x >>= f).map t := by
  cases x with
  | error e => rfl
  | ok a => exact h a

/-- The same computation first, and images of what comes of it. -/
theorem bind_map {t : β → β'} {f : α → Except ε β} {g : α → Except ε β'}
    (h : ∀ a, g a = (f a).map t) : (x >>= g) = (x >>= f).map t := by
  cases x with
  | error e => rfl
  | ok a => exact h a

end Except

namespace Machine

open Program

variable {φ}

-- =================================================================== moves

/-- Pushing looks at how many wait, not at what. -/
theorem push_rename (a : Agenda) (p : Pending) :
    (a.rename φ).push (p.rename φ) = (a.push p).map (Agenda.rename φ) := by
  unfold Agenda.push
  show (if a.hasRoom then _ else _) = _
  split <;> rfl

/-- The machine starts on the image of the child. -/
theorem descend_rename (m : Machine) (resume : Nat) (child : ExprId) :
    (m.rename φ).descend resume (φ child) = (m.descend resume child).map (rename φ) := by
  have hpush := push_rename (φ := φ) m.agenda ⟨resume, m.task⟩
  exact (congrArg (· >>= _) hpush).trans (map_bind fun _ => rfl)

/-- The machine starts on the body of the image, which is the image of the
body. -/
theorem enter_rename (m : Machine) (f : Function) (vars : Frame) (resume : Nat) :
    (m.rename φ).enter (f.rename φ) vars resume = (m.enter f vars resume).map (rename φ) := by
  have hpush := push_rename (φ := φ) m.agenda ⟨resume, m.task⟩
  exact (congrArg (· >>= _) hpush).trans (map_bind fun _ => rfl)

/-- The image of the latest task that waits is the latest that waits. -/
theorem complete_rename (m : Machine) : (m.rename φ).complete = m.complete.map (rename φ) := by
  obtain ⟨task, phase, ⟨limit, entries, depth, hdepth⟩, values, frames⟩ := m
  cases entries <;> rfl

/-- Values have no nodes in them. -/
theorem pop_rename (m : Machine) :
    (m.rename φ).pop = m.pop.map fun (value, m) => (value, m.rename φ) := by
  obtain ⟨task, phase, agenda, values, frames⟩ := m
  cases values <;> rfl

/-- Neither have the variables of a call. -/
theorem vars_rename (m : Machine) : (m.rename φ).vars = m.vars := by
  obtain ⟨task, phase, agenda, values, frames⟩ := m
  cases frames <;> rfl

/-- An access has the same variables before it. -/
theorem access_rename {α : Type} (m : Machine) (act : Frame → Except Cause (α × Frame)) :
    (m.rename φ).access act = (m.access act).map fun (a, m) => (a, m.rename φ) := by
  obtain ⟨task, phase, agenda, values, frames⟩ := m
  cases frames with
  | nil => rfl
  | cons top frames => exact bind_map fun _ => rfl

-- ================================================================= two steps

/-- The one computation comes to the image of what the other comes to. -/
def Images (φ : ExprId → ExprId) (x' x : Except Cause Progress) : Prop :=
  x' = x.map (Progress.rename φ)

namespace Images

variable {α α' : Type} {m : Machine}

theorem error (cause : Cause) : Images φ (.error cause) (.error cause) := rfl

/-- What both do first is the same. -/
theorem bind {x x' : Except Cause α} {f g : α → Except Cause Progress} (hx : x' = x)
    (h : ∀ a, Images φ (g a) (f a)) : Images φ (x' >>= g) (x >>= f) :=
  hx ▸ bind_map h

/-- Both take the same value off, and go on in images. -/
theorem pop {f g : Float × Machine → Except Cause Progress}
    (h : ∀ value m, Images φ (g (value, m.rename φ)) (f (value, m))) :
    Images φ ((m.rename φ).pop >>= g) (m.pop >>= f) :=
  pop_rename m ▸ map_bind fun (value, m) => h value m

/-- Both make the same access, and go on in images. -/
theorem access {act act' : Frame → Except Cause (α × Frame)}
    {f g : α × Machine → Except Cause Progress} (hact : act' = act)
    (h : ∀ a m, Images φ (g (a, m.rename φ)) (f (a, m))) :
    Images φ ((m.rename φ).access act' >>= g) (m.access act >>= f) := by
  rw [hact, access_rename]
  exact map_bind fun (a, m) => h a m

/-- Starting on a child, as the last move of a step. -/
theorem descend (m : Machine) (resume : Nat) (child : ExprId) :
    Images φ ((m.rename φ).descend resume (φ child) >>= fun m => pure (Progress.quiet m))
      (m.descend resume child >>= fun m => pure (Progress.quiet m)) :=
  descend_rename m resume child ▸ map_bind fun _ => rfl

/-- Completing, as the last move of a step. -/
theorem complete (m : Machine) (stored : Option Store) :
    Images φ ((m.rename φ).complete >>= fun m => pure (Progress.running m stored))
      (m.complete >>= fun m => pure (Progress.running m stored)) :=
  complete_rename m ▸ map_bind fun _ => rfl

/-- Completing with a value, as the last move of a step. -/
theorem produce (m : Machine) (value : Float) (stored : Option Store) :
    Images φ ((m.rename φ).produce value >>= fun m => pure (Progress.running m stored))
      (m.produce value >>= fun m => pure (Progress.running m stored)) :=
  complete { m with values := value :: m.values } stored

end Images

-- ============================================================== look-ups

section Nodes

variable {p q : Program} {entry : String} (h : p.Mirrors q φ)

include h

/-- Programs that mirror each other have the same declarations. -/
theorem symbol_eq : q.symbol = p.symbol := by
  funext var
  rw [Program.symbol, Program.symbol, h.symbols]

/-- So an index addresses the same element. -/
theorem cell_eq (array : VarId) (index : Float) : q.cell array index = p.cell array index := by
  rw [Program.cell, Program.cell, symbol_eq h]

/-- And a scalar reads the same. -/
theorem readScalar_eq (f : Frame) (var : VarId) : f.readScalar q var = f.readScalar p var := by
  rw [Frame.readScalar, Frame.readScalar, symbol_eq h]

/-- And is stored with the same report. -/
theorem storeScalar_eq (var : VarId) (value : Float) :
    (fun f : Frame => f.storeScalar q var value) = fun f => f.storeScalar p var value := by
  funext f
  rw [Frame.storeScalar, Frame.storeScalar, symbol_eq h]

omit h

-- ================================================== nodes other than calls

variable (m : Machine)

/-- The child of the image is the image of the child; the operator is the
same. -/
theorem image_unary (op : UnaryOp) (operand : ExprId) :
    Images φ ((m.rename φ).stepUnary op (φ operand)) (m.stepUnary op operand) := by
  obtain ⟨task, phase, agenda, values, frames⟩ := m
  rcases phase with _ | _ | phase
  · exact .descend _ 1 operand
  · exact .pop fun value m => .produce m _ none
  · exact .error _

theorem image_binary (op : BinaryOp) (left right : ExprId) :
    Images φ ((m.rename φ).stepBinary op (φ left) (φ right)) (m.stepBinary op left right) := by
  obtain ⟨task, phase, agenda, values, frames⟩ := m
  rcases phase with _ | _ | _ | phase
  · exact .descend _ 1 right
  · exact .descend _ 2 left
  · refine .pop fun l m => .pop fun r m => ?_
    exact .bind rfl fun value => .produce m value none
  · exact .error _

/-- Both kinds of choice, by the words in which they report a bad phase. -/
theorem image_choice {node node' : Expr} (hnode : node'.describe = node.describe)
    (cond thenArm elseArm : ExprId) :
    Images φ ((m.rename φ).stepChoice node' (φ cond) (φ thenArm) (φ elseArm))
      (m.stepChoice node cond thenArm elseArm) := by
  obtain ⟨task, phase, agenda, values, frames⟩ := m
  rcases phase with _ | _ | _ | phase
  · exact .descend _ 1 cond
  · refine .pop fun value m => ?_
    dsimp only
    rw [← apply_ite φ]
    exact .descend m 2 _
  · exact .complete _ none
  · show Except.error (Cause.broken (.badPhase (phase + 3) node'.describe)) = _
    rw [hnode]
    rfl

theorem image_seq (first second : ExprId) :
    Images φ ((m.rename φ).stepSeq (φ first) (φ second)) (m.stepSeq first second) := by
  obtain ⟨task, phase, agenda, values, frames⟩ := m
  rcases phase with _ | _ | _ | phase
  · exact .descend _ 1 first
  · exact .pop fun value m => .descend m 2 second
  · exact .complete _ none
  · exact .error _

theorem image_loop (cond body : ExprId) :
    Images φ ((m.rename φ).stepLoop (φ cond) (φ body)) (m.stepLoop cond body) := by
  obtain ⟨task, phase, agenda, values, frames⟩ := m
  rcases phase with _ | _ | _ | phase
  · exact .descend ⟨task, 0, agenda, 0.0 :: values, frames⟩ 1 cond
  · refine .pop fun value m => ?_
    dsimp only
    split
    · exact .complete m none
    · exact .descend m 2 body
  · refine .pop fun value m => .pop fun last m => ?_
    exact .descend { m with values := value :: m.values } 1 cond
  · exact .error _

include h

/-- The target is the same variable, and its index node the image. -/
theorem image_assign (target : Place) (value : ExprId) :
    Images φ ((m.rename φ).stepAssign ⟨q, entry⟩ (target.rename φ) (φ value))
      (m.stepAssign ⟨p, entry⟩ target value) := by
  obtain ⟨task, phase, agenda, values, frames⟩ := m
  cases target with
  | scalar var =>
      rcases phase with _ | _ | _ | phase
      · exact .descend _ 1 value
      · refine .bind rfl fun assigned => .access (storeScalar_eq h var assigned) fun store m => ?_
        exact .complete m (some store)
      · exact .error _
      · exact .error _
  | element array index =>
      rcases phase with _ | _ | _ | phase
      · exact .descend _ 1 value
      · exact .descend _ 2 index
      · refine .pop fun i m => .bind rfl fun assigned => .bind (cell_eq h array i) fun cell => ?_
        exact .access rfl fun store m => .complete m (some store)
      · exact .error _

/-- The array is the same variable. -/
theorem image_index (array : VarId) (index : ExprId) :
    Images φ ((m.rename φ).stepIndex ⟨q, entry⟩ array (φ index))
      (m.stepIndex ⟨p, entry⟩ array index) := by
  obtain ⟨task, phase, agenda, values, frames⟩ := m
  rcases phase with _ | _ | phase
  · exact .descend _ 1 index
  · refine .pop fun i m => .bind (cell_eq h array i) fun cell => ?_
    exact .access rfl fun value m => .produce m value none
  · exact .error _

/-- The target is the same variable, and its index node the image. -/
theorem image_step (op : StepOp) (target : Place) :
    Images φ ((m.rename φ).stepStep ⟨q, entry⟩ op (target.rename φ))
      (m.stepStep ⟨p, entry⟩ op target) := by
  obtain ⟨task, phase, agenda, values, frames⟩ := m
  cases target with
  | scalar var =>
      rcases phase with _ | _ | phase
      · refine .bind (vars_rename _) fun vars => .bind (readScalar_eq h vars var) fun old => ?_
        exact .access (storeScalar_eq h var _) fun store m => .produce m _ (some store)
      · exact .error _
      · exact .error _
  | element array index =>
      rcases phase with _ | _ | phase
      · exact .descend _ 1 index
      · refine .pop fun i m => .bind (cell_eq h array i) fun cell => .access rfl fun old m => ?_
        exact .access rfl fun store m => .produce m _ (some store)
      · exact .error _

/-- A variable has no children. -/
theorem image_var (var : VarId) :
    Images φ ((m.rename φ).stepNode ⟨q, entry⟩ (.var var)) (m.stepNode ⟨p, entry⟩ (.var var)) := by
  refine .bind (vars_rename m) fun vars => .bind (readScalar_eq h vars var) fun value => ?_
  exact .produce m value none

-- =================================================================== calls

/-- A call, and the same call on the images of its arguments. -/
def Invocation.rename (φ : ExprId → ExprId) (i : Invocation) : Invocation :=
  ⟨i.name, i.callee.rename φ, i.args.map φ⟩

/-- A call resolves to the image of what it resolved to: the same text, the
image of the function, the images of the arguments. -/
theorem resolve_rename {id : ExprId} {callee callee' : NameId} {args args' : Span}
    (hused : p.Used id) (hnode : p.expr? id = some (.call callee args))
    (hresembles : p.Resembles q φ (.call callee args) (.call callee' args')) :
    resolve ⟨q, entry⟩ callee' args'
      = (resolve ⟨p, entry⟩ callee args).map (Invocation.rename φ) := by
  cases hresembles with
  | plain hcall => exact absurd rfl (hcall callee args)
  | @call _ _ _ _ name ids hname hname' hlist hlist' =>
      unfold resolve
      cases hfun : p.function? name with
      | none => simp only [hname, hname', hfun, h.undefined hused hnode hname hfun]; rfl
      | some f =>
          have harity : (f.rename φ).arity = f.arity := rfl
          simp only [hname, hname', hfun, h.function hfun, hlist, hlist', List.length_map, harity]
          by_cases hlen : ids.length = f.arity
          · by_cases hmax : f.arity ≤ maxArity
            · simp only [if_pos hlen, if_pos hmax]
              rfl
            · simp only [if_pos hlen, if_neg hmax]
              rfl
          · simp only [if_neg hlen]
            rfl

/-- The image of an argument that is a variable is that variable. -/
theorem arrayArgument_rename {arg : ExprId} (hused : p.Used arg) (caller : Frame) (f : Function)
    (position : Nat) (param : VarId) :
    arrayArgument ⟨q, entry⟩ caller (f.rename φ) position (φ arg) param
      = arrayArgument ⟨p, entry⟩ caller f position arg param := by
  obtain ⟨node, node', hnode, hnode', hresembles⟩ := h.node hused
  unfold arrayArgument
  simp only [hnode, hnode', h.symbols]
  cases hresembles with
  | plain hcall => cases node <;> rfl
  | call => rfl

/-- The same values are bound to the same parameters. -/
theorem bind_rename (caller : Frame) (f : Function) {entries : List (Nat × Param × ExprId)}
    (hused : ∀ entry ∈ entries, p.Used entry.2.2) :
    ∀ {vars : Frame} {values : Values},
      Machine.bind ⟨q, entry⟩ caller (f.rename φ)
          (entries.map fun (position, param, arg) => (position, param, φ arg)) vars values
        = Machine.bind ⟨p, entry⟩ caller f entries vars values := by
  induction entries with
  | nil => intro vars values; rfl
  | cons first entries ih =>
      intro vars values
      obtain ⟨position, param, arg⟩ := first
      obtain ⟨hfirst, hrest⟩ := List.forall_mem_cons.mp hused
      cases param with
      | scalar var =>
          cases values with
          | nil => rfl
          | cons value values => exact ih hrest
      | array var =>
          simp only [List.map_cons, Machine.bind, arrayArgument_rename h hfirst, ih hrest]

omit h in
/-- Parameters and positions stay, arguments are replaced by their
images. -/
theorem bindings_rename (i : Invocation) : bindings (i.rename φ)
    = (bindings i).map fun (position, param, arg) => (position, param, φ arg) := by
  rw [bindings, bindings, List.map_reverse]
  exact congrArg List.reverse (List.ext_getElem (by simp [Invocation.rename, Function.rename])
    (by simp [Invocation.rename, Function.rename]))

/-- The same frame is entered on the image of the body. -/
theorem invoke_rename {i : Invocation} (hused : ∀ arg ∈ i.args, p.Used arg) :
    (m.rename φ).invoke ⟨q, entry⟩ (i.rename φ) = (m.invoke ⟨p, entry⟩ i).map (rename φ) := by
  have hentries : ∀ entry ∈ bindings i, p.Used entry.2.2 := by
    intro entry hentry
    obtain ⟨position, hlt, rfl⟩ := List.mem_mapIdx.mp (List.mem_reverse.mp hentry)
    exact hused _ (List.of_mem_zip (List.getElem_mem hlt)).2
  unfold invoke
  rw [vars_rename, bindings_rename]
  refine bind_map fun caller => ?_
  have hbind : Machine.bind ⟨q, entry⟩ caller (i.callee.rename φ)
      ((bindings i).map fun (position, param, arg) => (position, param, φ arg)) {} m.values
        = Machine.bind ⟨p, entry⟩ caller i.callee (bindings i) {} m.values :=
    bind_rename h caller i.callee hentries
  show (Machine.bind ⟨q, entry⟩ caller (i.callee.rename φ) _ {} m.values >>= _) = _
  rw [hbind]
  exact bind_map fun (vars, values) => enter_rename { m with values } i.callee vars _

/-- The result is read off the same variables. -/
theorem leave_rename :
    (m.rename φ).leave ⟨q, entry⟩
      = (m.leave ⟨p, entry⟩).map fun (value, m) => (value, m.rename φ) := by
  obtain ⟨task, phase, agenda, values, frames⟩ := m
  cases frames with
  | nil => rfl
  | cons top frames =>
      have hnamed : (top.rename φ).vars.named? q.symbols resultName
          = top.vars.named? p.symbols resultName := by
        rw [h.symbols]
        rfl
      simp only [leave, rename, List.map_cons, hnamed]
      cases top.vars.named? p.symbols resultName with
      | none => rfl
      | some result =>
          have hpop := pop_rename (φ := φ) ⟨task, phase, agenda, values, frames⟩
          exact (congrArg (· >>= _) hpop).trans (map_bind fun _ => rfl)

/-- The end of a call. -/
theorem image_return (i : Invocation) :
    Images φ (do
        let (result, m) ← (m.rename φ).leave ⟨q, entry⟩
        if (i.rename φ).callee.name = entry then return .finished result
          else return .quiet (← m.produce result))
      (do
        let (result, m) ← m.leave ⟨p, entry⟩
        if i.callee.name = entry then return .finished result
          else return .quiet (← m.produce result)) := by
  rw [leave_rename h m]
  refine map_bind fun left => ?_
  obtain ⟨result, m⟩ := left
  have hname : (i.rename φ).callee.name = i.callee.name := rfl
  dsimp only
  rw [hname]
  split
  · rfl
  · exact Images.produce m result none

/-- A call of the image goes through the same phases, for the image has as
many parameters. -/
theorem image_call {id : ExprId} {callee callee' : NameId} {args args' : Span} (hused : p.Used id)
    (hnode : p.expr? id = some (.call callee args))
    (hresembles : p.Resembles q φ (.call callee args) (.call callee' args')) :
    Images φ ((m.rename φ).stepCall ⟨q, entry⟩ callee' args')
      (m.stepCall ⟨p, entry⟩ callee args) := by
  unfold stepCall
  rw [resolve_rename h hused hnode hresembles]
  cases hresolve : resolve ⟨p, entry⟩ callee args with
  | error cause => rfl
  | ok i =>
      have hargs : ∀ arg ∈ i.args, p.Used arg := fun arg harg =>
        hused.child (Invokes.isChild ⟨callee, args, hnode, hresolve⟩ harg)
      have harity : (i.rename φ).callee.arity = i.callee.arity := rfl
      have hnext : (i.rename φ).callee.nextScalar? = i.callee.nextScalar? := rfl
      have hphases : (m.rename φ).phase = m.phase := rfl
      simp only [Except.map, ok_bind, harity, hnext, hphases]
      by_cases hphase : m.phase < i.callee.arity + 1
      · rw [if_pos hphase, if_pos hphase]
        cases i.callee.nextScalar? m.phase with
        | none => exact (congrArg (· >>= _) (invoke_rename h m hargs)).trans (map_bind fun _ => rfl)
        | some position =>
            have harg : (i.rename φ).args[position]? = i.args[position]?.map φ := List.getElem?_map
            dsimp only
            rw [harg]
            cases i.args[position]? with
            | none => rfl
            | some arg => exact .descend m (position + 1) arg
      · rw [if_neg hphase, if_neg hphase]
        by_cases hbody : m.phase = i.callee.arity + 1
        · rw [if_pos hbody, if_pos hbody]
          exact image_return h m i
        · rw [if_neg hbody, if_neg hbody]
          rfl

-- ================================================================== a step

/-- A node that is used steps like its image. -/
theorem image_node {id : ExprId} {node node' : Expr} (hused : p.Used id)
    (hnode : p.expr? id = some node) (hresembles : p.Resembles q φ node node') :
    Images φ ((m.rename φ).stepNode ⟨q, entry⟩ node') (m.stepNode ⟨p, entry⟩ node) := by
  cases hresembles with
  | call hname hname' hlist hlist' =>
      exact image_call h m hused hnode (.call hname hname' hlist hlist')
  | plain hcall =>
      cases node with
      | number value => exact .produce m value none
      | var var => exact image_var h m var
      | empty => exact .produce m _ none
      | unary op operand => exact image_unary m op operand
      | binary op left right => exact image_binary m op left right
      | assign target value => exact image_assign h m target value
      | index array index => exact image_index h m array index
      | step op target => exact image_step h m op target
      | ternary cond thenArm elseArm => exact image_choice m rfl cond thenArm elseArm
      | branch cond thenArm elseArm => exact image_choice m rfl cond thenArm elseArm
      | seq first second => exact image_seq m first second
      | loop cond body => exact image_loop m cond body
      | call callee args => exact absurd rfl (hcall callee args)

/-- The return of the run has no node in it. -/
theorem image_entry : Images φ ((m.rename φ).stepEntry ⟨q, entry⟩) (m.stepEntry ⟨p, entry⟩) := by
  show Images φ (if m.phase = 1 then _ else _) (if m.phase = 1 then _ else _)
  split
  · rw [leave_rename h m]
    exact map_bind fun _ => rfl
  · rfl

/-- A step from the image of a state is the image of the step. -/
theorem step_rename (hused : ∀ id, m.task = .expr id → p.Used id) :
    (m.rename φ).step ⟨q, entry⟩ = (m.step ⟨p, entry⟩).map (Progress.rename φ) := by
  cases htask : m.task with
  | entry =>
      have htask' : (m.rename φ).task = .entry := congrArg (Task.rename φ) htask
      unfold Machine.step
      simp only [htask, htask']
      exact image_entry h m
  | expr id =>
      have htask' : (m.rename φ).task = .expr (φ id) := congrArg (Task.rename φ) htask
      obtain ⟨node, node', hnode, hnode', hresembles⟩ := h.node (hused id htask)
      unfold Machine.step
      simp only [htask, htask', hnode, hnode']
      exact image_node h m (hused id htask) hnode hresembles

end Nodes

-- ==================================================================== runs

variable {p q : Program} {entry : String} {f : Function} {m : Machine}

/-- The node a state on a trail is at is used. -/
theorem OnTrail.used {name : String} (hfound : p.function? name = some f)
    (h : OnTrail ⟨p, entry⟩ f m) : ∀ id, m.task = .expr id → p.Used id := by
  intro id htask
  have hused : ∀ {F C}, Trail ⟨p, entry⟩ f F C id → p.Used id := by
    intro F C htrail
    obtain ⟨g, -, key, -, hkey, hreach⟩ := htrail.top hfound
    exact ⟨key, g, hkey, hreach⟩
  cases h with
  | node htask' _ htrail =>
      cases htask.symm.trans htask'
      exact hused htrail
  | completed htask' _ _ _ htrail =>
      cases htask.symm.trans htask'
      exact hused htrail
  | ended htask' => cases htask.symm.trans htask'

/-- The function at fault keeps its name, the node is replaced by its
image. -/
theorem site_rename (m : Machine) :
    (m.rename φ).site = { m.site with expr := m.site.expr.map φ } := by
  obtain ⟨task, phase, agenda, values, frames⟩ := m
  cases task <;> cases frames <;> rfl

/-- A run from the image of a state is the image of the run. -/
theorem run_rename (h : p.Mirrors q φ) {name : String} (hfound : p.function? name = some f)
    (steps : Nat) : ∀ (m : Machine) (stores : List Store), OnTrail ⟨p, entry⟩ f m →
      (m.rename φ).run ⟨q, entry⟩ steps stores
        = (m.run ⟨p, entry⟩ steps stores).map (Outcome.rename φ) := by
  induction steps with
  | zero => intro m stores _; rfl
  | succ steps ih =>
      intro m stores htrail
      have hstep : (m.rename φ).step ⟨q, entry⟩ = (m.step ⟨p, entry⟩).map (Progress.rename φ) :=
        step_rename h m (htrail.used hfound)
      cases hres : m.step ⟨p, entry⟩ with
      | error cause =>
          rw [hres] at hstep
          rw [run_of_error hres, run_of_error hstep, site_rename]
          rfl
      | ok progress =>
          rw [hres] at hstep
          cases progress with
          | finished value => rw [run_of_finished hres, run_of_finished hstep]; rfl
          | running m₁ stored =>
              rw [run_of_running hres, run_of_running hstep]
              exact ih m₁ _ (htrail.step hres)

end Machine

namespace Interpreter

open Machine

variable {φ} {p q : Program}

/-- The host binds the same arguments alike. -/
theorem bindAll_rename (symbols : Symbols) (f : Function)
    (entries : List (Nat × Param × Argument)) (vars : Frame) :
    bindAll symbols (f.rename φ) entries vars = bindAll symbols f entries vars := by
  induction entries generalizing vars with
  | nil => rfl
  | cons entry entries ih =>
      obtain ⟨position, param, arg⟩ := entry
      cases param <;> cases arg <;> simp only [bindAll, ih] <;> rfl

/-- The host's arguments are bound alike. -/
theorem bindArguments_rename (h : p.Mirrors q φ) (entry : String) (limit : Option Nat)
    (f : Function) (args : List Argument) :
    (⟨q, entry, limit⟩ : Interpreter).bindArguments (f.rename φ) args
      = (⟨p, entry, limit⟩ : Interpreter).bindArguments f args := by
  unfold bindArguments
  simp only [h.symbols, bindAll_rename]
  rfl

/-- A call by the host comes to the image of what it comes to. -/
theorem execute_rename (h : p.Mirrors q φ) {name : String} {f : Function}
    (hfound : p.function? name = some f) (entry : String) (limit : Option Nat) (steps : Nat)
    (args : List Argument) :
    (⟨q, entry, limit⟩ : Interpreter).execute steps name args
      = ((⟨p, entry, limit⟩ : Interpreter).execute steps name args).map (Outcome.rename φ) := by
  unfold execute
  simp only [hfound, h.function hfound, bindArguments_rename h]
  cases hbound : (⟨p, entry, limit⟩ : Interpreter).bindArguments f args with
  | error cause => rfl
  | ok vars =>
      have hstart : Machine.start limit (f.rename φ) vars
          = (Machine.start limit f vars).map (Machine.rename φ) :=
        enter_rename { task := .entry, phase := 0, agenda := { limit } } f vars 1
      dsimp only
      rw [hstart]
      cases hm : Machine.start limit f vars with
      | error cause => rfl
      | ok m =>
          have htrail : OnTrail ⟨p, entry⟩ f m :=
            Starts.onTrail (i := ⟨p, entry, limit⟩) ⟨hfound, hbound, hm⟩
          exact run_rename h hfound steps m [] htrail

end Interpreter

end ExprGraph
