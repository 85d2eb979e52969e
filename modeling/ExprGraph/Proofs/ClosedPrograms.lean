/-
Programs whose references all lead somewhere.

Of a closed program every node comes behind its children, the variables it
mentions are declared, and the texts and lists of its calls exist
(`Program.Closed`). Nothing can go wrong with following a reference then,
in either engine.

For the machine this is a matter of where a run can be. A breach comes of
a reference that dangles, and the node at work is on a trail through the
graph, so it exists. An undeclared variable is met by the node that
mentions it, or by a parameter, in the same step (`avoids_stepNode`).

For the other engine it is a matter of what lowering can refuse: a misfit
below the body, and there is no cycle to be met.
-/
import ExprGraph.Proofs.Machine.Sites
import ExprGraph.Proofs.SSA.Acceptance
import ExprGraph.Proofs.SSA.LoweredExecution

namespace ExprGraph

-- ================================================================ programs

/-- All references lead somewhere, and those to nodes lead to nodes of
lower numbers. -/
structure Program.Closed (p : Program) : Prop where
  down : ∀ {child parent : ExprId}, p.IsChild child parent → child.index < parent.index
  mentioned : ∀ {id : ExprId} {node : Expr} {var : VarId}, p.expr? id = some node →
    node.mentioned? = some var → p.symbols.Has var
  named : ∀ {id : ExprId} {callee : NameId} {args : Span},
    p.expr? id = some (.call callee args) → ∃ name, p.names.text? callee = some name
  listed : ∀ {id : ExprId} {callee : NameId} {args : Span},
    p.expr? id = some (.call callee args) → ∃ ids, p.arena.list? args = some ids
  bodies : ∀ {name : String} {f : Function}, p.function? name = some f →
    ∃ node, p.expr? f.body = some node
  params : ∀ {name : String} {f : Function}, p.function? name = some f →
    ∀ param ∈ f.params, p.symbols.Has param.var

namespace Program

variable {p : Program} {root id : ExprId} {path : List ExprId}

/-- Every node is there up to the last. -/
theorem exists_of_index_le {node : Expr} (h : p.expr? root = some node)
    (hle : id.index ≤ root.index) : ∃ node, p.expr? id = some node := by
  have hlt : root.index < p.arena.size := (Array.getElem?_eq_some_iff.mp h).1
  exact ⟨_, Array.getElem?_eq_getElem (Nat.lt_of_le_of_lt hle hlt)⟩

/-- Paths go down. -/
theorem Closed.path_le (h : p.Closed) (hpath : p.Path root path id) :
    id.index + path.length ≤ root.index := by
  induction hpath with
  | refl => simp
  | down hchild _ ih =>
      have hlt := h.down hchild
      rw [List.length_cons]
      omega

/-- In a closed program there is no way back up. -/
theorem Closed.acyclic (h : p.Closed) (root : ExprId) : p.Acyclic root := by
  have hheight : p.HeightAtMost root root.index := by
    intro path id hpath
    have hle := h.path_le hpath
    omega
  exact hheight.acyclic

/-- What is below a node that exists exists. -/
theorem Closed.exists_of_reachable (h : p.Closed) {node : Expr} (hroot : p.expr? root = some node)
    (hreach : p.Reachable root id) : ∃ node, p.expr? id = some node := by
  obtain ⟨path, hpath⟩ := hreach
  have hle := h.path_le hpath
  exact exists_of_index_le hroot (by omega)

end Program

-- ====================================================== undeclared variables

namespace Machine

variable {s : Setting} {m : Machine}

theorem avoids_stepUnary (op : UnaryOp) (operand : ExprId) :
    Avoids .undeclared (m.stepUnary op operand) := by
  unfold stepUnary
  split
  · exact .map (avoids_descend nofun)
  · exact .bind (avoids_pop nofun) fun _ _ => .map (avoids_produce nofun)
  · exact avoids_breach nofun

theorem avoids_stepBinary (op : BinaryOp) (left right : ExprId) :
    Avoids .undeclared (m.stepBinary op left right) := by
  unfold stepBinary
  split
  · exact .map (avoids_descend nofun)
  · exact .map (avoids_descend nofun)
  · refine .bind (avoids_pop nofun) fun _ _ => .bind (avoids_pop nofun) fun _ _ => ?_
    exact .bind (avoids_eval op _ _) fun _ _ => .map (avoids_produce nofun)
  · exact avoids_breach nofun

/-- An assignment looks up its target. -/
theorem avoids_stepAssign {target : Place} {value : ExprId}
    (h : s.program.symbols.Has target.var) : Avoids .undeclared (m.stepAssign s target value) := by
  unfold stepAssign
  split
  · exact .map (avoids_descend nofun)
  · refine .bind (avoids_peek nofun) fun assigned _ => ?_
    refine .bind (avoids_access nofun fun call _ => ?_) fun _ _ => .map (avoids_complete nofun)
    exact Frame.avoids_storeScalar fun _ => h
  · exact .map (avoids_descend nofun)
  · refine .bind (avoids_pop nofun) fun index _ => .bind (avoids_peek nofun) fun assigned _ => ?_
    refine .bind (avoids_cell fun _ => h) fun cell _ => ?_
    refine .bind (avoids_access nofun fun call _ => ?_) fun _ _ => .map (avoids_complete nofun)
    exact Frame.avoids_storeCell nofun
  · exact avoids_breach nofun

/-- An indexing looks up its array. -/
theorem avoids_stepIndex {array : VarId} {index : ExprId} (h : s.program.symbols.Has array) :
    Avoids .undeclared (m.stepIndex s array index) := by
  unfold stepIndex
  split
  · exact .map (avoids_descend nofun)
  · refine .bind (avoids_pop nofun) fun index _ => ?_
    refine .bind (avoids_cell fun _ => h) fun cell _ => ?_
    refine .bind (avoids_access nofun fun call _ => ?_) fun _ _ => .map (avoids_produce nofun)
    exact Frame.avoids_readCell nofun
  · exact avoids_breach nofun

/-- An increment looks up its target. -/
theorem avoids_stepStep {op : StepOp} {target : Place} (h : s.program.symbols.Has target.var) :
    Avoids .undeclared (m.stepStep s op target) := by
  unfold stepStep
  split
  · refine .bind (avoids_vars nofun) fun vars _ => ?_
    refine .bind (Frame.avoids_readScalar fun _ => h) fun old _ => ?_
    refine .bind (avoids_access nofun fun call _ => ?_) fun _ _ => .map (avoids_produce nofun)
    exact Frame.avoids_storeScalar fun _ => h
  · exact .map (avoids_descend nofun)
  · refine .bind (avoids_pop nofun) fun index _ => ?_
    refine .bind (avoids_cell fun _ => h) fun cell _ => ?_
    refine .bind (avoids_access nofun fun _ _ => Frame.avoids_readCell nofun) fun _ _ => ?_
    refine .bind (avoids_access nofun fun _ _ => Frame.avoids_storeCell nofun) fun _ _ => ?_
    exact .map (avoids_produce nofun)
  · exact avoids_breach nofun

theorem avoids_stepChoice (node : Expr) (cond thenArm elseArm : ExprId) :
    Avoids .undeclared (m.stepChoice node cond thenArm elseArm) := by
  unfold stepChoice
  split
  · exact .map (avoids_descend nofun)
  · exact .bind (avoids_pop nofun) fun _ _ => .map (avoids_descend nofun)
  · exact .map (avoids_complete nofun)
  · exact avoids_breach nofun

theorem avoids_stepSeq (first second : ExprId) :
    Avoids .undeclared (m.stepSeq first second) := by
  unfold stepSeq
  split
  · exact .map (avoids_descend nofun)
  · exact .bind (avoids_pop nofun) fun _ _ => .map (avoids_descend nofun)
  · exact .map (avoids_complete nofun)
  · exact avoids_breach nofun

theorem avoids_stepLoop (cond body : ExprId) : Avoids .undeclared (m.stepLoop cond body) := by
  unfold stepLoop
  split
  · exact .map (avoids_descend nofun)
  · refine .bind (avoids_pop nofun) fun value _ => ?_
    dsimp only
    split
    · exact .map (avoids_complete nofun)
    · exact .map (avoids_descend nofun)
  · refine .bind (avoids_pop nofun) fun _ _ => .bind (avoids_pop nofun) fun _ _ => ?_
    exact .map (avoids_descend nofun)
  · exact avoids_breach nofun

/-- Arrays that are passed are mentioned by the argument nodes, and bound to
parameters of a function of the program. -/
theorem avoids_invoke (h : s.program.Closed) {callee : NameId} {args : Span} {i : Invocation}
    (hresolve : resolve s callee args = .ok i) : Avoids .undeclared (m.invoke s i) := by
  refine .bind (avoids_vars nofun) fun caller _ => ?_
  refine .bind (avoids_bind ?_ ?_ nofun) fun _ _ => avoids_enter nofun
  · exact fun _ _ _ hnode => h.mentioned hnode rfl
  · intro _ param hmem
    rw [params_bindings (length_of_resolve hresolve), List.mem_reverse] at hmem
    exact h.params (resolve_eq_ok hresolve).2.1 param hmem

/-- A call looks up the parameters it binds and the arrays it passes, and
nothing else. -/
theorem avoids_stepCall (h : s.program.Closed) (callee : NameId) (args : Span) :
    Avoids .undeclared (m.stepCall s callee args) := by
  refine .bind (avoids_resolve nofun) fun i hresolve => ?_
  dsimp only
  split
  · split
    · rename_i position _
      cases harg : i.args[position]? with
      | none => exact avoids_breach nofun
      | some arg => exact .map (avoids_descend nofun)
    · exact .map (avoids_invoke h hresolve)
  · split
    · refine .bind (avoids_leave nofun) fun _ _ => ?_
      split
      · exact avoids_ok _
      · exact .map (avoids_produce nofun)
    · exact avoids_breach nofun

/-- A node of a closed program is stepped without meeting an undeclared
variable. -/
theorem avoids_stepNode (h : s.program.Closed) {id : ExprId} {node : Expr}
    (hnode : s.program.expr? id = some node) : Avoids .undeclared (m.stepNode s node) := by
  cases node with
  | number value => exact .map (avoids_produce nofun)
  | var var =>
      refine .bind (avoids_vars nofun) fun vars _ => ?_
      refine .bind (Frame.avoids_readScalar fun _ => h.mentioned hnode rfl) fun value _ => ?_
      exact .map (avoids_produce nofun)
  | empty => exact .map (avoids_produce nofun)
  | unary op operand => exact avoids_stepUnary op operand
  | binary op left right => exact avoids_stepBinary op left right
  | assign target value => exact avoids_stepAssign (h.mentioned hnode rfl)
  | index array index => exact avoids_stepIndex (h.mentioned hnode rfl)
  | step op target => exact avoids_stepStep (h.mentioned hnode rfl)
  | ternary cond thenArm elseArm => exact avoids_stepChoice _ cond thenArm elseArm
  | branch cond thenArm elseArm => exact avoids_stepChoice _ cond thenArm elseArm
  | seq first second => exact avoids_stepSeq first second
  | loop cond body => exact avoids_stepLoop cond body
  | call callee args => exact avoids_stepCall h callee args

/-- No step of a closed program meets an undeclared variable, wherever it
starts. -/
theorem avoids_step (h : s.program.Closed) (m : Machine) : Avoids .undeclared (m.step s) := by
  unfold Machine.step
  split
  · unfold stepEntry
    split
    · exact .map (avoids_leave nofun)
    · exact avoids_breach nofun
  · split
    · rename_i node hnode
      exact avoids_stepNode h hnode
    · exact avoids_breach nofun

end Machine

-- ==================================================================== runs

/-- The failures of following a reference of the program: to a node, a
name, a list of arguments or a variable. -/
inductive Cause.Unresolved : Cause → Prop where
  | expr (id : ExprId) : Unresolved (.broken (.danglingExpr id))
  | name (id : NameId) : Unresolved (.broken (.unknownName id))
  | arguments : Unresolved (.broken .argumentsOutOfRange)
  | var (var : VarId) : Unresolved (.unknownVariable var)

namespace Interpreter

open Machine

variable {i : Interpreter} {name : String} {args : List Argument}

/-- The node at work exists. -/
theorem exists_of_reaches (h : i.program.Closed) {t : List Store} {m : Machine} {id : ExprId}
    (hreaches : i.Reaches name args t m) (htask : m.task = .expr id) :
    ∃ node, i.program.expr? id = some node := by
  obtain ⟨f, hfound, htrail⟩ := hreaches.onTrail
  cases htrail with
  | node htask' _ htrail =>
      cases htask.symm.trans htask'
      obtain ⟨g, F, key, -, hkey, hreach⟩ := htrail.top hfound
      obtain ⟨body, hbody⟩ := h.bodies hkey
      exact h.exists_of_reachable hbody hreach
  | completed htask' hinvokes =>
      cases htask.symm.trans htask'
      obtain ⟨callee, args, hnode, -⟩ := hinvokes
      exact ⟨_, hnode⟩
  | ended htask' => cases htask.symm.trans htask'

/-- What dangles in a closed program is no reference of it. -/
theorem resolved_of_dangling (h : i.program.Closed) {t : List Store} {m : Machine} {breach : Breach}
    (hreaches : i.Reaches name args t m) (hdangling : Dangling i.program m breach) :
    ¬Cause.Unresolved (.broken breach) := by
  intro hunresolved
  cases hdangling with
  | expr htask hsize =>
      obtain ⟨node, hnode⟩ := exists_of_reaches h hreaches htask
      have hlt : _ < i.program.arena.size := (Array.getElem?_eq_some_iff.mp hnode).1
      omega
  | name htask hnode hsize =>
      obtain ⟨text, htext⟩ := h.named hnode
      have hlt : _ < i.program.names.size := (Array.getElem?_eq_some_iff.mp htext).1
      omega
  | args htask hnode hsize =>
      obtain ⟨ids, hids⟩ := h.listed hnode
      rw [Arena.list?, if_neg (Nat.not_le_of_lt hsize)] at hids
      cases hids
  | params => cases hunresolved

/-- Runs of a closed program follow all their references. -/
theorem Ends.resolved (h : i.program.Closed) {fault : Fault} {stores : List Store}
    (hends : i.Ends name args ⟨.error fault, stores⟩) : ¬fault.cause.Unresolved := by
  rcases hends.last with ⟨fault, hrefuses, hout⟩ | ⟨m, hreaches, hlast⟩
  · cases hout
    intro hunresolved
    cases hrefuses with
    | undefined => cases hunresolved
    | @unbound f _ hfound hargs =>
        have hundeclared : Avoids .undeclared (i.bindArguments f args) :=
          avoids_bindArguments fun _ => h.params hfound
        have hbreach : Avoids .breach (i.bindArguments f args) := avoids_bindArguments nofun
        cases hunresolved with
        | var var => exact hundeclared _ hargs rfl
        | _ => exact hbreach _ hargs rfl
    | unstarted _ _ hstart =>
        obtain ⟨-, rfl⟩ := start_error hstart
        cases hunresolved
  · rcases hlast with ⟨cause, hstep, hout⟩ | ⟨value, -, hout⟩
    · cases hout
      intro hunresolved
      cases hunresolved with
      | var var => exact avoids_step h m _ hstep rfl
      | expr id => exact resolved_of_dangling h hreaches (hreaches.dangling hstep) (.expr id)
      | name id => exact resolved_of_dangling h hreaches (hreaches.dangling hstep) (.name id)
      | arguments => exact resolved_of_dangling h hreaches (hreaches.dangling hstep) .arguments
    · cases hout

end Interpreter

-- ================================================================== builds

namespace SSA

/-- The refusals for following a reference of the program. -/
inductive Obstacle.Unresolved : Obstacle → Prop where
  | expr : Unresolved (.malformed .dangling)
  | var (var : VarId) : Unresolved (.unknownVariable var)

variable {p : Program}

/-- The scalar that lowering looks up is the variable that the node
mentions. -/
theorem mentioned_of_scalar {node : Expr} {var : VarId} (h : node.scalar? = some var) :
    node.mentioned? = some var := by
  cases node with
  | var => exact h
  | assign target value => cases target <;> first | exact h | cases h
  | step op target => cases target <;> first | exact h | cases h
  | _ => cases h

/-- The parameters of a closed program's functions have names. -/
theorem resolved_of_paramNames {body : ExprId} {params : List Param}
    (h : ∀ param ∈ params, p.symbols.Has param.var) {refusal : Refusal}
    (hrefused : paramNames p body params = .error refusal) : ¬refusal.obstacle.Unresolved := by
  induction params with
  | nil => cases hrefused
  | cons param params ih =>
      obtain ⟨⟨sym, hsym⟩, hrest⟩ := List.forall_mem_cons.mp h
      cases param with
      | array var =>
          cases hrefused
          nofun
      | scalar var =>
          have hfound : p.symbols.get? var = some sym := hsym
          rw [paramNames, Symbols.name?, hfound] at hrefused
          dsimp only [Option.map] at hrefused
          cases hnames : paramNames p body params with
          | ok names => rw [hnames] at hrefused; cases hrefused
          | error refusal' =>
              rw [hnames] at hrefused
              cases hrefused
              exact ih hrest hnames

/-- A misfit below a node that exists is no reference that dangles. -/
theorem resolved_of_misfit (h : p.Closed) {root id : ExprId} {node : Expr} {role : Role}
    {obstacle : Obstacle} (hroot : p.expr? root = some node) (hreach : p.Reachable root id)
    (hmisfit : Misfit p role id obstacle) : ¬obstacle.Unresolved := by
  intro hunresolved
  cases hmisfit with
  | dangling hnone =>
      obtain ⟨node, hnode⟩ := h.exists_of_reachable hroot hreach
      rw [hnone] at hnode
      cases hnode
  | undeclared hnode hvar hnone =>
      obtain ⟨sym, hsym⟩ := h.mentioned hnode (mentioned_of_scalar hvar)
      rw [hnone] at hsym
      cases hsym
  | _ => cases hunresolved

/-- Lowering a function of a closed program follows all its references. -/
theorem build_resolved (h : p.Closed) (b : Builder) {name : String} {refusal : Refusal}
    (hrefused : (b.buildNamed p name).1 = .error refusal) : ¬refusal.obstacle.Unresolved := by
  unfold Builder.buildNamed at hrefused
  cases hfound : p.function? name with
  | none =>
      rw [hfound] at hrefused
      cases hrefused
      nofun
  | some f =>
      rw [hfound] at hrefused
      unfold Builder.build at hrefused
      cases hnames : paramNames p f.body f.params with
      | error refusal' =>
          simp only [hnames] at hrefused
          cases hrefused
          exact resolved_of_paramNames (h.params hfound) hnames
      | ok liveIn =>
          have hverdict := verdict_lowerBody (h.acyclic f.body) .statement ⟨.empty, none, b.temps⟩
          simp only [hnames] at hrefused
          cases hlower : lowerBody p f.body ⟨.empty, none, b.temps⟩ with
          | ok e => rw [hlower] at hrefused; cases hrefused
          | error stop =>
              rw [hlower] at hrefused hverdict
              cases hrefused
              obtain ⟨obstacle, below, low, hstop, hoccurs, hmisfit⟩ := hverdict
              obtain ⟨body, hbody⟩ := h.bodies hfound
              rw [hstop]
              exact resolved_of_misfit h hbody hoccurs.reachable hmisfit

end SSA

end ExprGraph
