/-
Calls, and whole runs.

A call is in one of its phases `0 … n` while arguments are evaluated. The
phase is not the position of the next argument: it stays behind while the
call passes over arrays, so the induction over the arguments keeps the two
apart and asks only that no scalar lies between them (`follows_args`). The
values then lie on the stack last first, which is the order in which
parameters are bound (`bind_of_given`).

With calls every kind of node follows the evaluator, if its children do at
one level less, so every node does (`entryFollows`), and every run
(`execute_iff_evaluate`).
-/
import ExprGraph.Proofs.Machine.Nodes

namespace ExprGraph

-- ============================================================== arguments

/-- The values among what arguments came to, from left to right. -/
def Binding.values : List Binding → List Float
  | [] => []
  | .scalar _ value :: given => value :: Binding.values given
  | .array .. :: given => Binding.values given

namespace Machine

open Evaluation

variable {s : Setting}

/-- What the parameters of a list were bound to, one for each. -/
inductive Given : List (Nat × Param × ExprId) → List Binding → Prop where
  | nil : Given [] []
  | scalar {rest : List (Nat × Param × ExprId)} {given : List Binding}
      (position : Nat) (var : VarId) (arg : ExprId) (value : Float) :
      Given rest given →
      Given ((position, .scalar var, arg) :: rest) (.scalar var value :: given)
  | array {rest : List (Nat × Param × ExprId)} {given : List Binding}
      (position : Nat) (var : VarId) (arg : ExprId) :
      Given rest given →
      Given ((position, .array var, arg) :: rest) (.array position var arg :: given)

section Positions

variable {i : Invocation} {f : Function} {k position : Nat} {param : Param} {arg : ExprId}
  {rest : List (Nat × Param × ExprId)} {params : List Param}

/-- There is an argument for each parameter. -/
theorem length_positioned (h : i.args.length = i.callee.arity) :
    (positioned i).length = i.callee.arity := by
  rw [positioned, List.length_mapIdx, List.length_zip, h, Function.arity, Nat.min_self]

/-- The next entry has the parameter and the argument of its position. -/
theorem getElem?_of_drop_positioned (h : (positioned i).drop k = (position, param, arg) :: rest) :
    i.callee.params[k]? = some param ∧ i.args[k]? = some arg := by
  have hget : (positioned i)[k]? = some (position, param, arg) := by
    rw [← List.head?_drop, h, List.head?_cons]
  rw [positioned, List.getElem?_mapIdx, Option.map_eq_some_iff] at hget
  obtain ⟨pair, hpair, heq⟩ := hget
  cases heq
  exact List.getElem?_zip_eq_some.mp hpair

theorem drop_succ_positioned (h : (positioned i).drop k = (position, param, arg) :: rest) :
    (positioned i).drop (k + 1) = rest := by
  rw [← List.drop_drop, h, List.drop_succ_cons, List.drop_zero]

/-- Behind the last parameter there is none. -/
theorem nextScalar?_of_ge (h : f.arity ≤ k) : f.nextScalar? k = none := by
  rw [Function.nextScalar?, List.drop_eq_nil_of_le h]
  rfl

/-- A scalar is the next one itself. -/
theorem nextScalar?_at_scalar (h : f.params[k]? = some param) (hscalar : param.isArray = false) :
    f.nextScalar? k = some k := by
  obtain ⟨hlt, rfl⟩ := List.getElem?_eq_some_iff.mp h
  rw [Function.nextScalar?, List.drop_eq_getElem_cons hlt, List.findIdx?_cons, hscalar]
  rfl

/-- An array is passed over. -/
theorem nextScalar?_at_array (h : f.params[k]? = some param) (harray : param.isArray = true) :
    f.nextScalar? k = f.nextScalar? (k + 1) := by
  obtain ⟨hlt, rfl⟩ := List.getElem?_eq_some_iff.mp h
  rw [Function.nextScalar?, Function.nextScalar?, List.drop_eq_getElem_cons hlt,
    List.findIdx?_cons, harray, Bool.not_true, if_neg Bool.false_ne_true, Option.map_map]
  congr 1
  funext j
  exact Nat.add_right_comm k j 1

end Positions

section Calls

variable {n : Nat} {ev : ExprId → Evaluation Float} {id : ExprId} {callee : NameId}
  {args : Span} {i : Invocation} {agenda back : Agenda} {p : Pending} {values : Values}
  {f : Function} {frames : List Activation}

/-- Arguments that are still to be evaluated, from position `k` on. The
call waits in some phase between which and `k` no scalar is left. -/
theorem follows_args (hev : EntryFollows s n ev)
    (hnode : s.program.expr? id = some (.call callee args))
    (hresolve : resolve s callee args = .ok i) (hlimit : agenda.limit = none)
    {next : Float → Frame → Machine} :
    ∀ (rest : List (Nat × Param × ExprId)) (k phase : Nat) (values : Values) (w : World)
      (g : List Binding → Evaluation Float),
      (positioned i).drop k = rest → phase ≤ k → phase ≤ i.callee.arity →
      i.callee.nextScalar? phase = i.callee.nextScalar? k →
      (∀ given phase w, Given rest given → phase ≤ i.callee.arity →
        i.callee.nextScalar? phase = none →
        Follows s (n + 1)
          ⟨.expr id, phase, agenda, (Binding.values given).reverse ++ values,
            ⟨f, w.vars⟩ :: frames⟩ w.stores (g given w) next) →
      Follows s (n + 1) ⟨.expr id, phase, agenda, values, ⟨f, w.vars⟩ :: frames⟩ w.stores
        ((evalArgs ev rest >>= g) w) next := by
  intro rest
  have hlen := length_positioned (length_of_resolve hresolve)
  induction rest with
  | nil =>
      intro k phase values w g hrest hphase harity hsame hg
      have hge : i.callee.arity ≤ k := by
        rw [← hlen]
        exact List.drop_eq_nil_iff.mp hrest
      exact hg [] phase w .nil harity (hsame.trans (nextScalar?_of_ge hge))
  | cons entry rest ih =>
      intro k phase values w g hrest hphase harity hsame hg
      obtain ⟨position, param, arg⟩ := entry
      obtain ⟨hparam, harg⟩ := getElem?_of_drop_positioned hrest
      have hk : k < i.callee.arity := (List.getElem?_eq_some_iff.mp hparam).1
      cases param with
      | scalar var =>
          have hstep : Machine.step s
              ⟨.expr id, phase, agenda, values, ⟨f, w.vars⟩ :: frames⟩ = (do
                return .quiet (← Machine.descend
                  ⟨.expr id, phase, agenda, values, ⟨f, w.vars⟩ :: frames⟩ (k + 1) arg)) := by
            rw [step_of_node rfl hnode]
            simp only [stepNode, stepCall, hresolve, ok_bind,
              if_pos (Nat.lt_succ_of_le harity), hsame,
              nextScalar?_at_scalar hparam rfl, harg]
          rw [evalArgs, bind_assoc]
          apply (Follows.child hev hlimit hstep).bind
          intro value w'
          rw [bind_assoc]
          apply ih (k + 1) (k + 1) _ w' _ (drop_succ_positioned hrest) (Nat.le_refl _) hk rfl
          intro given phase w hgiven hphase hnone
          have hfollows := hg _ phase w (.scalar position var arg value hgiven) hphase hnone
          rw [Binding.values, List.reverse_cons, List.append_assoc] at hfollows
          exact hfollows
      | array var =>
          rw [evalArgs, bind_assoc]
          refine ih (k + 1) phase _ w _ (drop_succ_positioned hrest) (Nat.le_succ_of_le hphase)
            harity (hsame.trans (nextScalar?_at_array hparam rfl)) ?_
          intro given phase w hgiven hphase hnone
          exact hg _ phase w (.array position var arg hgiven) hphase hnone

-- ================================================================ binding

/-- Entries are bound one after the other. -/
theorem bind_append (caller : Frame) (left right : List (Nat × Param × ExprId))
    (vars : Frame) (values : Values) :
    Machine.bind s caller f (left ++ right) vars values = (do
      let (vars, values) ← Machine.bind s caller f left vars values
      Machine.bind s caller f right vars values) := by
  induction left generalizing vars values with
  | nil => rfl
  | cons entry left ih =>
      obtain ⟨position, param, arg⟩ := entry
      cases param with
      | scalar var =>
          cases values with
          | nil => rfl
          | cons value values => exact ih _ _
      | array var =>
          simp only [List.cons_append, Machine.bind]
          cases arrayArgument s caller f position arg var with
          | error cause => rfl
          | ok contents => exact ih _ _

/-- Values come off the stack in the order in which parameters are bound,
and make the frame that the callee is given. -/
theorem bind_of_given {caller : Frame} {entries : List (Nat × Param × ExprId)}
    {given : List Binding} (h : Given entries given) (values : Values) :
    Machine.bind s caller f entries.reverse {} ((Binding.values given).reverse ++ values)
      = (freshFrame s caller f given).map (·, values) := by
  induction h generalizing values with
  | nil => rfl
  | scalar position var arg value _ ih =>
      rw [List.reverse_cons, bind_append, Binding.values, List.reverse_cons,
        List.append_assoc, ih, freshFrame]
      cases freshFrame s caller f _ <;> rfl
  | array position var arg _ ih =>
      rw [List.reverse_cons, bind_append, Binding.values, ih, freshFrame]
      cases freshFrame s caller f _ with
      | error cause => rfl
      | ok vars =>
          simp only [Except.map, ok_bind, Machine.bind]
          cases arrayArgument s caller f position arg var <;> rfl

-- =============================================================== the callee

/-- A call whose arguments are all evaluated. -/
theorem follows_callee (hev : EntryFollows s n ev)
    (hnode : s.program.expr? id = some (.call callee args))
    (hresolve : resolve s callee args = .ok i)
    (hlimit : agenda.limit = none) (hpop : agenda.pop = some (p, back))
    {given : List Binding} (hgiven : Given (positioned i) given) {phase : Nat}
    (hphase : phase ≤ i.callee.arity) (hnext : i.callee.nextScalar? phase = none) (w : World) :
    Follows s (n + 1)
      ⟨.expr id, phase, agenda, (Binding.values given).reverse ++ values,
        ⟨f, w.vars⟩ :: frames⟩ w.stores (evalCallee s ev i.callee given w)
      fun v vars => ⟨p.task, p.phase, back, v :: values, ⟨f, vars⟩ :: frames⟩ := by
  have hbind : Machine.bind s w.vars i.callee (bindings i) {}
      ((Binding.values given).reverse ++ values)
      = (freshFrame s w.vars i.callee given).map (·, values) := bind_of_given hgiven values
  have hinvoke : Machine.step s
      ⟨.expr id, phase, agenda, (Binding.values given).reverse ++ values,
        ⟨f, w.vars⟩ :: frames⟩ = (do
      return .quiet (← Machine.invoke s ⟨.expr id, phase, agenda,
        (Binding.values given).reverse ++ values, ⟨f, w.vars⟩ :: frames⟩ i)) := by
    rw [step_of_node rfl hnode]
    simp only [stepNode, stepCall, hresolve, ok_bind, if_pos (Nat.lt_succ_of_le hphase), hnext]
  rw [evalCallee, getVars_bind]
  cases hfresh : freshFrame s w.vars i.callee given with
  | error cause =>
      rw [hfresh] at hbind
      apply Follows.halt
      rw [Halts, hinvoke, invoke, vars_cons, ok_bind, hbind]
      rfl
  | ok fresh =>
      rw [hfresh] at hbind
      obtain ⟨pushed, hpush, hpushed, hback⟩ :=
        Agenda.push_of_unlimited hlimit ⟨i.callee.arity + 1, .expr id⟩
      rw [attempt_ok, pure_bind, setVars_bind]
      refine Follows.quiet ?_ ((hev i.callee.body pushed agenda _ values i.callee
        (⟨f, w.vars⟩ :: frames) ⟨fresh, w.stores⟩ hpushed hback).bind ?_)
      · rw [hinvoke, invoke, vars_cons, ok_bind, hbind]
        simp only [Except.map, ok_bind, enter, hpush]
        rfl
      intro v w'
      apply Follows.mono (Nat.le_succ n)
      have hnot : ¬i.callee.arity + 1 < i.callee.arity + 1 := Nat.lt_irrefl _
      rw [getVars_bind, resultOf]
      cases hresult : w'.vars.named? s.program.symbols Program.resultName with
      | none =>
          apply Follows.halt
          rw [Halts, step_of_node rfl hnode]
          simp only [stepNode, stepCall, hresolve, ok_bind, if_neg hnot, leave, hresult,
            error_bind, if_pos]
      | some result =>
          rw [attempt_ok, pure_bind, setVars_bind]
          by_cases hentry : i.callee.name = s.entry
          · rw [if_pos hentry]
            refine Follows.halt (w := ⟨w.vars, w'.stores⟩) ?_
            rw [Halts, step_of_node rfl hnode]
            simp only [stepNode, stepCall, hresolve, ok_bind, if_neg hnot, leave, hresult,
              pop_cons, if_pos, hentry]
            rfl
          · rw [if_neg hentry]
            refine Follows.quiet ?_ (Follows.done (w := ⟨w.vars, w'.stores⟩) rfl)
            rw [step_of_node rfl hnode]
            simp only [stepNode, stepCall, hresolve, ok_bind, if_neg hnot, leave, hresult,
              pop_cons, if_pos, if_neg hentry]
            show (Machine.produce _ result >>= fun m => Except.ok (Progress.quiet m)) = _
            rw [produce_of_pop hpop]
            rfl

/-- A call evaluates its scalar arguments, copies arrays, and runs the body
in a frame of its own. -/
theorem nodeFollows_call (hev : EntryFollows s n ev) (callee : NameId) (args : Span) :
    NodeFollows s n ev (.call callee args) := by
  intro id agenda back p values f frames w hnode hlimit hpop
  rw [evalNode]
  cases hresolve : resolve s callee args with
  | error cause =>
      apply Follows.halt
      rw [Halts, step_of_node rfl hnode]
      simp only [stepNode, stepCall, hresolve, error_bind]
  | ok i =>
      rw [attempt_ok, pure_bind]
      refine follows_args hev hnode hresolve hlimit (positioned i) 0 0 values w _
        rfl (Nat.le_refl 0) (Nat.zero_le _) rfl ?_
      intro given phase w hgiven hphase hnext
      exact follows_callee hev hnode hresolve hlimit hpop hgiven hphase hnext w

end Calls

-- ============================================================== every node

/-- A node of any kind is followed, if its children are. -/
theorem nodeFollows {n : Nat} {ev : ExprId → Evaluation Float} (hev : EntryFollows s n ev)
    (node : Expr) : NodeFollows s n ev node := by
  cases node with
  | number value => exact nodeFollows_number value
  | var var => exact nodeFollows_var var
  | empty => exact nodeFollows_empty
  | unary op operand => exact nodeFollows_unary hev op operand
  | binary op left right => exact nodeFollows_binary hev op left right
  | assign target value => exact nodeFollows_assign hev target value
  | index array index => exact nodeFollows_index hev array index
  | step op target => exact nodeFollows_step hev op target
  | ternary cond thenArm elseArm => exact nodeFollows_choice hev (fun _ => rfl) rfl
  | branch cond thenArm elseArm => exact nodeFollows_choice hev (fun _ => rfl) rfl
  | seq first second => exact nodeFollows_seq hev first second
  | loop cond body => exact nodeFollows_loop hev cond body
  | call callee args => exact nodeFollows_call hev callee args

/-- A run from the entry of a node does what the node means; if it ends
within `n` steps, a derivation of height `n` is high enough. -/
theorem entryFollows (n : Nat) : EntryFollows s n (eval s n) := by
  induction n with
  | zero =>
      intro id agenda back p values f frames w _ _
      exact Follows.unanswered
  | succ n ih =>
      intro id agenda back p values f frames w hlimit hpop
      rw [eval]
      cases hnode : s.program.expr? id with
      | none =>
          apply Follows.halt
          simp only [Halts, step, hnode]
      | some node => exact nodeFollows ih node id agenda back p values f frames w hnode hlimit hpop

-- =================================================================== runs

/-- The whole run of a function, from the state in which its body is
entered. -/
theorem start_follows (n : Nat) (f : Function) (vars : Frame) :
    ∃ m, Machine.start none f vars = .ok m ∧
      Follows s n m [] (evalRun s n f ⟨vars, []⟩) fun a _ => a.elim := by
  obtain ⟨pushed, hpush, hpushed, hback⟩ :=
    Agenda.push_of_unlimited (a := {}) rfl ⟨1, .entry⟩
  refine ⟨⟨.expr f.body, 0, pushed, [], [⟨f, vars⟩]⟩, ?_, ?_⟩
  · rw [start, enter, hpush]
    rfl
  rw [evalRun]
  refine (entryFollows n f.body pushed {} ⟨1, .entry⟩ [] f [] ⟨vars, []⟩ hpushed hback).bind ?_
  intro v w
  rw [getVars_bind]
  apply Follows.halt
  unfold resultOf
  cases hresult : w.vars.named? s.program.symbols Program.resultName with
  | none => simp only [Halts, step, stepEntry, if_pos, leave, hresult, error_bind]
  | some result =>
      simp only [Halts, step, stepEntry, if_pos, leave, hresult, pop_cons, ok_bind]
      rfl

/-- An execution without a bound on pending work ends with this result,
after these stores. -/
def Executes (s : Setting) (name : String) (args : List Argument) (o : Except Cause Float)
    (t : List Store) : Prop :=
  ∃ steps out, Interpreter.execute ⟨s.program, s.entry, none⟩ steps name args = some out
    ∧ out.result.mapError Fault.cause = o ∧ out.stores = t

/-- A derivation is followed by an execution. -/
theorem executes_of_evaluate {height : Nat} {name : String} {args : List Argument}
    {o : Except Cause Float} {t : List Store} (h : evaluate s height name args = some (o, t)) :
    Executes s name args o t := by
  unfold evaluate at h
  unfold Executes Interpreter.execute
  cases hfun : s.program.function? name with
  | none =>
      simp only [hfun] at h ⊢
      cases h
      exact ⟨0, _, rfl, rfl, rfl⟩
  | some f =>
      simp only [hfun] at h ⊢
      cases hargs : Interpreter.bindArguments ⟨s.program, s.entry, none⟩ f args with
      | error cause =>
          simp only [hargs] at h ⊢
          cases h
          exact ⟨0, _, rfl, rfl, rfl⟩
      | ok vars =>
          obtain ⟨m, hstart, hfollows⟩ := start_follows (s := s) height f vars
          simp only [hargs, hstart] at h ⊢
          cases hrun : evalRun s height f ⟨vars, []⟩ with
          | none => rw [hrun] at h; cases h
          | some pair =>
              obtain ⟨answer, w⟩ := pair
              cases answer with
              | value a => exact a.elim
              | ended result =>
                  rw [hrun] at h
                  cases h
                  obtain ⟨t, m', ht, hsteps, hhalts⟩ := hfollows.ended hrun
                  rw [List.nil_append] at ht
                  rw [ht]
                  exact run_of_steps hsteps hhalts

/-- An execution that ends is within some number of steps, and a
derivation of that height answers. -/
theorem evaluate_of_execute {steps : Nat} {name : String} {args : List Argument}
    {out : Outcome}
    (h : Interpreter.execute ⟨s.program, s.entry, none⟩ steps name args = some out) :
    ∃ o t, evaluate s steps name args = some (o, t) := by
  unfold evaluate
  unfold Interpreter.execute at h
  cases hfun : s.program.function? name with
  | none => exact ⟨_, _, rfl⟩
  | some f =>
      simp only [hfun] at h ⊢
      cases hargs : Interpreter.bindArguments ⟨s.program, s.entry, none⟩ f args with
      | error cause => exact ⟨_, _, rfl⟩
      | ok vars =>
          obtain ⟨m, hstart, hfollows⟩ := start_follows (s := s) steps f vars
          simp only [hargs, hstart] at h ⊢
          have hends : EndsWithin s steps m := by
            unfold EndsWithin
            rw [h]
            exact Option.some_ne_none out
          cases hrun : evalRun s steps f ⟨vars, []⟩ with
          | none => exact absurd hrun (hfollows.answered hends)
          | some pair =>
              obtain ⟨answer, w⟩ := pair
              cases answer with
              | value a => exact a.elim
              | ended result => exact ⟨_, _, rfl⟩

/-- An execution comes to one end. -/
theorem Executes.unique {name : String} {args : List Argument}
    {o o' : Except Cause Float} {t t' : List Store} (h : Executes s name args o t)
    (h' : Executes s name args o' t') : o = o' ∧ t = t' := by
  obtain ⟨steps, out, hexec, rfl, rfl⟩ := h
  obtain ⟨steps', out', hexec', rfl, rfl⟩ := h'
  suffices out = out' by subst this; exact ⟨rfl, rfl⟩
  unfold Interpreter.execute at hexec hexec'
  cases hfun : s.program.function? name with
  | none =>
      simp only [hfun] at hexec hexec'
      exact Option.some.inj (hexec.symm.trans hexec')
  | some f =>
      simp only [hfun] at hexec hexec'
      cases hargs : Interpreter.bindArguments ⟨s.program, s.entry, none⟩ f args with
      | error cause =>
          simp only [hargs] at hexec hexec'
          exact Option.some.inj (hexec.symm.trans hexec')
      | ok vars =>
          obtain ⟨m, hstart, -⟩ := start_follows (s := s) 0 f vars
          simp only [hargs, hstart] at hexec hexec'
          exact run_unique hexec hexec'

/-- What an execution comes to, the evaluator comes to at some height. -/
theorem evaluate_of_executes {name : String} {args : List Argument}
    {o : Except Cause Float} {t : List Store} (h : Executes s name args o t) :
    ∃ height, evaluate s height name args = some (o, t) := by
  obtain ⟨steps, out, hexec, -, -⟩ := id h
  obtain ⟨o', t', heval⟩ := evaluate_of_execute hexec
  obtain ⟨rfl, rfl⟩ := h.unique (executes_of_evaluate heval)
  exact ⟨steps, heval⟩

/-- Without a bound on pending work, an execution comes to an end after a
list of stores iff there is a derivation of both. -/
theorem execute_iff_evaluate (s : Setting) (name : String) (args : List Argument)
    (o : Except Cause Float) (t : List Store) :
    (∃ steps out, Interpreter.execute ⟨s.program, s.entry, none⟩ steps name args = some out
      ∧ out.result.mapError Fault.cause = o ∧ out.stores = t)
    ↔ ∃ height, evaluate s height name args = some (o, t) :=
  ⟨evaluate_of_executes, fun ⟨_, h⟩ => executes_of_evaluate h⟩

end Machine

end ExprGraph
