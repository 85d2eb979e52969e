/-
What is built for a function does what a run of the function does.

The pieces are put behind each other: the code that lowering emits computes
the body (`Lowered.computes`), the numbering of temporaries and then the
versions keep what the code does (`execAll_relabel`, `matches_rename`). To
these come the two ends. On entry the parameters have their values in the
frame as they have in the environment (`tracks_entry`). At the end the run
returns the variable named `result`, and it does so behind the body: there
are no calls in a body that has code, hence none that ends the run from
within (`Lowered.goesOn`).
-/
import ExprGraph.Proofs.Machine.Refinement
import ExprGraph.Proofs.SSA.LoweredExecution
import ExprGraph.Proofs.SSA.Relabelling
import ExprGraph.Proofs.SSA.RenameExecution
import ExprGraph.SSA.Build

namespace ExprGraph

-- ======================================= bodies that do not end the run

namespace Evaluation

variable {α β : Type}

/-- A computation that ends the run ends it by a failure. -/
structure GoesOn (x : Evaluation α) : Prop where
  not_returned : ∀ {w w' : World} {value : Float}, x w ≠ some (.ended (.ok value), w')

/-- A value goes on. -/
theorem goesOn_pure (a : α) : GoesOn (pure a) :=
  ⟨fun h => by cases h⟩

theorem goesOn_getVars : GoesOn getVars :=
  ⟨fun h => by cases h⟩

/-- A computation that may fail ends the run with a failure only. -/
theorem goesOn_attempt (x : Except Cause α) : GoesOn (attempt x) :=
  ⟨fun h => by cases x <;> cases h⟩

/-- What is put together from such computations does so too. -/
theorem GoesOn.bind {x : Evaluation α} {f : α → Evaluation β} (hx : GoesOn x)
    (hf : ∀ a, GoesOn (f a)) : GoesOn (x >>= f) := by
  constructor
  intro w w' value h
  cases hxw : x w with
  | none => rw [bind_of_none hxw] at h; cases h
  | some pair =>
      obtain ⟨answer, w₁⟩ := pair
      cases answer with
      | ended o =>
          rw [bind_of_ended hxw] at h
          cases h
          exact hx.not_returned hxw
      | value a =>
          rw [bind_of_value hxw] at h
          exact (hf a).not_returned h

/-- An access ends the run with a failure only. -/
theorem goesOn_storing (act : Frame → Except Cause (Store × Frame)) : GoesOn (storing act) := by
  unfold storing
  refine goesOn_getVars.bind fun vars => (goesOn_attempt _).bind fun pair => ?_
  exact ⟨fun h => by cases h⟩

end Evaluation

open Evaluation

/-- A node goes on if its kind does, at every height. -/
theorem goesOn_eval {s : Setting} {id : ExprId} {node : Expr}
    (hnode : s.program.expr? id = some node)
    (h : ∀ height, GoesOn (evalNode s (eval s height) height node)) (height : Nat) :
    GoesOn (eval s height id) := by
  constructor
  intro w w' value heval
  cases height with
  | zero => cases heval
  | succ height =>
      rw [eval, hnode] at heval
      exact (h height).not_returned heval

namespace SSA

/-- A choice goes on if its parts do. -/
theorem goesOn_choice {s : Setting} {cond thenArm elseArm : ExprId} {height : Nat}
    (hcond : GoesOn (eval s height cond)) (hthen : GoesOn (eval s height thenArm))
    (helse : GoesOn (eval s height elseArm)) :
    GoesOn (evalNode s (eval s height) height (.ternary cond thenArm elseArm)) := by
  refine hcond.bind fun a => ?_
  split
  · exact helse
  · exact hthen

/-- A node that has code does not end the run with a value. -/
theorem Lowered.goesOn {s : Setting} {id : ExprId} {lo hi : Nat} {code : List Inst}
    {value : Option Operand} (h : Lowered s.program id lo hi code value) :
    ∀ height, GoesOn (eval s height id) := by
  induction h with
  | number hnode => exact goesOn_eval hnode fun _ => goesOn_pure _
  | var hnode => exact goesOn_eval hnode fun _ => goesOn_getVars.bind fun _ => goesOn_attempt _
  | empty hnode => exact goesOn_eval hnode fun _ => goesOn_pure _
  | unary hnode _ ih => exact goesOn_eval hnode fun n => (ih n).bind fun _ => goesOn_pure _
  | binary hnode _ _ _ ih ih' =>
      exact goesOn_eval hnode fun n => (ih n).bind fun _ => (ih' n).bind fun _ => goesOn_attempt _
  | pinned hnode _ _ ih ih' =>
      exact goesOn_eval hnode fun n => (ih n).bind fun _ => (ih' n).bind fun _ => goesOn_attempt _
  | assign hnode _ _ ih =>
      exact goesOn_eval hnode fun n => (ih n).bind fun _ => (goesOn_storing _).bind fun _ =>
        goesOn_pure _
  | stepped hnode =>
      exact goesOn_eval hnode fun _ => goesOn_getVars.bind fun _ => (goesOn_attempt _).bind
        fun _ => (goesOn_storing _).bind fun _ => goesOn_pure _
  | kept hnode =>
      exact goesOn_eval hnode fun _ => goesOn_getVars.bind fun _ => (goesOn_attempt _).bind
        fun _ => (goesOn_storing _).bind fun _ => goesOn_pure _
  | choice _ _ _ _ _ hmeets ih ih₁ ih₂ =>
      cases hmeets with
      | fresh hnode => exact goesOn_eval hnode fun n => goesOn_choice (ih n) (ih₁ n) (ih₂ n)
      | into hnode hvalue =>
          refine goesOn_eval hnode fun n => ?_
          exact (goesOn_eval hvalue (fun n => goesOn_choice (ih n) (ih₁ n) (ih₂ n)) n).bind
            fun _ => (goesOn_storing _).bind fun _ => goesOn_pure _
  | branch hnode _ _ _ ih ih₁ ih₂ =>
      exact goesOn_eval hnode fun n => goesOn_choice (ih n) (ih₁ n) (ih₂ n)
  | seq hnode _ _ ih ih' => exact goesOn_eval hnode fun n => (ih n).bind fun _ => ih' n

-- ============================================================== on entry

/-- The value a name has on entry: that of the parameter declared under it,
the last if there are several. -/
def bound (p : Program) (name : String) : List (Param × Float) → Option Float
  | [] => none
  | (param, value) :: rest =>
    (bound p name rest).or
      (if p.symbols.name? param.var = some name then some value else none)

/-- The environment in which the code of a function starts: the names of
parameters have their values, at the version given, and nothing else is
defined. -/
def Env.entry (p : Program) (given : List (Param × Float)) (version : Option Nat) : Env
  | .user name v => if v = version then bound p name given else none
  | .temp _ => none

section Entry

variable {p : Program} {used : VarId → Prop}

/-- The names live on entry are those of the parameters, all scalars. -/
theorem bound_of_paramNames {body : ExprId} :
    ∀ {params : List Param} {names : List String} {values : List Float},
      paramNames p body params = .ok names → params.length = values.length →
      (∀ param ∈ params, param.isArray = false)
        ∧ ∀ name, name ∈ names ↔ (bound p name (params.zip values)).isSome = true
  | [], _, _, h, _ => by
    cases h
    exact ⟨by nofun, fun name => ⟨by nofun, by nofun⟩⟩
  | .array _ :: _, _, _, h, _ => by cases h
  | .scalar var :: rest, names, [], _, hlen => by cases hlen
  | .scalar var :: rest, names, value :: values, h, hlen => by
    rw [paramNames] at h
    cases hname : p.symbols.name? var with
    | none => rw [hname] at h; cases h
    | some first =>
        rw [hname] at h
        obtain ⟨others, hrest, hlast⟩ := bind_eq_ok.mp h
        cases hlast
        obtain ⟨hscalar, hnames⟩ := bound_of_paramNames hrest (Nat.succ.inj hlen)
        refine ⟨?_, fun name => ?_⟩
        · intro param hparam
          rcases List.mem_cons.mp hparam with rfl | hparam
          · rfl
          · exact hscalar param hparam
        · rw [List.zip_cons_cons, bound, Option.isSome_or, Bool.or_eq_true, ← hnames name,
            List.mem_cons, Param.var]
          by_cases heq : first = name
          · rw [if_pos (hname.trans (congrArg some heq))]
            exact iff_of_true (.inl heq.symm) (.inr rfl)
          · rw [if_neg fun hsame => heq (Option.some.inj (hname.symm.trans hsame))]
            exact ⟨fun h => h.elim (fun h => absurd h.symm heq) .inl,
              fun h => h.elim .inr (by nofun)⟩

/-- This environment is one of those the renaming is correct from. -/
theorem entry_eq_start {names : List String} {given : List (Param × Float)}
    (h : ∀ name, name ∈ names ↔ (bound p name given).isSome = true) (version : Option Nat) :
    Env.entry p given version = Env.start names (fun name => (bound p name given).getD 0) version
    := by
  funext x
  cases x with
  | temp number => rfl
  | user name v =>
      unfold Env.entry Env.start
      dsimp only
      by_cases hv : v = version
      · cases hbound : bound p name given with
        | none =>
            have hout : name ∉ names := fun hin => by
              have hsome := (h name).mp hin
              rw [hbound] at hsome
              cases hsome
            rw [if_pos hv, if_neg fun hboth => hout hboth.1]
        | some value =>
            have hin : name ∈ names := (h name).mpr (by rw [hbound]; rfl)
            rw [if_pos hv, if_pos ⟨hin, hv⟩]
            rfl
      · rw [if_neg hv, if_neg fun hboth => hv hboth.2]

/-- A frame into which parameters are bound. -/
theorem scalar?_bindAll (hunshared : p.Unshared used) {f : Function} {frame : Frame} :
    ∀ {given : List (Param × Float)} {entries : List (Nat × Param × Argument)} {start : Frame},
      entries.map Prod.snd = given.map (fun pair => (pair.1, .scalar pair.2)) →
      (∀ pair ∈ given, used pair.1.var) →
      Interpreter.bindAll p.symbols f entries start = .ok frame →
      (∀ {var sym}, used var → p.symbols.get? var = some sym →
        frame.scalar? var = (bound p sym.name given).or (start.scalar? var))
      ∧ ∀ {var value}, frame.scalar? var = some value →
        used var ∨ start.scalar? var = some value
  | [], [], start, _, _, h => by
    cases h
    exact ⟨fun _ _ => (Option.none_or).symm, .inr⟩
  | [], _ :: _, _, hentries, _, _ => by cases hentries
  | _ :: _, [], _, hentries, _, _ => by cases hentries
  | (param, value) :: given, (position, param', arg) :: entries, start, hentries, hused, h => by
    obtain ⟨hfirst, hrest⟩ := List.cons.inj hentries
    cases hfirst
    cases param with
    | array var => cases h
    | scalar var =>
        obtain ⟨hcells, hconfined⟩ := scalar?_bindAll hunshared hrest
          (fun pair hpair => hused pair (List.mem_cons_of_mem _ hpair)) h
        have hvar : used var := hused _ List.mem_cons_self
        constructor
        · intro other sym hother hget
          have hname : p.symbols.name? other = some sym.name :=
            Option.map_eq_some_iff.mpr ⟨sym, hget, rfl⟩
          rw [hcells hother hget, bound, Option.or_assoc, Frame.scalar?_setScalar]
          by_cases heq : var = other
          · subst heq
            rw [if_pos rfl, Param.var, if_pos hname]
            rfl
          · rw [if_neg heq, Param.var,
              if_neg fun hsame => heq (hunshared _ _ _ hvar hother hsame hname)]
            rfl
        · intro other value' hcell
          rcases hconfined hcell with hin | hcell
          · exact .inl hin
          · rw [Frame.scalar?_setScalar] at hcell
            by_cases heq : var = other
            · exact .inl (heq ▸ hvar)
            · rw [if_neg heq] at hcell
              exact .inr hcell

/-- On entry the frame and the environment have the values of the
arguments. -/
theorem tracks_entry (hunshared : p.Unshared used) {i : Interpreter} (hprogram : i.program = p)
    {f : Function} {values : List Float} {vars : Frame}
    (hused : ∀ param ∈ f.params, used param.var)
    (h : i.bindArguments f (values.map .scalar) = .ok vars) :
    f.params.length = values.length
      ∧ Tracks p used ⟨vars, []⟩ { env := Env.entry p (f.params.zip values) none } := by
  subst hprogram
  unfold Interpreter.bindArguments at h
  by_cases hlen : (values.map Argument.scalar).length = f.arity
  · rw [if_pos hlen] at h
    have hentries : (((f.params.zip (values.map Argument.scalar)).mapIdx
        fun position pair => (position, pair)).map Prod.snd) =
          (f.params.zip values).map fun pair => (pair.1, .scalar pair.2) := by
      rw [List.zip_map_right]
      refine List.ext_getElem? fun k => ?_
      simp only [List.getElem?_map, List.getElem?_mapIdx]
      cases (f.params.zip values)[k]? <;> rfl
    obtain ⟨hcells, hconfined⟩ := scalar?_bindAll hunshared hentries
      (fun pair hpair => hused _ (List.of_mem_zip hpair).1) h
    refine ⟨?_, ⟨?_, ?_, rfl⟩⟩
    · rw [List.length_map] at hlen
      exact hlen.symm
    · intro var sym hvar hget
      rw [hcells hvar hget]
      exact (Option.or_none).symm
    · intro var value hcell
      exact (hconfined hcell).elim id fun h => by cases h
  · rw [if_neg hlen] at h
    cases h

end Entry

-- ============================================================== at the end

/-- The value of a name is that of a variable of this name. -/
theorem scalar?_of_named? {vars : Frame} {symbols : Symbols} {name : String} {value : Float}
    (h : vars.named? symbols name = some value) :
    ∃ var, symbols.name? var = some name ∧ vars.scalar? var = some value := by
  obtain ⟨⟨var, cell⟩, hfind, rfl⟩ := Option.map_eq_some_iff.mp h
  refine ⟨var, beq_iff_eq.mp (List.find?_some hfind :), ?_⟩
  exact Std.ExtTreeMap.mem_toList_iff_getElem?_eq_some.mp (List.mem_of_find?_eq_some hfind)

/-- The result of a run is in the cell of its name. -/
theorem Tracks.result {s : Setting} {used : VarId → Prop} {f : Function} {w : World} {st : State}
    {r : Float} (h : Tracks s.program used w st) (hresult : resultOf s f w.vars = .ok r) :
    st.env (.user Program.resultName none) = some r := by
  unfold resultOf at hresult
  cases hnamed : w.vars.named? s.program.symbols Program.resultName with
  | none => rw [hnamed] at hresult; cases hresult
  | some value =>
      rw [hnamed] at hresult
      cases hresult
      obtain ⟨var, hname, hcell⟩ := scalar?_of_named? hnamed
      obtain ⟨sym, hget, hsame⟩ := Option.map_eq_some_iff.mp hname
      rw [← hsame, h.cells (h.confined hcell) hget]
      exact hcell

/-- The run of a function whose body has code ends behind its body. -/
theorem Lowered.evalRun_eq_ok {s : Setting} {f : Function} {lo hi height : Nat} {code : List Inst}
    {value : Option Operand} (h : Lowered s.program f.body lo hi code value) {w w' : World}
    {r : Float} (hrun : evalRun s height f w = some (.ended (.ok r), w')) :
    ∃ v, eval s height f.body w = some (.value v, w') ∧ resultOf s f w'.vars = .ok r := by
  unfold evalRun at hrun
  cases hbody : eval s height f.body w with
  | none => rw [bind_of_none hbody] at hrun; cases hrun
  | some pair =>
      obtain ⟨answer, w₁⟩ := pair
      cases answer with
      | ended o =>
          rw [bind_of_ended hbody] at hrun
          cases hrun
          exact absurd hbody (h.goesOn height).not_returned
      | value v =>
          rw [bind_of_value hbody, getVars_bind] at hrun
          injection hrun with hpair
          injection hpair with hanswer hworld
          injection hanswer with hresult
          subst hworld
          exact ⟨v, rfl, hresult⟩

-- ================================================================ the whole

section Whole

variable {p : Program} {f : Function} {b b' : Builder} {code : List Inst}

/-- The stations of a build that succeeds: parameters, lowering, numbering,
renaming. -/
theorem build_eq_ok (h : b.build p f = (.ok code, b')) :
    ∃ liveIn e, paramNames p f.body f.params = .ok liveIn
      ∧ lowerBody p f.body ⟨.empty, none, b.temps⟩ = .ok e
      ∧ code = rename (renumber b.temps e.code.insts) liveIn := by
  unfold Builder.build at h
  cases hparams : paramNames p f.body f.params with
  | error refusal => rw [hparams] at h; cases h
  | ok liveIn =>
      rw [hparams] at h
      dsimp only at h
      cases hlower : lowerBody p f.body ⟨.empty, none, b.temps⟩ with
      | error stop => rw [hlower] at h; cases h
      | ok e =>
          rw [hlower] at h
          cases h
          exact ⟨liveIn, e, rfl, rfl, rfl⟩

/-- Numbering temporaries keeps what lowered code does. -/
theorem Lowered.execAll_renumber {id : ExprId} {lo hi : Nat} {lowered : List Inst}
    {value : Option Operand} (h : Lowered p id lo hi lowered value)
    {choose : List Bool → Float → Bool} {env : Env} {st : State}
    (hexec : execAll choose { env } lowered = .ok st) (base : Nat)
    (hempty : ∀ number, env (.temp number) = none) :
    plainAll (renumber base lowered) = true
      ∧ ∃ st', execAll choose { env } (renumber base lowered) = .ok st'
        ∧ (∀ name, st'.env (.user name none) = st.env (.user name none))
        ∧ st'.trace.definitions = st.trace.definitions := by
  have hrange := h.within.1
  have happart := tellsApart_numbering base fun number => (h.mem_definedTemps number).mpr
  have hstart : Relabelled (numbering base lowered) (Var.Within lo hi) { env } { env } := by
    refine ⟨?_, rfl, rfl, rfl⟩
    intro x _
    cases x with
    | temp number => exact (hempty _).trans (hempty number).symm
    | user name version => rfl
  obtain ⟨st', hexec', hrel⟩ := execAll_relabel happart lowered hrange hstart hexec
  refine ⟨?_, st', hexec', fun name => ?_, hrel.definitions⟩
  · rw [renumber_eq_relabel, plainAll_relabel]
    exact plainAll_of_over (hrange.mono Var.Within.plain)
  · exact hrel.env (x := .user name none) rfl

/-- A run that returns is a run through the body. -/
theorem eval_of_execute {entry name : String} {steps lo hi : Nat} {values : List Float} {r : Float}
    {stores : List Store} {lowered : List Inst} {value : Option Operand}
    (hfun : p.function? name = some f) (hlowered : Lowered p f.body lo hi lowered value)
    (hexec : Interpreter.execute ⟨p, entry, none⟩ steps name (values.map .scalar) =
      some ⟨.ok r, stores⟩) :
    ∃ height vars w v, Interpreter.bindArguments ⟨p, entry, none⟩ f (values.map .scalar) = .ok vars
      ∧ eval ⟨p, entry⟩ height f.body ⟨vars, []⟩ = some (.value v, w)
      ∧ resultOf ⟨p, entry⟩ f w.vars = .ok r ∧ w.stores = stores := by
  have hexecutes : Machine.Executes ⟨p, entry⟩ name (values.map .scalar) (.ok r) stores :=
    ⟨steps, _, hexec, rfl, rfl⟩
  obtain ⟨height, heval⟩ := Machine.evaluate_of_executes hexecutes
  unfold evaluate at heval
  simp only [hfun] at heval
  cases hargs : Interpreter.bindArguments ⟨p, entry, none⟩ f (values.map .scalar) with
  | error cause => simp only [hargs] at heval; cases heval
  | ok vars =>
      simp only [hargs] at heval
      cases hrun : evalRun ⟨p, entry⟩ height f ⟨vars, []⟩ with
      | none => simp only [hrun] at heval; cases heval
      | some pair =>
          obtain ⟨answer, w⟩ := pair
          cases answer with
          | value a => exact a.elim
          | ended result =>
              simp only [hrun] at heval
              cases heval
              obtain ⟨v, hbody, hresult⟩ := hlowered.evalRun_eq_ok (s := ⟨p, entry⟩) hrun
              exact ⟨height, vars, w, v, rfl, hbody, hresult, rfl⟩

/-- Where a run returns, the code built for the function comes to its end
as well, on the same arguments: the highest version of `result` has the
value that the run returns, and the values that source variables are given
are the scalars the run stores. -/
theorem execAll_build {entry name : String} {steps : Nat} {values : List Float} {r : Float}
    {stores : List Store} (hfun : p.function? name = some f)
    (hbuild : b.build p f = (.ok code, b')) (hunshared : p.Unshared (f.Uses p))
    (hexec : Interpreter.execute ⟨p, entry, none⟩ steps name (values.map .scalar) =
      some ⟨.ok r, stores⟩) :
    ∃ st, execAll truthy { env := Env.entry p (f.params.zip values) (some 0) } code = .ok st
      ∧ st.env (.user Program.resultName (some (highest Program.resultName code))) = some r
      ∧ st.trace.definitions = scalarStores stores := by
  obtain ⟨liveIn, e, hparams, hlower, rfl⟩ := build_eq_ok hbuild
  have hlowered := lowered_of_lowerBody hlower
  obtain ⟨height, vars, w, v, hargs, hbody, hresult, rfl⟩ := eval_of_execute hfun hlowered hexec
  obtain ⟨hlen, htracks⟩ := tracks_entry hunshared rfl
    (fun param hparam => .inl (List.mem_map_of_mem hparam)) hargs
  -- the code as it is lowered, numbered and renamed
  obtain ⟨st, hrun, hbehind, -⟩ :=
    hlowered.computes (s := ⟨p, entry⟩) hunshared (fun h => .inr h) hbody htracks
  obtain ⟨hplain, st₁, hrun₁, hcells, hdefs⟩ :=
    hlowered.execAll_renumber hrun b.temps fun _ => rfl
  have hstart := entry_eq_start (bound_of_paramNames hparams hlen).2
  have hmatches := matches_rename truthy hplain liveIn
    fun name => (bound p name (f.params.zip values)).getD 0
  rw [← hstart none, ← hstart (some 0), hrun₁] at hmatches
  cases hrun₂ : execAll truthy { env := Env.entry p (f.params.zip values) (some 0) }
      (rename (renumber b.temps e.code.insts) liveIn) with
  | error trace => rw [hrun₂] at hmatches; exact hmatches.elim
  | ok st₂ =>
      rw [hrun₂] at hmatches
      obtain ⟨hrelated, -⟩ := hmatches
      refine ⟨st₂, rfl, ?_, ?_⟩
      · rw [hrelated.at_highest hplain, hcells]
        exact hbehind.result hresult
      · rw [← Events.definitions_visible, hrelated.trace, hdefs]
        exact hbehind.definitions

end Whole

/-- `result = x ? x++ + x : x`, in which the right operand is pinned and
the arms are joined. -/
def doubling : Program where
  arena := { nodes := #[.var ⟨0⟩, .step .postInc (.scalar ⟨0⟩), .binary .add ⟨1⟩ ⟨0⟩,
    .ternary ⟨0⟩ ⟨2⟩ ⟨0⟩, .assign (.scalar ⟨1⟩) ⟨3⟩] }
  symbols := { entries := #[⟨"x", 1⟩, ⟨"result", 1⟩] }
  functions := (Functions.empty.register ⟨"double", [.scalar ⟨0⟩], ⟨4⟩⟩).2

/-- The function of the example. -/
def double : Function := ⟨"double", [.scalar ⟨0⟩], ⟨4⟩⟩

/-- Its code: the value of the parameter is copied before the increment in
the first arm. -/
def doubled : List Inst :=
  [.branch (.var (.user "x" (some 0)))
      [.assign (.temp 0) (.copy (.var (.user "x" (some 0)))),
        .assign (.temp 1) (.copy (.var (.user "x" (some 0)))),
        .assign (.user "x" (some 1)) (.binary .add (.var (.user "x" (some 0))) (.const 1.0)),
        .assign (.temp 2) (.binary .add (.var (.temp 1)) (.var (.temp 0)))]
      [.assign (.temp 3) (.copy (.var (.user "x" (some 0))))],
    .phi (.user "x" (some 2)) [.user "x" (some 1), .user "x" (some 0)],
    .phi (.user "result" (some 1)) [.temp 2, .temp 3]]

/-- The code of the example. -/
theorem build_double : Builder.build {} doubling double = (.ok doubled, ⟨4⟩) := by
  have hparams : paramNames doubling double.body double.params = .ok ["x"] := rfl
  unfold Builder.build
  rw [hparams, lowerBody_eq_lower]
  rfl

/-- No two variables of the example have one name. -/
theorem unshared_double : doubling.Unshared (double.Uses doubling) := by
  have hnames : ∀ {v : VarId} {name : String}, doubling.symbols.name? v = some name →
      v.index = 0 ∧ name = "x" ∨ v.index = 1 ∧ name = "result" := by
    intro v name h
    obtain ⟨sym, hget, rfl⟩ := Option.map_eq_some_iff.mp h
    have hlt : v.index < 2 := (Array.getElem?_eq_some_iff.mp hget).1
    unfold Symbols.get? at hget
    rcases (show v.index = 0 ∨ v.index = 1 by omega) with hindex | hindex
    · rw [hindex] at hget
      cases hget
      exact .inl ⟨hindex, rfl⟩
    · rw [hindex] at hget
      cases hget
      exact .inr ⟨hindex, rfl⟩
  intro v w name _ _ hv hw
  have hsame : v.index = w.index := by
    rcases hnames hv with ⟨hi, hname⟩ | ⟨hi, hname⟩ <;>
      rcases hnames hw with ⟨hj, hname'⟩ | ⟨hj, hname'⟩
    · rw [hi, hj]
    · exact absurd (hname.symm.trans hname') (by decide)
    · exact absurd (hname.symm.trans hname') (by decide)
    · rw [hi, hj]
  cases v
  cases w
  exact congrArg VarId.mk (UInt32.toNat_inj.mp hsame)

theorem execAll_build_double :
    Interpreter.execute ⟨doubling, Program.entryName, none⟩ 40 "double" [.scalar 3.0] =
      some ⟨.ok 6.0, [.scalar ⟨0⟩ "x" 4.0, .scalar ⟨1⟩ "result" 6.0]⟩
    ∧ ∃ st, execAll truthy { env := Env.entry doubling [(.scalar ⟨0⟩, 3.0)] (some 0) } doubled =
        .ok st
      ∧ st.env (.user "result" (some 1)) = some 6.0
      ∧ st.trace.definitions = [("x", some 4.0), ("result", some 6.0)] := by
  have hexec : Interpreter.execute ⟨doubling, Program.entryName, none⟩ 40 "double"
      ([3.0].map .scalar) =
        some ⟨.ok 6.0, [.scalar ⟨0⟩ "x" 4.0, .scalar ⟨1⟩ "result" 6.0]⟩ := rfl
  exact ⟨hexec, execAll_build (f := double) rfl build_double unshared_double hexec⟩

end SSA

end ExprGraph
