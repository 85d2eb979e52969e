/-
The arrays a call takes.

When the scalar arguments of a call have left their values, the arrays are
looked at, and only then does the call fail or go into the body of its
callee. An argument is taken for an array parameter when it is a bare
variable of the declared length of the parameter (`Program.Takes`). Nothing
asks whether the variable is an array, so where the parameter has a single
element, a scalar is taken for it and reads as zero (`lax`). For parameters
that are arrays, what is taken are the arrays of their length.

# Binding

Binding succeeds or fails with the first argument that is not taken, by
induction over the parameters (`bind_cases`): the values of the scalars
suffice, since the call holds exactly these, and the zeros of an untouched
array can always be had, since a declared length is small. As parameters are
bound from the last to the first, an array that is repeated keeps what its
first parameter was given (`array?_bind`).
-/
import ExprGraph.Proofs.Machine.Arguments
import ExprGraph.Proofs.Machine.Faults

namespace ExprGraph

-- ========================================================= what a call takes

/-- Variables that are read and arrays that are passed are declared. -/
structure Program.Declares (p : Program) : Prop where
  reads : ∀ {id var}, p.expr? id = some (.var var) → ∃ sym, p.symbols.get? var = some sym
  arrays : ∀ {name f var}, p.function? name = some f → .array var ∈ f.params →
    ∃ sym, p.symbols.get? var = some sym

/-- The argument is a bare variable, with the declared length of the array
parameter. -/
def Program.Takes (p : Program) (array : VarId) (arg : ExprId) : Prop :=
  ∃ source given wanted, p.expr? arg = some (.var source) ∧ p.symbols.get? source = some given
    ∧ p.symbols.get? array = some wanted ∧ given.size = wanted.size

/-- The argument is a bare variable that is an array, with the declared
length of the array parameter. -/
def Program.TakesArray (p : Program) (array : VarId) (arg : ExprId) : Prop :=
  ∃ source given wanted, p.expr? arg = some (.var source) ∧ p.symbols.get? source = some given
    ∧ given.isArray = true ∧ p.symbols.get? array = some wanted ∧ given.size = wanted.size

/-- The argument is taken for the parameter; those for scalars always
are. -/
def Program.Admits (p : Program) : Param → ExprId → Prop
  | .scalar _, _ => True
  | .array array, arg => p.Takes array arg

@[simp] theorem Program.admits_scalar (p : Program) (var : VarId) (arg : ExprId) :
    p.Admits (.scalar var) arg ↔ True := .rfl

@[simp] theorem Program.admits_array (p : Program) (array : VarId) (arg : ExprId) :
    p.Admits (.array array) arg ↔ p.Takes array arg := .rfl

/-- What an array argument comes to: the contents of the caller's array, or
zeros if it was never touched. -/
def Program.Copies (p : Program) (caller : Frame) (arg : ExprId) (contents : Array Float) : Prop :=
  ∃ source given, p.expr? arg = some (.var source) ∧ p.symbols.get? source = some given
    ∧ contents = (caller.array? source).getD (Array.replicate given.size 0.0)

/-- For a parameter that is an array, arrays are taken. -/
theorem Program.takesArray_iff {p : Program} {array : VarId} {arg : ExprId} {sym : Symbol}
    (hsym : p.symbols.get? array = some sym) (harray : sym.isArray = true) :
    p.TakesArray array arg ↔ p.Takes array arg := by
  constructor
  · rintro ⟨source, given, wanted, hvar, hgiven, -, hwanted, hsize⟩
    exact ⟨source, given, wanted, hvar, hgiven, hwanted, hsize⟩
  · rintro ⟨source, given, wanted, hvar, hgiven, hwanted, hsize⟩
    rw [hsym] at hwanted
    cases hwanted
    refine ⟨source, given, sym, hvar, hgiven, ?_, hsym, hsize⟩
    rw [Symbol.isArray_iff, hsize]
    exact sym.isArray_iff.mp harray

/-- There are zeros for every declared length. -/
theorem Frame.zeros_size (sym : Symbol) : zeros sym.size = .ok (Array.replicate sym.size 0.0) := by
  have hlt : sym.size < 2 ^ 32 := sym.len.toNat_lt
  have hroom : sym.size * elementBytes ≤ maxBytes := by
    unfold elementBytes maxBytes
    rw [Nat.pow_eq]
    omega
  exact if_pos hroom

theorem Frame.snapshot_size (f : Frame) (var : VarId) (sym : Symbol) :
    f.snapshot var sym.size = .ok ((f.array? var).getD (Array.replicate sym.size 0.0)) := by
  unfold snapshot
  cases f.array? var with
  | some values => rfl
  | none => exact zeros_size sym

namespace Machine

variable {s : Setting} {caller : Frame} {f : Function} {position : Nat} {arg : ExprId}
  {array : VarId}

theorem arrayArgument_of_takes (caller : Frame) (f : Function) (position : Nat)
    (h : s.program.Takes array arg) :
    ∃ contents, arrayArgument s caller f position arg array = .ok contents
      ∧ s.program.Copies caller arg contents := by
  obtain ⟨source, given, wanted, hvar, hgiven, hwanted, hsize⟩ := h
  refine ⟨_, ?_, source, given, hvar, hgiven, rfl⟩
  simp only [arrayArgument, hvar, hgiven, hwanted, if_pos hsize]
  exact caller.snapshot_size source given

theorem arrayArgument_of_not_takes (caller : Frame) (f : Function) (position : Nat)
    (hdeclares : s.program.Declares) (harray : ∃ sym, s.program.symbols.get? array = some sym)
    (h : ¬s.program.Takes array arg) :
    ∃ cause, arrayArgument s caller f position arg array = .error cause
      ∧ cause.category = .arity := by
  unfold arrayArgument
  split
  · rename_i source hvar
    obtain ⟨given, hgiven⟩ := hdeclares.reads hvar
    obtain ⟨wanted, hwanted⟩ := harray
    have hsize : given.size ≠ wanted.size :=
      fun hsize => h ⟨source, given, wanted, hvar, hgiven, hwanted, hsize⟩
    simp only [hgiven, hwanted, if_neg hsize]
    exact ⟨_, rfl, rfl⟩
  · exact ⟨_, rfl, rfl⟩

-- ================================================================== binding

/-- Arguments are bound if those for arrays are taken, and else binding
fails. -/
theorem bind_cases (hdeclares : s.program.Declares) {entries : List (Nat × Param × ExprId)}
    (harrays : ∀ entry ∈ entries, ∀ array, entry.2.1 = .array array →
      ∃ sym, s.program.symbols.get? array = some sym) :
    ∀ {vars : Frame} {vs : Values} (D : Values),
      vs.length = entries.countP (fun entry => !entry.2.1.isArray) →
      ((∀ entry ∈ entries, s.program.Admits entry.2.1 entry.2.2)
        ∧ ∃ vars', Machine.bind s caller f entries vars (vs ++ D) = .ok (vars', D))
      ∨ (¬(∀ entry ∈ entries, s.program.Admits entry.2.1 entry.2.2)
        ∧ ∃ cause, Machine.bind s caller f entries vars (vs ++ D) = .error cause
          ∧ cause.category = .arity) := by
  induction entries with
  | nil =>
      intro vars vs D hlen
      obtain rfl := List.length_eq_zero_iff.mp hlen
      exact .inl ⟨by nofun, vars, rfl⟩
  | cons entry entries ih =>
      intro vars vs D hlen
      obtain ⟨hfirst, hrest⟩ := List.forall_mem_cons.mp harrays
      obtain ⟨position, param, arg⟩ := entry
      rw [List.forall_mem_cons]
      cases param with
      | scalar var =>
          rw [List.countP_cons_of_pos rfl] at hlen
          simp only [Program.admits_scalar, true_and]
          cases vs with
          | nil => cases hlen
          | cons v vs => exact ih hrest D (Nat.succ.inj hlen)
      | array array =>
          rw [List.countP_cons_of_neg Bool.false_ne_true] at hlen
          simp only [Program.admits_array, Machine.bind]
          by_cases htakes : s.program.Takes array arg
          · obtain ⟨contents, hcontents, -⟩ := arrayArgument_of_takes caller f position htakes
            simp only [htakes, true_and, hcontents, ok_bind]
            exact ih hrest D hlen
          · obtain ⟨cause, hcause, harity⟩ :=
              arrayArgument_of_not_takes caller f position hdeclares (hfirst array rfl) htakes
            refine .inr ⟨fun h => htakes h.1, cause, ?_, harity⟩
            rw [hcause, error_bind]

/-- Binding leaves an array alone that is no parameter. -/
theorem array?_bind_of_not_mem {entries : List (Nat × Param × ExprId)}
    (hother : ∀ entry ∈ entries, entry.2.1 ≠ .array array) :
    ∀ {vars vars' : Frame} {values values' : Values},
      Machine.bind s caller f entries vars values = .ok (vars', values') →
      vars'.array? array = vars.array? array := by
  induction entries with
  | nil =>
      intro vars vars' values values' h
      cases h
      rfl
  | cons entry entries ih =>
      intro vars vars' values values' h
      obtain ⟨hfirst, hrest⟩ := List.forall_mem_cons.mp hother
      obtain ⟨position, param, arg⟩ := entry
      cases param with
      | scalar var =>
          obtain ⟨⟨value, values⟩, -, h⟩ := bind_eq_ok.mp h
          exact (ih hrest h).trans (Frame.array?_setScalar vars var array value)
      | array var =>
          obtain ⟨contents, -, h⟩ := bind_eq_ok.mp h
          rw [ih hrest h, Frame.array?_putArray,
            if_neg fun heq => hfirst (congrArg Param.array heq)]

/-- The parameter that is bound last has the last word on its array. -/
theorem array?_bind {front back : List (Nat × Param × ExprId)} {vars vars' : Frame}
    {values values' : Values} (htakes : s.program.Takes array arg)
    (hback : ∀ entry ∈ back, entry.2.1 ≠ .array array)
    (h : Machine.bind s caller f (front ++ (position, .array array, arg) :: back) vars values
      = .ok (vars', values')) :
    ∃ contents, s.program.Copies caller arg contents ∧ vars'.array? array = some contents := by
  obtain ⟨contents, hcontents, hcopies⟩ := arrayArgument_of_takes caller f position htakes
  refine ⟨contents, hcopies, ?_⟩
  rw [bind_append] at h
  obtain ⟨⟨bound, rest⟩, -, h⟩ := bind_eq_ok.mp h
  simp only [Machine.bind, hcontents, ok_bind] at h
  rw [array?_bind_of_not_mem hback h, Frame.array?_putArray, if_pos rfl]

-- =================================================================== calls

/-- The call passes this argument to an array parameter. -/
structure Invocation.PassesArray (i : Invocation) (position : Nat) (array : VarId)
    (arg : ExprId) : Prop where
  param : i.callee.params[position]? = some (.array array)
  arg : i.args[position]? = some arg

/-- The call is at work, and all its scalar arguments have left their
values. -/
structure Invocation.Ready (i : Invocation) (id : ExprId) (m : Machine) : Prop where
  task : m.task = .expr id
  phase : m.phase ≤ i.callee.arity
  scalars : i.callee.nextScalar? m.phase = none

/-- The next step enters the body of a function, unless too much waits for
it. -/
def GoesInto (s : Setting) (m : Machine) (f : Function) : Prop :=
  (∃ m' vars, m.step s = .ok (.running m' none) ∧ m'.task = .expr f.body ∧ m'.phase = 0
      ∧ m'.frames = ⟨f, vars⟩ :: m.frames)
    ∨ ∃ limit, m.agenda.limit = some limit ∧ m.step s = .error (.depthLimit limit)

section Calls

variable {id : ExprId} {i : Invocation} {m : Machine}

theorem getElem?_positioned_iff {k : Nat} {param : Param} :
    (positioned i)[k]? = some (position, param, arg)
      ↔ position = k ∧ i.callee.params[k]? = some param ∧ i.args[k]? = some arg := by
  rw [positioned, List.getElem?_mapIdx, Option.map_eq_some_iff]
  constructor
  · rintro ⟨pair, hpair, heq⟩
    cases heq
    exact ⟨rfl, List.getElem?_zip_eq_some.mp hpair⟩
  · rintro ⟨rfl, hparam, harg⟩
    exact ⟨(param, arg), List.getElem?_zip_eq_some.mpr ⟨hparam, harg⟩, rfl⟩

/-- All arguments are taken if those for arrays are. -/
theorem admits_bindings_iff {p : Program} :
    (∀ entry ∈ bindings i, p.Admits entry.2.1 entry.2.2)
      ↔ ∀ k array arg, i.PassesArray k array arg → p.Takes array arg := by
  constructor
  · intro h k array arg hpasses
    have hget : (positioned i)[k]? = some (k, .array array, arg) :=
      getElem?_positioned_iff.mpr ⟨rfl, hpasses.param, hpasses.arg⟩
    exact h _ (List.mem_reverse.mpr (List.mem_of_getElem? hget))
  · rintro h ⟨position, param, arg⟩ hmem
    obtain ⟨k, hget⟩ := List.mem_iff_getElem?.mp (List.mem_reverse.mp hmem)
    obtain ⟨-, hparam, harg⟩ := getElem?_positioned_iff.mp hget
    cases param with
    | scalar var => trivial
    | array array => exact h k array arg ⟨hparam, harg⟩

theorem declared_bindings (hdeclares : s.program.Declares) (hinvokes : Invokes s id i) :
    ∀ entry ∈ bindings i, ∀ array, entry.2.1 = .array array →
      ∃ sym, s.program.symbols.get? array = some sym := by
  rintro ⟨position, param, arg⟩ hmem array rfl
  obtain ⟨k, hget⟩ := List.mem_iff_getElem?.mp (List.mem_reverse.mp hmem)
  obtain ⟨-, hparam, -⟩ := getElem?_positioned_iff.mp hget
  exact hdeclares.arrays hinvokes.registered (List.mem_of_getElem? hparam)

/-- The first parameter of an array is the last to be bound. -/
theorem bindings_of_first {k : Nat} (hpasses : i.PassesArray k array arg)
    (hfirst : ∀ j < k, ∀ arg', ¬i.PassesArray j array arg') :
    ∃ front back, bindings i = front ++ (k, .array array, arg) :: back
      ∧ ∀ entry ∈ back, entry.2.1 ≠ .array array := by
  have hget : (positioned i)[k]? = some (k, .array array, arg) :=
    getElem?_positioned_iff.mpr ⟨rfl, hpasses.param, hpasses.arg⟩
  obtain ⟨hlt, hentry⟩ := List.getElem?_eq_some_iff.mp hget
  refine ⟨((positioned i).drop (k + 1)).reverse, ((positioned i).take k).reverse, ?_, ?_⟩
  · have hsplit : positioned i
        = (positioned i).take k ++ (k, .array array, arg) :: (positioned i).drop (k + 1) := by
      rw [← hentry, ← List.drop_eq_getElem_cons hlt, List.take_append_drop]
    show (positioned i).reverse = _
    conv => lhs; rw [hsplit]
    rw [List.reverse_append, List.reverse_cons, List.append_assoc, List.singleton_append]
  · rintro ⟨position, param, arg'⟩ hmem rfl
    obtain ⟨j, hj⟩ := List.mem_iff_getElem?.mp (List.mem_reverse.mp hmem)
    rw [List.getElem?_take, Option.ite_none_right_eq_some] at hj
    obtain ⟨hlt, hget⟩ := hj
    obtain ⟨-, hparam, harg⟩ := getElem?_positioned_iff.mp hget
    exact hfirst j hlt arg' ⟨hparam, harg⟩

/-- A body is entered unless the limit is reached. -/
theorem enter_cases (m : Machine) (f : Function) (vars : Frame) (resume : Nat) :
    (∃ m', m.enter f vars resume = .ok m')
      ∨ ∃ limit, m.agenda.limit = some limit
        ∧ m.enter f vars resume = .error (.depthLimit limit) := by
  unfold enter Agenda.push Agenda.overflow
  by_cases hroom : m.agenda.hasRoom = true
  · rw [if_pos hroom]
    exact .inl ⟨_, rfl⟩
  · rw [if_neg hroom]
    unfold Agenda.hasRoom at hroom
    cases hlimit : m.agenda.limit with
    | none => simp [hlimit] at hroom
    | some limit => exact .inr ⟨limit, rfl, rfl⟩

theorem Invocation.Ready.step (hready : i.Ready id m) (hinvokes : Invokes s id i) :
    m.step s = (do return .quiet (← m.invoke s i)) := by
  obtain ⟨callee, span, hnode, hresolve⟩ := hinvokes
  rw [step_of_node hready.task hnode]
  simp only [stepNode, stepCall, hresolve, ok_bind, if_pos (Nat.lt_succ_of_le hready.phase),
    hready.scalars]

/-- The call takes its arguments and goes into the callee, or fails. -/
theorem Invocation.Ready.cases (hready : i.Ready id m) (hdeclares : s.program.Declares)
    (hinvokes : Invokes s id i) (hcaller : m.vars = .ok caller) {vs D : Values}
    (hvalues : m.values = vs ++ D)
    (hlen : vs.length = (bindings i).countP fun entry => !entry.2.1.isArray) :
    ((∀ k array arg, i.PassesArray k array arg → s.program.Takes array arg)
        ∧ ∃ vars, Machine.bind s caller i.callee (bindings i) {} m.values = .ok (vars, D)
          ∧ m.step s = (do
            return .quiet (← { m with values := D }.enter i.callee vars (i.callee.arity + 1))))
      ∨ (¬(∀ k array arg, i.PassesArray k array arg → s.program.Takes array arg)
        ∧ ∃ cause, m.step s = .error cause ∧ cause.category = .arity) := by
  rw [hready.step hinvokes, ← admits_bindings_iff, invoke, hcaller, ok_bind, hvalues]
  rcases bind_cases hdeclares (declared_bindings hdeclares hinvokes) D hlen with
    ⟨hadmits, vars, hbind⟩ | ⟨hnot, cause, hbind, harity⟩
  · refine .inl ⟨hadmits, vars, hbind, ?_⟩
    rw [hbind, ok_bind]
  · refine .inr ⟨hnot, cause, ?_, harity⟩
    rw [hbind, error_bind, error_bind]

/-- The call goes into its callee exactly if its arguments are taken. -/
theorem Invocation.Ready.goesInto_iff (hready : i.Ready id m) (hdeclares : s.program.Declares)
    (hinvokes : Invokes s id i) (hcaller : m.vars = .ok caller) {vs D : Values}
    (hvalues : m.values = vs ++ D)
    (hlen : vs.length = (bindings i).countP fun entry => !entry.2.1.isArray) :
    m.GoesInto s i.callee
      ↔ ∀ k array arg, i.PassesArray k array arg → s.program.Takes array arg := by
  rcases hready.cases hdeclares hinvokes hcaller hvalues hlen with
    ⟨htakes, vars, -, hstep⟩ | ⟨hnot, cause, hstep, harity⟩
  · refine iff_of_true ?_ htakes
    rcases enter_cases { m with values := D } i.callee vars (i.callee.arity + 1) with
      ⟨m', henter⟩ | ⟨limit, hlimit, henter⟩
    · obtain ⟨agenda, -, rfl⟩ := enter_inv henter
      rw [henter] at hstep
      exact .inl ⟨_, vars, hstep, rfl, rfl, rfl⟩
    · rw [henter] at hstep
      exact .inr ⟨limit, hlimit, hstep⟩
  · refine iff_of_false ?_ hnot
    rintro (⟨m', vars, hrun, -⟩ | ⟨limit, -, hfail⟩)
    · rw [hstep] at hrun
      cases hrun
    · rw [hstep] at hfail
      cases hfail
      cases harity

end Calls

end Machine

namespace Interpreter

open Machine

variable {i : Interpreter} {name : String} {args : List Argument} {t : List Store}
  {m : Machine} {id : ExprId} {call : Invocation}

theorem Reaches.vars (h : i.Reaches name args t m) : ∃ caller, m.vars = .ok caller := by
  unfold Machine.vars
  cases hframes : m.frames with
  | nil => exact absurd hframes h.calls
  | cons top rest => exact ⟨top.vars, rfl⟩

/-- A call whose scalar arguments have left their values holds one value
for each. -/
theorem Reaches.values_of_ready (h : i.Reaches name args t m) (hinvokes : Invokes i.setting id call)
    (hready : call.Ready id m) :
    ∃ vs D, m.values = vs ++ D
      ∧ vs.length = (bindings call).countP fun entry => !entry.2.1.isArray := by
  obtain ⟨callee, span, hnode, hresolve⟩ := hinvokes
  rcases h.inside_or_returns with ⟨f, vars, hinside⟩ | hreturns
  · obtain ⟨id', phase, agenda, vs, D, fs, F, rfl, hholds⟩ := hinside.at_work
    cases hready.task
    have hheld := hholds.held hnode
    rw [held_call hresolve hready.phase,
      Function.scalarsBefore_of_nextScalar?_none hready.scalars] at hheld
    simp only [Option.some.injEq, Prod.mk.injEq] at hheld
    refine ⟨vs, D, rfl, ?_⟩
    rw [countP_bindings (length_of_resolve hresolve) fun param => !param.isArray]
    exact hheld.1.symm
  · have htask := hreturns.task
    rw [hready.task] at htask
    cases htask

/-- A call whose scalar arguments have left their values goes into the body
of its callee if and only if each array parameter is passed a bare variable
of its declared length; where the parameters are arrays, the variables then
are arrays as well. On entry an array parameter has the contents that the
caller's array has at this point; of several that are one array, the first
has the last word. If an argument is not taken, the run ends there with an
arity fault, and the callee has stored nothing. -/
theorem call_takes_arrays (hdeclares : i.program.Declares) (hreaches : i.Reaches name args t m)
    (hinvokes : Invokes i.setting id call) (hready : call.Ready id m) :
    ∃ caller, m.vars = .ok caller
      ∧ (m.GoesInto i.setting call.callee
        ↔ ∀ k array arg, call.PassesArray k array arg → i.program.Takes array arg)
      ∧ ((∀ k array arg, call.PassesArray k array arg →
            ∃ sym, i.program.symbols.get? array = some sym ∧ sym.isArray = true) →
          (m.GoesInto i.setting call.callee
            ↔ ∀ k array arg, call.PassesArray k array arg → i.program.TakesArray array arg))
      ∧ (∀ m', m.step i.setting = .ok (.running m' none) →
          ∃ vars, m'.frames = ⟨call.callee, vars⟩ :: m.frames
            ∧ ∀ k array arg, call.PassesArray k array arg →
              (∀ j < k, ∀ arg', ¬call.PassesArray j array arg') →
              ∃ contents, i.program.Copies caller arg contents
                ∧ vars.array? array = some contents)
      ∧ (¬(∀ k array arg, call.PassesArray k array arg → i.program.Takes array arg) →
          ∃ cause, cause.category = .arity
            ∧ i.Ends name args ⟨.error ⟨cause, m.site⟩, t⟩) := by
  obtain ⟨caller, hcaller⟩ := hreaches.vars
  obtain ⟨vs, D, hvalues, hlen⟩ := hreaches.values_of_ready hinvokes hready
  have hgoes := hready.goesInto_iff hdeclares hinvokes hcaller hvalues hlen
  refine ⟨caller, hcaller, hgoes, fun harrays => hgoes.trans ?_, fun m' hrun => ?_, fun hnot => ?_⟩
  · refine forall_congr' fun k => forall_congr' fun array => forall_congr' fun arg =>
      forall_congr' fun hpasses => ?_
    obtain ⟨sym, hsym, harray⟩ := harrays k array arg hpasses
    exact (Program.takesArray_iff hsym harray).symm
  · rcases hready.cases hdeclares hinvokes hcaller hvalues hlen with
      ⟨htakes, vars, hbind, hstep⟩ | ⟨-, cause, hstep, -⟩
    · rw [hstep] at hrun
      obtain ⟨agenda, -, rfl⟩ := enter_inv (quiet_inv hrun)
      refine ⟨vars, rfl, fun k array arg hpasses hfirst => ?_⟩
      obtain ⟨front, back, hsplit, hback⟩ := bindings_of_first hpasses hfirst
      rw [hsplit] at hbind
      exact array?_bind (htakes k array arg hpasses) hback hbind
    · rw [hstep] at hrun
      cases hrun
  · rcases hready.cases hdeclares hinvokes hcaller hvalues hlen with
      ⟨htakes, -⟩ | ⟨-, cause, hstep, harity⟩
    · exact absurd htakes hnot
    · exact ⟨cause, harity, hreaches.ends (.inl ⟨cause, hstep, rfl⟩)⟩

theorem declares_filling : filling.program.Declares where
  reads {id var} h := by
    have hmem : Expr.var var ∈ filling.program.arena.nodes := Array.mem_of_getElem? h
    obtain rfl : var = ⟨2⟩ := by simpa [filling] using hmem
    exact ⟨_, rfl⟩
  arrays {name f var} hfound hparam := by
    rcases Functions.register_cases hfound with ⟨-, rfl⟩ | hfound
    · obtain rfl : var = ⟨1⟩ := by simpa using hparam
      exact ⟨_, rfl⟩
    · rcases Functions.register_cases hfound with ⟨-, rfl⟩ | hfound
      · cases hparam
      · cases hfound

/-- `fill` takes `cells`, which was never touched, as two zeros. -/
theorem call_takes_arrays_filling :
    ∃ (m m' : Machine) (vars : Frame), filling.Reaches "main" [] [] m
      ∧ m.step filling.setting = .ok (.running m' none)
      ∧ m'.frames = ⟨⟨"fill", [.scalar ⟨0⟩, .array ⟨1⟩], ⟨3⟩⟩, vars⟩ :: m.frames
      ∧ vars.array? ⟨1⟩ = some #[0.0, 0.0] := by
  have hstarts : filling.Starts "main" [] ⟨"main", [], ⟨2⟩⟩ {} _ := ⟨rfl, rfl, rfl⟩
  have hreaches := (hstarts.reaches.step rfl).step rfl
  have hinvokes : Invokes filling.setting ⟨2⟩
      ⟨"fill", ⟨"fill", [.scalar ⟨0⟩, .array ⟨1⟩], ⟨3⟩⟩, [⟨0⟩, ⟨1⟩]⟩ := ⟨⟨0⟩, ⟨0, 2⟩, rfl, rfl⟩
  obtain ⟨caller, hcaller, -, -, hcopies, -⟩ :=
    call_takes_arrays declares_filling hreaches hinvokes ⟨rfl, by decide, rfl⟩
  cases hcaller
  obtain ⟨vars, hframes, hcontents⟩ := hcopies _ rfl
  obtain ⟨contents, ⟨source, given, hvar, hgiven, rfl⟩, hcontents⟩ := hcontents 1 ⟨1⟩ ⟨1⟩ ⟨rfl, rfl⟩
    fun j hj arg hpasses => by
      obtain rfl : j = 0 := Nat.lt_one_iff.mp hj
      cases hpasses.param
  cases hvar
  cases hgiven
  exact ⟨_, _, vars, hreaches, rfl, hframes, hcontents⟩

/-- `x = 5; result = first(x)`, where `first` has an array of one element,
and its result is that element. -/
def lax : Interpreter where
  program := {
    arena := {
      nodes := #[.number 0.0, .index ⟨1⟩ ⟨0⟩, .assign (.scalar ⟨2⟩) ⟨1⟩, .number 5.0,
        .assign (.scalar ⟨0⟩) ⟨3⟩, .var ⟨0⟩, .call ⟨0⟩ ⟨0, 1⟩, .assign (.scalar ⟨2⟩) ⟨6⟩,
        .seq ⟨4⟩ ⟨7⟩]
      lists := #[⟨5⟩] }
    names := Names.ofTexts #["first"]
    symbols := { entries := #[⟨"x", 1⟩, ⟨"a", 1⟩, ⟨"result", 1⟩] }
    functions := ((Functions.empty.register ⟨"main", [], ⟨8⟩⟩).2.register
      ⟨"first", [.array ⟨1⟩], ⟨2⟩⟩).2 }

/-- `first` takes `x`, which is a scalar and is 5, and finds zero in it. -/
theorem takes_scalar_lax :
    lax.program.Declares
    ∧ (∃ (m : Machine) (call : Invocation), lax.Reaches "main" [] [.scalar ⟨0⟩ "x" 5.0] m
      ∧ Invokes lax.setting ⟨6⟩ call ∧ call.Ready ⟨6⟩ m ∧ m.GoesInto lax.setting call.callee
      ∧ ¬∀ k array arg, call.PassesArray k array arg → lax.program.TakesArray array arg)
    ∧ lax.Ends "main" [] ⟨.ok 0.0,
        [.scalar ⟨0⟩ "x" 5.0, .scalar ⟨2⟩ "result" 0.0, .scalar ⟨2⟩ "result" 0.0]⟩ := by
  refine ⟨⟨fun {id var} h => ?_, fun {name f var} hfound hparam => ?_⟩, ?_, ⟨40, rfl⟩⟩
  · have hmem : Expr.var var ∈ lax.program.arena.nodes := Array.mem_of_getElem? h
    obtain rfl : var = ⟨0⟩ := by simpa [lax] using hmem
    exact ⟨_, rfl⟩
  · rcases Functions.register_cases hfound with ⟨-, rfl⟩ | hfound
    · obtain rfl : var = ⟨1⟩ := by simpa using hparam
      exact ⟨_, rfl⟩
    · rcases Functions.register_cases hfound with ⟨-, rfl⟩ | hfound
      · cases hparam
      · cases hfound
  · have hstarts : lax.Starts "main" [] ⟨"main", [], ⟨8⟩⟩ {} _ := ⟨rfl, rfl, rfl⟩
    -- the assignment to `x` takes the first steps
    have hassigned := (((hstarts.reaches.step rfl).step rfl).step rfl).step rfl
    have hreaches := (hassigned.step rfl).step rfl
    refine ⟨_, ⟨"first", ⟨"first", [.array ⟨1⟩], ⟨2⟩⟩, [⟨5⟩]⟩, hreaches, ⟨⟨0⟩, ⟨0, 1⟩, rfl, rfl⟩,
      ⟨rfl, by decide, rfl⟩, .inl ⟨_, _, rfl, rfl, rfl, rfl⟩, fun htakes => ?_⟩
    obtain ⟨source, given, wanted, hvar, hgiven, harray, -⟩ := htakes 0 ⟨1⟩ ⟨5⟩ ⟨rfl, rfl⟩
    cases hvar
    cases hgiven
    cases harray

end Interpreter

end ExprGraph
