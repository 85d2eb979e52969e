/-
Two ways to bind arguments.

The host binds the parameters of a function from the first to the last. A
call binds them from the last to the first, as the values of its arguments
come off the stack. Whichever is bound last has the last word, so where two
parameters are one variable the host leaves it the last of their arguments,
and a call the first (`call_binds_as_host`). In everything else the two are
alike: when no parameter is repeated, they make the same variables.

# From the entry of a call

What a call passes is settled when its callee is entered: scalars are the
values its arguments have come to by then, arrays are copied then
(`Passes`). That the values lie on the stack in order is an induction over
the arguments, in which the phase of the call stays behind their positions
as long as only arrays lie between (`Passes.steps`).
-/
import ExprGraph.Proofs.Machine.Changes
import ExprGraph.Proofs.Machine.Refinement
import ExprGraph.Proofs.Machine.Trail

namespace ExprGraph

-- =============================================================== variables

/-- Variables are the same if they have the same contents. -/
theorem Frame.ext_contents {f g : Frame} (hscalars : ∀ var, f.scalar? var = g.scalar? var)
    (harrays : ∀ var, f.array? var = g.array? var) : f = g := by
  obtain ⟨scalars, arrays⟩ := f
  obtain ⟨scalars', arrays'⟩ := g
  obtain rfl : scalars = scalars' := Std.ExtTreeMap.ext_getElem? hscalars
  obtain rfl : arrays = arrays' := Std.ExtTreeMap.ext_getElem? harrays
  rfl

namespace Bound

/-- What is given to a scalar. -/
def scalar? (var : VarId) : Bound → Option Float
  | .scalar other value => if other = var then some value else none
  | .array .. => none

/-- What is given to an array. -/
def array? (var : VarId) : Bound → Option (Array Float)
  | .scalar .. => none
  | .array other values => if other = var then some values else none

variable {var : VarId} {b : Bound}

theorem param_of_scalar? {value : Float} (h : b.scalar? var = some value) :
    b.param = .scalar var := by
  cases b with
  | scalar other given =>
      obtain ⟨rfl, -⟩ := Option.ite_none_right_eq_some.mp h
      rfl
  | array => cases h

theorem param_of_array? {values : Array Float} (h : b.array? var = some values) :
    b.param = .array var := by
  cases b with
  | scalar => cases h
  | array other given =>
      obtain ⟨rfl, -⟩ := Option.ite_none_right_eq_some.mp h
      rfl

/-- The variables given, of which the first have the last word. -/
def frame (given : List Bound) : Frame :=
  given.foldr (fun b vars => vars.give b) {}

theorem scalar?_frame (given : List Bound) (var : VarId) :
    (frame given).scalar? var = given.findSome? (scalar? var) := by
  induction given with
  | nil => rfl
  | cons b given ih =>
      rw [List.findSome?_cons, ← ih]
      cases b with
      | scalar other value =>
          refine (Frame.scalar?_setScalar _ _ _ _).trans ?_
          rw [scalar?]
          split <;> rfl
      | array => rfl

theorem array?_frame (given : List Bound) (var : VarId) :
    (frame given).array? var = given.findSome? (array? var) := by
  induction given with
  | nil => rfl
  | cons b given ih =>
      rw [List.findSome?_cons, ← ih]
      cases b with
      | scalar => rfl
      | array other values =>
          refine (Frame.array?_putArray _ _ _ _).trans ?_
          rw [array?]
          split <;> rfl

/-- Of parameters that are told apart, only one is found. -/
theorem findSome?_reverse {α : Type} {look : Bound → Option α} {param : Param}
    (hlook : ∀ {b a}, look b = some a → b.param = param) {given : List Bound}
    (h : (given.map Bound.param).Nodup) : given.reverse.findSome? look = given.findSome? look := by
  induction given with
  | nil => rfl
  | cons b given ih =>
      obtain ⟨hfresh, hrest⟩ := List.nodup_cons.mp h
      rw [List.reverse_cons, List.findSome?_append, ih hrest, List.findSome?_cons]
      cases hb : look b with
      | none => simp [hb]
      | some a =>
          have hnone : given.findSome? look = none := by
            refine List.findSome?_eq_none_iff.mpr fun other hother => ?_
            refine Option.eq_none_iff_forall_ne_some.mpr fun a' ha' => hfresh ?_
            rw [List.map_cons] at h
            rw [hlook hb, ← hlook ha']
            exact List.mem_map_of_mem hother
          simp [hb, hnone]

/-- When no parameter is repeated, the order does not matter. -/
theorem frame_reverse {given : List Bound} (h : (given.map Bound.param).Nodup) :
    frame given.reverse = frame given := by
  refine Frame.ext_contents (fun var => ?_) fun var => ?_
  · rw [scalar?_frame, scalar?_frame, findSome?_reverse param_of_scalar? h]
  · rw [array?_frame, array?_frame, findSome?_reverse param_of_array? h]

end Bound

-- ========================================================= a call's arguments

/-- The value of an argument that is a scalar. -/
def Argument.value? : Argument → Option Float
  | .scalar value => some value
  | .array _ => none

namespace Machine

/-- The arguments of the call `id` that are left come to these: each scalar
is evaluated and leaves its value, and each array names one of the caller's,
declared with the length of the parameter, with these contents. -/
inductive Passes (s : Setting) (id : ExprId) (caller : Frame) :
    List (Nat × Param × ExprId) → List Argument → Machine → List Store → Machine → Prop where
  | nil (m : Machine) : Passes s id caller [] [] m [] m
  | scalar {rest : List (Nat × Param × ExprId)} {args : List Argument} {position : Nat}
      {var : VarId} {arg : ExprId} {value : Float} {m m₁ m₂ m₃ : Machine} {t t' : List Store} :
      m.descend (position + 1) arg = .ok m₁ → Steps s m₁ t m₂ → m₂.task = .expr id →
      m₂.phase = position + 1 → m₂.values = value :: m.values →
      Passes s id caller rest args m₂ t' m₃ →
      Passes s id caller ((position, .scalar var, arg) :: rest) (.scalar value :: args) m (t ++ t') m₃
  | array {rest : List (Nat × Param × ExprId)} {args : List Argument} {position : Nat}
      {var source : VarId} {arg : ExprId} {given wanted : Symbol} {values : Array Float}
      {m m₁ : Machine} {t : List Store} :
      s.program.expr? arg = some (.var source) → s.program.symbols.get? source = some given →
      s.program.symbols.get? var = some wanted → given.size = wanted.size →
      caller.snapshot source given.size = .ok values →
      Passes s id caller rest args m t m₁ →
      Passes s id caller ((position, .array var, arg) :: rest) (.array values :: args) m t m₁

section Calls

variable {s : Setting} {id : ExprId} {callee : NameId} {span : Span} {i : Invocation}
  {caller : Frame} {entries : List (Nat × Param × ExprId)} {args : List Argument}
  {m m₁ : Machine} {t : List Store}

theorem position_of_drop_positioned {k position : Nat} {param : Param} {arg : ExprId}
    {rest : List (Nat × Param × ExprId)}
    (h : (positioned i).drop k = (position, param, arg) :: rest) : position = k := by
  have hget : (positioned i)[k]? = some (position, param, arg) := by
    rw [← List.head?_drop, h, List.head?_cons]
  rw [positioned, List.getElem?_mapIdx, Option.map_eq_some_iff] at hget
  obtain ⟨pair, -, heq⟩ := hget
  exact (congrArg Prod.fst heq).symm

/-- A call goes down to its next scalar argument. -/
theorem step_argument {k : Nat} {arg : ExprId} (hnode : s.program.expr? id = some (.call callee span))
    (hresolve : resolve s callee span = .ok i) (htask : m.task = .expr id)
    (hphase : m.phase ≤ i.callee.arity) (hnext : i.callee.nextScalar? m.phase = some k)
    (harg : i.args[k]? = some arg) (henter : m.descend (k + 1) arg = .ok m₁) :
    m.step s = .ok (.running m₁ none) := by
  rw [step_of_node htask hnode]
  simp only [stepNode, stepCall, hresolve, ok_bind, if_pos (Nat.lt_succ_of_le hphase), hnext, harg,
    henter]
  rfl

/-- A call evaluates its arguments, and has their values on the stack, the
last on top. -/
theorem Passes.steps (hnode : s.program.expr? id = some (.call callee span))
    (hresolve : resolve s callee span = .ok i) (h : Passes s id caller entries args m t m₁) :
    ∀ k, (positioned i).drop k = entries → m.task = .expr id → m.phase ≤ k →
      m.phase ≤ i.callee.arity → i.callee.nextScalar? m.phase = i.callee.nextScalar? k →
      Steps s m t m₁ ∧ m₁.task = .expr id ∧ m₁.phase ≤ i.callee.arity
        ∧ i.callee.nextScalar? m₁.phase = none
        ∧ m₁.values = (args.filterMap Argument.value?).reverse ++ m.values := by
  have hlen := length_positioned (length_of_resolve hresolve)
  induction h with
  | nil m =>
      intro k hdrop htask hphase harity hsame
      have hge : i.callee.arity ≤ k := by
        rw [← hlen]
        exact List.drop_eq_nil_iff.mp hdrop
      exact ⟨.refl m, htask, harity, hsame.trans (nextScalar?_of_ge hge), rfl⟩
  | @scalar rest args position var arg value m m₁ m₂ m₃ t t' henter hsteps htask₂ hphase₂ hvalues _
      ih =>
      intro k hdrop htask hphase harity hsame
      obtain ⟨hparam, harg⟩ := getElem?_of_drop_positioned hdrop
      obtain rfl := position_of_drop_positioned hdrop
      have hk : position < i.callee.arity := (List.getElem?_eq_some_iff.mp hparam).1
      have hstep := step_argument hnode hresolve htask harity
        (hsame.trans (nextScalar?_at_scalar hparam rfl)) harg henter
      obtain ⟨hrest, htask₃, harity₃, hnext₃, hvalues₃⟩ := ih (position + 1)
        (drop_succ_positioned hdrop) htask₂ (Nat.le_of_eq hphase₂) (hphase₂ ▸ hk)
        (congrArg _ hphase₂)
      refine ⟨(Steps.step hstep hsteps).trans hrest, htask₃, harity₃, hnext₃, ?_⟩
      rw [hvalues₃, hvalues, List.filterMap_cons, Argument.value?, List.reverse_cons,
        List.append_assoc, List.singleton_append]
  | @array rest args position var source arg given wanted values m m₁ t _ _ _ _ _ _ ih =>
      intro k hdrop htask hphase harity hsame
      obtain ⟨hparam, -⟩ := getElem?_of_drop_positioned hdrop
      exact ih (k + 1) (drop_succ_positioned hdrop) htask (Nat.le_succ_of_le hphase) harity
        (hsame.trans (nextScalar?_at_array hparam rfl))

/-- The values come off the stack in the order in which parameters are
bound. -/
theorem Passes.bind {f : Function} (h : Passes s id caller entries args m t m₁) (D : Values) :
    Machine.bind s caller f entries.reverse {} ((args.filterMap Argument.value?).reverse ++ D)
      = .ok (Bound.frame (bounds (entries.map (·.2.1)) args), D) := by
  induction h generalizing D with
  | nil => rfl
  | @scalar rest args position var arg value m m₁ m₂ m₃ t t' _ _ _ _ _ _ ih =>
      rw [List.reverse_cons, bind_append, List.filterMap_cons, Argument.value?, List.reverse_cons,
        List.append_assoc, ih]
      rfl
  | @array rest args position var source arg given wanted values m m₁ t hvar hgiven hwanted hsize
      hvalues _ ih =>
      have hcontents : arrayArgument s caller f position arg var = .ok values := by
        simp only [arrayArgument, hvar, hgiven, hwanted, hsize, if_true]
        rw [← hsize]
        exact hvalues
      rw [List.reverse_cons, bind_append, List.filterMap_cons, Argument.value?, ih]
      simp only [ok_bind, Machine.bind, hcontents]
      rfl

end Calls

end Machine

namespace Interpreter

open Machine

/-- A call of a function evaluates its arguments and then enters the body
with the first of what is given to each variable, where a call by the host
enters it with the last. When no parameter is repeated, the variables are
the same. -/
theorem call_binds_as_host (i : Interpreter) {id : ExprId} {call : Invocation}
    {args : List Argument} {host caller : Frame} {m m₁ : Machine} {t : List Store}
    (hinvokes : Invokes i.setting id call) (hhost : i.bindArguments call.callee args = .ok host)
    (htask : m.task = .expr id) (hphase : m.phase = 0)
    (hpasses : Passes i.setting id caller (positioned call) args m t m₁)
    (hcaller : m₁.vars = .ok caller) :
    Steps i.setting m t m₁ ∧ ∃ called,
      m₁.step i.setting = (do
        return .quiet (← { m₁ with values := m.values }.enter call.callee called
          (call.callee.arity + 1)))
      ∧ (∀ var, called.scalar? var = (bounds call.callee.params args).findSome? (·.scalar? var)
        ∧ host.scalar? var = (bounds call.callee.params args).reverse.findSome? (·.scalar? var))
      ∧ (∀ var, called.array? var = (bounds call.callee.params args).findSome? (·.array? var)
        ∧ host.array? var = (bounds call.callee.params args).reverse.findSome? (·.array? var))
      ∧ (call.callee.params.Nodup → called = host) := by
  obtain ⟨callee, span, hnode, hresolve⟩ := hinvokes
  have hlen := length_of_resolve hresolve
  obtain ⟨hsteps, htask₁, hphase₁, hnext, hvalues⟩ := hpasses.steps hnode hresolve 0 rfl htask
    (Nat.le_of_eq hphase) (hphase ▸ Nat.zero_le _) (by rw [hphase])
  have hbind := hpasses.bind (f := call.callee) m.values
  have hparams : (positioned call).map (fun entry => entry.2.1) = call.callee.params :=
    params_positions hlen
  rw [hparams, ← hvalues] at hbind
  obtain ⟨hgiven, rfl, -⟩ := bounds_of_bindArguments hhost
  have hhost : (bounds call.callee.params args).foldl Frame.give {}
      = Bound.frame (bounds call.callee.params args).reverse := List.foldl_eq_foldr_reverse
  refine ⟨hsteps, Bound.frame (bounds call.callee.params args), ?_, fun var => ?_, fun var => ?_,
    fun hnodup => ?_⟩
  · have hinvoke : m₁.invoke i.setting call = { m₁ with values := m.values }.enter call.callee
        (Bound.frame (bounds call.callee.params args)) (call.callee.arity + 1) := by
      rw [invoke, hcaller, ok_bind]
      exact congrArg (· >>= _) hbind
    rw [step_of_node htask₁ hnode]
    simp only [stepNode, stepCall, hresolve, ok_bind, if_pos (Nat.lt_succ_of_le hphase₁), hnext,
      hinvoke]
  · rw [hhost]
    exact ⟨Bound.scalar?_frame _ var, Bound.scalar?_frame _ var⟩
  · rw [hhost]
    exact ⟨Bound.array?_frame _ var, Bound.array?_frame _ var⟩
  · rw [hhost]
    exact (Bound.frame_reverse (hgiven.symm ▸ hnodup)).symm

/-- `fill(3, cells)`, where `fill` has a scalar and an array of two. -/
def filling : Interpreter where
  program := {
    arena := {
      nodes := #[.number 3.0, .var ⟨2⟩, .call ⟨0⟩ ⟨0, 2⟩, .empty]
      lists := #[⟨0⟩, ⟨1⟩] }
    names := Names.ofTexts #["fill"]
    symbols := { entries := #[⟨"x", 1⟩, ⟨"ys", 2⟩, ⟨"cells", 2⟩] }
    functions := ((Functions.empty.register ⟨"main", [], ⟨2⟩⟩).2.register
      ⟨"fill", [.scalar ⟨0⟩, .array ⟨1⟩], ⟨3⟩⟩).2 }

/-- `fill` is entered with the variables that the host would enter it
with. -/
theorem call_binds_as_host_filling :
    ∃ (m : Machine) (host : Frame), filling.Reaches "main" [] [] m
      ∧ filling.bindArguments ⟨"fill", [.scalar ⟨0⟩, .array ⟨1⟩], ⟨3⟩⟩
          [.scalar 3.0, .array #[0.0, 0.0]] = .ok host
      ∧ m.step filling.setting = (do
        return .quiet (← { m with values := [] }.enter
          ⟨"fill", [.scalar ⟨0⟩, .array ⟨1⟩], ⟨3⟩⟩ host 3)) := by
  have hstarts : filling.Starts "main" [] ⟨"main", [], ⟨2⟩⟩ {} _ := ⟨rfl, rfl, rfl⟩
  have hinvokes : Invokes filling.setting ⟨2⟩
      ⟨"fill", ⟨"fill", [.scalar ⟨0⟩, .array ⟨1⟩], ⟨3⟩⟩, [⟨0⟩, ⟨1⟩]⟩ := ⟨⟨0⟩, ⟨0, 2⟩, rfl, rfl⟩
  -- the scalar is evaluated in one step, the array is not touched before
  have hscalar : Steps filling.setting
      ⟨.expr ⟨0⟩, 0, { entries := [⟨1, .expr ⟨2⟩⟩, ⟨1, .entry⟩] }, [], [⟨⟨"main", [], ⟨2⟩⟩, {}⟩]⟩
      (Option.none.toList ++ [])
      ⟨.expr ⟨2⟩, 1, { entries := [⟨1, .entry⟩] }, [3.0], [⟨⟨"main", [], ⟨2⟩⟩, {}⟩]⟩ :=
    .step rfl (.refl _)
  have hpasses : Passes filling.setting ⟨2⟩ {} [(0, .scalar ⟨0⟩, ⟨0⟩), (1, .array ⟨1⟩, ⟨1⟩)]
      [.scalar 3.0, .array #[0.0, 0.0]]
      ⟨.expr ⟨2⟩, 0, { entries := [⟨1, .entry⟩] }, [], [⟨⟨"main", [], ⟨2⟩⟩, {}⟩]⟩ _ _ :=
    .scalar rfl hscalar rfl rfl rfl (.array rfl rfl rfl rfl rfl (.nil _))
  obtain ⟨hsteps, called, hstep, -, -, hsame⟩ :=
    call_binds_as_host filling hinvokes rfl rfl rfl hpasses rfl
  rw [hsame (by decide)] at hstep
  exact ⟨_, _, hstarts.reaches_iff.mpr hsteps, rfl, hstep⟩

/-- `result = pick(1, 2)`, where both parameters of `pick` are `x`, and its
result is `x`. -/
def picking : Interpreter where
  program := {
    arena := {
      nodes := #[.var ⟨0⟩, .assign (.scalar ⟨1⟩) ⟨0⟩, .number 1.0, .number 2.0, .call ⟨0⟩ ⟨0, 2⟩,
        .assign (.scalar ⟨1⟩) ⟨4⟩]
      lists := #[⟨2⟩, ⟨3⟩] }
    names := Names.ofTexts #["pick"]
    symbols := { entries := #[⟨"x", 1⟩, ⟨"result", 1⟩] }
    functions := ((Functions.empty.register ⟨"main", [], ⟨5⟩⟩).2.register
      ⟨"pick", [.scalar ⟨0⟩, .scalar ⟨0⟩], ⟨1⟩⟩).2 }

/-- The host calls `pick` with its second argument, the program calls it
with its first. -/
theorem binds_apart_picking :
    (∃ (host called : Frame) (m : Machine) (F : List Activation),
      picking.bindArguments ⟨"pick", [.scalar ⟨0⟩, .scalar ⟨0⟩], ⟨1⟩⟩ [.scalar 1.0, .scalar 2.0]
          = .ok host
        ∧ picking.Reaches "main" [] [] m ∧ m.task = .expr ⟨1⟩
        ∧ m.frames = ⟨⟨"pick", [.scalar ⟨0⟩, .scalar ⟨0⟩], ⟨1⟩⟩, called⟩ :: F ∧ called ≠ host)
    ∧ picking.Ends "pick" [.scalar 1.0, .scalar 2.0] ⟨.ok 2.0, [.scalar ⟨1⟩ "result" 2.0]⟩
    ∧ picking.Ends "main" []
        ⟨.ok 1.0, [.scalar ⟨1⟩ "result" 1.0, .scalar ⟨1⟩ "result" 1.0]⟩ := by
  refine ⟨?_, ⟨20, rfl⟩, ⟨20, rfl⟩⟩
  have hstarts : picking.Starts "main" [] ⟨"main", [], ⟨5⟩⟩ {} _ := ⟨rfl, rfl, rfl⟩
  have hargs := ((((hstarts.reaches.step rfl).step rfl).step rfl).step rfl).step rfl
  have hbody := hargs.step rfl
  refine ⟨_, _, _, _, rfl, hbody, rfl, rfl, fun hsame => ?_⟩
  have hvalue : some (1.0 : Float) = some 2.0 := congrArg (Frame.scalar? · ⟨0⟩) hsame
  exact absurd (congrArg (· == some 2.0) hvalue) (by decide)

end Interpreter

end ExprGraph
