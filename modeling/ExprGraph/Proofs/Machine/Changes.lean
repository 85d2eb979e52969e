/-
What a step does to the variables of calls.

A step brings an array of the latest call into being, or makes one store
on the variables of the latest call, or enters a call, or leaves one; or
it leaves all variables alone (`Change`). It does one of these at most,
so what is to hold of the variables of every call is shown of each of them
once. That steps do no more is shown kind by kind (`change_of_step`).
Only four kinds of nodes come near the variables at all: the others, in
every phase, are made of moves that keep the calls in progress as they are
(`Steady`).
-/
import ExprGraph.Proofs.Machine.Held

namespace ExprGraph

-- ================================================================ one store

namespace Frame

/-- One store, made on variables. -/
inductive Makes (p : Program) (f : Frame) : Store → Frame → Prop where
  | scalar {var : VarId} {sym : Symbol} (value : Float) :
      p.symbols.get? var = some sym →
      Makes p f (.scalar var sym.name value) (f.setScalar var value)
  | element {array : VarId} {sym : Symbol} {slot : Nat} {g : Frame} (value : Float) :
      p.symbols.get? array = some sym → slot < sym.size →
      f.touch array sym.size = .ok g → (g.element? array slot).isSome = true →
      Makes p f (.element array sym.name slot value) (g.setElement array slot value)

variable {p : Program} {f g : Frame} {store : Store}

/-- Writing a scalar makes the store that is reported. -/
theorem makes_of_storeScalar {var : VarId} {value : Float}
    (h : f.storeScalar p var value = .ok (store, g)) : f.Makes p store g := by
  obtain ⟨sym, hget, rfl, rfl⟩ := storeScalar_eq_ok h
  exact .scalar value hget

/-- So does writing an element that the cell names. -/
theorem makes_of_storeCell {c : Cell} {value : Float} (hc : c.In p)
    (h : f.storeCell c value = .ok (store, g)) : f.Makes p store g := by
  obtain ⟨g', htouch, hsome, rfl, rfl⟩ := storeCell_eq_ok h
  exact .element value hc.declared hc.slot_lt htouch hsome

/-- A store behind a read of the same element is a store: the read touched
the array, and did no more. -/
theorem makes_of_readCell_storeCell {c : Cell} {old value : Float} {f' : Frame} (hc : c.In p)
    (hread : f.readCell c = .ok (old, f')) (h : f'.storeCell c value = .ok (store, g)) :
    f.Makes p store g := by
  obtain ⟨htouch, -⟩ := readCell_eq_ok hread
  obtain ⟨g', htouch', hsome, rfl, rfl⟩ := storeCell_eq_ok h
  rw [touch_touch htouch] at htouch'
  cases htouch'
  exact .element value hc.declared hc.slot_lt htouch hsome

end Frame

-- =============================================================== parameters

/-- What a parameter is bound to. -/
inductive Bound where
  | scalar (var : VarId) (value : Float)
  | array (var : VarId) (values : Array Float)

/-- The parameter that is bound. -/
def Bound.param : Bound → Param
  | .scalar var _ => .scalar var
  | .array var _ => .array var

/-- Variables with one more parameter bound. -/
def Frame.give (vars : Frame) : Bound → Frame
  | .scalar var value => vars.setScalar var value
  | .array var values => vars.putArray var values

/-- An array is copied from an array of the caller's that is declared with
the same length. -/
def Bound.Copied (p : Program) (caller : Frame) : Bound → Prop
  | .scalar .. => True
  | .array var values => ∃ (source : VarId) (given wanted : Symbol),
    p.symbols.get? source = some given ∧ p.symbols.get? var = some wanted
      ∧ given.size = wanted.size ∧ caller.snapshot source given.size = .ok values

/-- An array has the declared length of the parameter. -/
def Bound.Sized (p : Program) : Bound → Prop
  | .scalar .. => True
  | .array var values => ∃ wanted, p.symbols.get? var = some wanted ∧ values.size = wanted.size

/-- Parameters bound to these arguments. -/
def bounds : List Param → List Argument → List Bound
  | .scalar var :: params, .scalar value :: args => .scalar var value :: bounds params args
  | .array var :: params, .array values :: args => .array var values :: bounds params args
  | _, _ => []

/-- Arguments of the host are bound one after the other, the first
first. -/
theorem bounds_of_bindAll {p : Program} {f : Function} {entries : List (Nat × Param × Argument)} :
    ∀ {vars vars' : Frame}, Interpreter.bindAll p.symbols f entries vars = .ok vars' →
      (bounds (entries.map (·.2.1)) (entries.map (·.2.2))).map Bound.param = entries.map (·.2.1)
        ∧ vars' = (bounds (entries.map (·.2.1)) (entries.map (·.2.2))).foldl Frame.give vars
        ∧ ∀ b ∈ bounds (entries.map (·.2.1)) (entries.map (·.2.2)), b.Sized p := by
  induction entries with
  | nil =>
      intro vars vars' h
      cases h
      exact ⟨rfl, rfl, by nofun⟩
  | cons entry entries ih =>
      intro vars vars' h
      obtain ⟨position, param, arg⟩ := entry
      cases param with
      | scalar var =>
          cases arg with
          | array values => cases h
          | scalar value =>
              obtain ⟨hparams, hvars, hsized⟩ := ih h
              exact ⟨congrArg (Param.scalar var :: ·) hparams, hvars,
                List.forall_mem_cons.mpr ⟨trivial, hsized⟩⟩
      | array var =>
          cases arg with
          | scalar value => cases h
          | array values =>
              unfold Interpreter.bindAll at h
              cases hwanted : p.symbols.get? var with
              | none => simp only [hwanted] at h; cases h
              | some wanted =>
                  simp only [hwanted] at h
                  by_cases hsize : values.size = wanted.size
                  · rw [if_pos hsize] at h
                    obtain ⟨hparams, hvars, hsized⟩ := ih h
                    exact ⟨congrArg (Param.array var :: ·) hparams, hvars,
                      List.forall_mem_cons.mpr ⟨⟨wanted, hwanted, hsize⟩, hsized⟩⟩
                  · rw [if_neg hsize] at h
                    cases h

/-- The host binds every parameter, in order, to a scalar or to an array of
its declared length. -/
theorem bounds_of_bindArguments {i : Interpreter} {f : Function} {args : List Argument}
    {vars : Frame} (h : i.bindArguments f args = .ok vars) :
    (bounds f.params args).map Bound.param = f.params
      ∧ vars = (bounds f.params args).foldl Frame.give {}
      ∧ ∀ b ∈ bounds f.params args, b.Sized i.program := by
  unfold Interpreter.bindArguments at h
  by_cases hlen : args.length = f.arity
  · rw [if_pos hlen] at h
    have hbound := bounds_of_bindAll h
    rwa [Machine.params_positions hlen, Machine.args_positions hlen] at hbound
  · rw [if_neg hlen] at h
    cases h

/-- The frame that the host starts a function in comes of bindings to its
parameters. -/
theorem given_of_bindArguments {i : Interpreter} {f : Function} {args : List Argument}
    {vars : Frame} (h : i.bindArguments f args = .ok vars) :
    ∃ given : List Bound, given.map Bound.param = f.params
      ∧ vars = given.foldl Frame.give {} ∧ ∀ b ∈ given, b.Sized i.program :=
  ⟨bounds f.params args, bounds_of_bindArguments h⟩

namespace Machine

variable {s : Setting}

/-- An array argument is a copy of an array of the caller, of the length
that the parameter has. -/
theorem copied_of_arrayArgument {caller : Frame} {f : Function} {position : Nat} {arg : ExprId}
    {var : VarId} {values : Array Float}
    (h : arrayArgument s caller f position arg var = .ok values) :
    (Bound.array var values).Copied s.program caller := by
  unfold arrayArgument at h
  cases harg : s.program.expr? arg with
  | none => rw [harg] at h; cases h
  | some node =>
      rw [harg] at h
      cases node with
      | var source =>
          cases hgiven : s.program.symbols.get? source with
          | none => simp only [hgiven] at h; cases h
          | some given =>
              cases hwanted : s.program.symbols.get? var with
              | none => simp only [hgiven, hwanted] at h; cases h
              | some wanted =>
                  simp only [hgiven, hwanted] at h
                  by_cases hsize : given.size = wanted.size
                  · rw [if_pos hsize] at h
                    exact ⟨source, given, wanted, hgiven, hwanted, hsize, h⟩
                  · rw [if_neg hsize] at h
                    cases h
      | _ => cases h

/-- Binding gives the parameters one after the other. -/
theorem given_of_bind {caller : Frame} {f : Function} {entries : List (Nat × Param × ExprId)} :
    ∀ {vars vars' : Frame} {values values' : Values},
      Machine.bind s caller f entries vars values = .ok (vars', values') →
      ∃ given : List Bound, given.map Bound.param = entries.map (fun entry => entry.2.1)
        ∧ vars' = given.foldl Frame.give vars ∧ ∀ b ∈ given, b.Copied s.program caller := by
  induction entries with
  | nil =>
      intro vars vars' values values' h
      cases h
      exact ⟨[], rfl, rfl, by nofun⟩
  | cons entry entries ih =>
      intro vars vars' values values' h
      obtain ⟨position, param, arg⟩ := entry
      cases param with
      | scalar var =>
          obtain ⟨⟨value, rest⟩, -, h⟩ := bind_eq_ok.mp h
          obtain ⟨given, hparams, hvars, hcopied⟩ := ih h
          exact ⟨.scalar var value :: given, congrArg (Param.scalar var :: ·) hparams, hvars,
            List.forall_mem_cons.mpr ⟨trivial, hcopied⟩⟩
      | array var =>
          obtain ⟨contents, hcontents, h⟩ := bind_eq_ok.mp h
          obtain ⟨given, hparams, hvars, hcopied⟩ := ih h
          exact ⟨.array var contents :: given, congrArg (Param.array var :: ·) hparams, hvars,
            List.forall_mem_cons.mpr ⟨copied_of_arrayArgument hcontents, hcopied⟩⟩

/-- The variables a call is entered with, its parameters bound from the
last to the first. -/
def Enters (p : Program) (caller : Frame) (f : Function) (vars : Frame) : Prop :=
  ∃ given : List Bound, given.map Bound.param = f.params.reverse
    ∧ vars = given.foldl Frame.give {} ∧ ∀ b ∈ given, b.Copied p caller

-- ================================================================== changes

/-- What a step does to the calls in progress, and the store it makes. -/
inductive Change (p : Program) : List Activation → Option Store → List Activation → Prop where
  | same (F : List Activation) : Change p F none F
  | touched {top : Activation} {rest : List Activation} {array : VarId} {sym : Symbol}
      {vars : Frame} :
      p.symbols.get? array = some sym → top.vars.touch array sym.size = .ok vars →
      Change p (top :: rest) none ({ top with vars } :: rest)
  | stored {top : Activation} {rest : List Activation} {store : Store} {vars : Frame} :
      top.vars.Makes p store vars →
      Change p (top :: rest) (some store) ({ top with vars } :: rest)
  | entered {top : Activation} {rest : List Activation} {f : Function} {vars : Frame} :
      Enters p top.vars f vars →
      Change p (top :: rest) none (⟨f, vars⟩ :: top :: rest)
  | left (top : Activation) (rest : List Activation) : Change p (top :: rest) none rest

-- ============================================== moves that keep the calls

/-- The computation stores nothing, and leaves these calls in progress. -/
def Steady (F : List Activation) (x : Except Cause Progress) : Prop :=
  ∀ (m' : Machine) (stored : Option Store), x = .ok (.running m' stored) →
    stored = none ∧ m'.frames = F

section Moves

variable {m m' : Machine} {F : List Activation}

theorem frames_descend {resume : Nat} {child : ExprId} (h : m.descend resume child = .ok m') :
    m'.frames = m.frames := by
  obtain ⟨agenda, -, rfl⟩ := descend_inv h
  rfl

/-- Moving control leaves the calls alone. -/
theorem frames_complete (h : m.complete = .ok m') : m'.frames = m.frames := by
  obtain ⟨p, agenda, -, rfl⟩ := complete_inv h
  rfl

theorem frames_produce {value : Float} (h : m.produce value = .ok m') : m'.frames = m.frames :=
  frames_complete (m := { m with values := value :: m.values }) h

/-- So does taking a value. -/
theorem frames_pop {value : Float} (h : m.pop = .ok (value, m')) : m'.frames = m.frames := by
  obtain ⟨⟨value', values⟩, -, h⟩ := bind_eq_ok.mp h
  cases h
  rfl

/-- What comes first makes no difference, if what comes of it is steady. -/
theorem Steady.bind {α : Type} {x : Except Cause α} {f : α → Except Cause Progress}
    (h : ∀ a, x = .ok a → Steady F (f a)) : Steady F (x >>= f) := by
  intro m' stored hx
  obtain ⟨a, ha, hx⟩ := bind_eq_ok.mp hx
  exact h a ha m' stored hx

/-- Taking a value first leaves the calls as they are. -/
theorem Steady.popped {f : Float × Machine → Except Cause Progress}
    (h : ∀ {value : Float} {m₁ : Machine}, m₁.frames = m.frames → Steady m.frames (f (value, m₁))) :
    Steady m.frames (m.pop >>= f) :=
  .bind fun ⟨_, _⟩ hpop => h (frames_pop hpop)

/-- A step without a store is steady if its last move keeps the calls. -/
theorem Steady.quiet {x : Except Cause Machine}
    (hx : ∀ {m₁ : Machine}, x = .ok m₁ → m₁.frames = F) :
    Steady F (x >>= fun m => pure (Progress.quiet m)) := by
  intro m' stored h
  obtain ⟨m₁, hm₁, h⟩ := bind_eq_ok.mp h
  cases h
  exact ⟨rfl, hx hm₁⟩

/-- A failure leads nowhere. -/
theorem Steady.error (cause : Cause) : Steady F (.error cause) := by nofun

theorem Steady.descend (hF : m.frames = F) (resume : Nat) (child : ExprId) :
    Steady F (m.descend resume child >>= fun m => pure (Progress.quiet m)) :=
  .quiet fun h => (frames_descend h).trans hF

theorem Steady.complete (hF : m.frames = F) :
    Steady F (m.complete >>= fun m => pure (Progress.quiet m)) :=
  .quiet fun h => (frames_complete h).trans hF

theorem Steady.produce (hF : m.frames = F) (value : Float) :
    Steady F (m.produce value >>= fun m => pure (Progress.quiet m)) :=
  .quiet fun h => (frames_produce h).trans hF

/-- A steady step is a change that changes nothing. -/
theorem Steady.change {x : Except Cause Progress} {stored : Option Store} {p : Program}
    (hx : Steady F x) (h : x = .ok (.running m' stored)) : Change p F stored m'.frames := by
  obtain ⟨rfl, rfl⟩ := hx m' stored h
  exact .same _

-- ============================================ nodes that keep the calls

theorem steady_unary (m : Machine) (op : UnaryOp) (operand : ExprId) :
    Steady m.frames (m.stepUnary op operand) := by
  unfold stepUnary
  split
  · exact .descend rfl _ _
  · exact .popped fun hF => .produce hF _
  · exact .error _

theorem steady_binary (m : Machine) (op : BinaryOp) (left right : ExprId) :
    Steady m.frames (m.stepBinary op left right) := by
  unfold stepBinary
  split
  · exact .descend rfl _ _
  · exact .descend rfl _ _
  · refine .popped fun {l m₁} hF => ?_
    rw [← hF]
    refine .popped fun {r m₂} hF' => ?_
    exact .bind fun value _ => .produce hF' value
  · exact .error _

/-- Choices only move control. -/
theorem steady_choice (m : Machine) (node : Expr) (cond thenArm elseArm : ExprId) :
    Steady m.frames (m.stepChoice node cond thenArm elseArm) := by
  unfold stepChoice
  split
  · exact .descend rfl _ _
  · exact .popped fun hF => .descend hF _ _
  · exact .complete rfl
  · exact .error _

theorem steady_seq (m : Machine) (first second : ExprId) :
    Steady m.frames (m.stepSeq first second) := by
  unfold stepSeq
  split
  · exact .descend rfl _ _
  · exact .popped fun hF => .descend hF _ _
  · exact .complete rfl
  · exact .error _

/-- So do loops. -/
theorem steady_loop (m : Machine) (cond body : ExprId) :
    Steady m.frames (m.stepLoop cond body) := by
  unfold stepLoop
  split
  · exact .descend rfl _ _
  · refine .popped fun {value m₁} hF => ?_
    dsimp only
    split
    · exact .complete hF
    · exact .descend hF _ _
  · refine .popped fun {value m₁} hF => ?_
    rw [← hF]
    refine .popped fun {last m₂} hF' => ?_
    exact .descend (m := { m₂ with values := value :: m₂.values }) hF' _ _
  · exact .error _

end Moves

-- ================================================ nodes that change calls

section Accesses

variable {m m' : Machine} {stored : Option Store}

/-- An access that makes a store, and then completion. -/
theorem change_of_store {act : Frame → Except Cause (Store × Frame)}
    {next : Machine → Except Cause Machine}
    (hmakes : ∀ {top : Activation} {store : Store} {vars : Frame},
      m.frames.head? = some top → act top.vars = .ok (store, vars) →
      top.vars.Makes s.program store vars)
    (hnext : ∀ {m₁ m₂ : Machine}, next m₁ = .ok m₂ → m₂.frames = m₁.frames)
    (h : (m.access act >>= fun (store, m) => next m >>= fun m => pure (Progress.storing store m))
      = .ok (.running m' stored)) : Change s.program m.frames stored m'.frames := by
  obtain ⟨⟨store, m₁⟩, haccess, h⟩ := bind_eq_ok.mp h
  obtain ⟨top, rest, vars, hF, hact, rfl⟩ := access_eq_ok_iff.mp haccess
  obtain ⟨m₂, hm₂, h⟩ := bind_eq_ok.mp h
  cases h
  rw [hnext hm₂, hF]
  exact .stored (hmakes (by rw [hF]; rfl) hact)

/-- An assignment makes its store in the latest call. -/
theorem change_assign (target : Place) (value : ExprId)
    (h : m.stepAssign s target value = .ok (.running m' stored)) :
    Change s.program m.frames stored m'.frames := by
  unfold stepAssign at h
  split at h
  · exact Steady.change (Steady.descend rfl _ _) h
  · obtain ⟨assigned, -, h⟩ := bind_eq_ok.mp h
    exact change_of_store (fun _ => Frame.makes_of_storeScalar) frames_complete h
  · exact Steady.change (Steady.descend rfl _ _) h
  · obtain ⟨⟨index, m₁⟩, hpop, h⟩ := bind_eq_ok.mp h
    obtain ⟨assigned, -, h⟩ := bind_eq_ok.mp h
    obtain ⟨cell, hcell, h⟩ := bind_eq_ok.mp h
    rw [← frames_pop hpop]
    exact change_of_store (fun _ => Frame.makes_of_storeCell (Program.cell_eq_ok hcell))
      frames_complete h
  · cases h

/-- An indexing touches its array in the latest call. -/
theorem change_index (array : VarId) (index : ExprId)
    (h : m.stepIndex s array index = .ok (.running m' stored)) :
    Change s.program m.frames stored m'.frames := by
  unfold stepIndex at h
  split at h
  · exact Steady.change (Steady.descend rfl _ _) h
  · obtain ⟨⟨i, m₁⟩, hpop, h⟩ := bind_eq_ok.mp h
    obtain ⟨cell, hcell, h⟩ := bind_eq_ok.mp h
    obtain ⟨⟨value, m₂⟩, haccess, h⟩ := bind_eq_ok.mp h
    obtain ⟨top, rest, vars, hF, hread, rfl⟩ := access_eq_ok_iff.mp haccess
    obtain ⟨m₃, hm₃, h⟩ := bind_eq_ok.mp h
    cases h
    rw [frames_produce hm₃, ← frames_pop hpop, hF]
    exact .touched (Program.cell_eq_ok hcell).declared (Frame.readCell_eq_ok hread).1
  · cases h

/-- An increment makes its store in the latest call, after the touch of its
array if it is of an element. -/
theorem change_step (op : StepOp) (target : Place)
    (h : m.stepStep s op target = .ok (.running m' stored)) :
    Change s.program m.frames stored m'.frames := by
  unfold stepStep at h
  split at h
  · obtain ⟨vars, -, h⟩ := bind_eq_ok.mp h
    obtain ⟨old, -, h⟩ := bind_eq_ok.mp h
    exact change_of_store (fun _ => Frame.makes_of_storeScalar) frames_produce h
  · exact Steady.change (Steady.descend rfl _ _) h
  · obtain ⟨⟨index, m₁⟩, hpop, h⟩ := bind_eq_ok.mp h
    obtain ⟨cell, hcell, h⟩ := bind_eq_ok.mp h
    obtain ⟨⟨old, m₂⟩, hread, h⟩ := bind_eq_ok.mp h
    obtain ⟨⟨store, m₃⟩, hstore, h⟩ := bind_eq_ok.mp h
    obtain ⟨m₄, hm₄, h⟩ := bind_eq_ok.mp h
    cases h
    obtain ⟨top, rest, vars, hF, hact, rfl⟩ := access_eq_ok_iff.mp hread
    obtain ⟨top', rest', vars', hF', hact', rfl⟩ := access_eq_ok_iff.mp hstore
    cases hF'
    rw [frames_produce hm₄, ← frames_pop hpop, hF]
    exact .stored (Frame.makes_of_readCell_storeCell (Program.cell_eq_ok hcell) hact hact')
  · cases h

/-- Leaving drops the latest call. -/
theorem change_leave {result : Float} (h : m.leave s = .ok (result, m')) :
    Change s.program m.frames none m'.frames := by
  unfold leave at h
  split at h
  · cases h
  · rename_i top rest hF
    split at h
    · cases h
    · obtain ⟨⟨value, m₁⟩, hpop, h⟩ := bind_eq_ok.mp h
      cases h
      rw [frames_pop hpop, hF]
      exact .left top rest

/-- Starting on a body adds a call, with copies and values of the caller's
for its parameters. -/
theorem change_invoke {i : Invocation} (hlen : i.args.length = i.callee.arity)
    (h : m.invoke s i = .ok m') : Change s.program m.frames none m'.frames := by
  obtain ⟨caller, hcaller, h⟩ := bind_eq_ok.mp h
  obtain ⟨⟨vars, values⟩, hbind, h⟩ := bind_eq_ok.mp h
  obtain ⟨given, hparams, rfl, hcopied⟩ := given_of_bind hbind
  obtain ⟨agenda, -, rfl⟩ := enter_inv h
  unfold Machine.vars at hcaller
  split at hcaller
  · rename_i top rest hF
    cases hcaller
    dsimp only
    rw [hF]
    exact .entered ⟨given, hparams.trans (params_bindings hlen), rfl, hcopied⟩
  · cases hcaller

/-- A call adds one, drops one or leaves all alone, phase by phase. -/
theorem change_call (callee : NameId) (args : Span)
    (h : m.stepCall s callee args = .ok (.running m' stored)) :
    Change s.program m.frames stored m'.frames := by
  obtain ⟨i, hresolve, h⟩ := bind_eq_ok.mp h
  dsimp only at h
  split at h
  · split at h
    · rename_i position _
      cases harg : i.args[position]? with
      | none => rw [harg] at h; cases h
      | some arg =>
          rw [harg] at h
          exact Steady.change (Steady.descend rfl _ _) h
    · obtain ⟨m₁, hinvoke, h⟩ := bind_eq_ok.mp h
      cases h
      exact change_invoke (length_of_resolve hresolve) hinvoke
  · split at h
    · obtain ⟨⟨result, m₁⟩, hleave, h⟩ := bind_eq_ok.mp h
      dsimp only at h
      split at h
      · cases h
      · obtain ⟨m₂, hm₂, h⟩ := bind_eq_ok.mp h
        cases h
        rw [frames_produce hm₂]
        exact change_leave hleave
    · cases h

end Accesses

-- ================================================================== a step

/-- A step of a node makes one of the changes, with the store that it
reports. -/
theorem change_of_stepNode {m m' : Machine} {stored : Option Store} (node : Expr)
    (h : m.stepNode s node = .ok (.running m' stored)) :
    Change s.program m.frames stored m'.frames := by
  cases node with
  | number value => exact Steady.change (Steady.produce rfl value) h
  | var var =>
      exact Steady.change (.bind fun vars _ => .bind fun value _ => .produce rfl value) h
  | empty => exact Steady.change (Steady.produce rfl _) h
  | unary op operand => exact Steady.change (steady_unary m op operand) h
  | binary op left right => exact Steady.change (steady_binary m op left right) h
  | assign target value => exact change_assign target value h
  | index array index => exact change_index array index h
  | step op target => exact change_step op target h
  | ternary cond thenArm elseArm => exact Steady.change (steady_choice m _ cond thenArm elseArm) h
  | branch cond thenArm elseArm => exact Steady.change (steady_choice m _ cond thenArm elseArm) h
  | seq first second => exact Steady.change (steady_seq m first second) h
  | loop cond body => exact Steady.change (steady_loop m cond body) h
  | call callee args => exact change_call callee args h

/-- A step changes the variables of calls in one of these ways. -/
theorem change_of_step {m m' : Machine} {stored : Option Store}
    (h : m.step s = .ok (.running m' stored)) :
    Change s.program m.frames stored m'.frames := by
  unfold Machine.step at h
  split at h
  · unfold stepEntry at h
    split at h
    · obtain ⟨⟨result, m₁⟩, -, h⟩ := bind_eq_ok.mp h
      cases h
    · cases h
  · split at h
    · exact change_of_stepNode _ h
    · cases h

end Machine

end ExprGraph
