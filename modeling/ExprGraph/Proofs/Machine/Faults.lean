/-
Internal faults are the fault of the program: a run fails with a breach
only where it follows a reference that dangles (`Dangling`). The stacks
never run empty, no node is found in a phase it does not have, and no
array is shorter than declared (`dangling_of_breach`).

# The argument

Every state that is reached has a node at work, with what the node holds
on top of the stacks (`Inside`), or it is the return of the run itself; so
a move that takes a value, a frame or a pending entry finds one. Every
array a call has was copied, bound by the host, or filled with zeros, at
its declared length each time (`Frame.Declared`), and no step changes a
length. From the two each kind of node is shown to fail in no phase with a
breach, but for the references of calls (`Sound.breach_stepNode`).
-/
import ExprGraph.Proofs.Machine.Changes
import ExprGraph.Proofs.Machine.Discipline
import ExprGraph.Proofs.Machine.Failures
import ExprGraph.Proofs.Machine.Reached
import Mathlib.Algebra.Group.Nat.Defs

namespace ExprGraph

-- ============================================================ declared arrays

namespace Frame

variable {p : Program}

/-- Every array has its declared length. -/
def Declared (p : Program) (f : Frame) : Prop :=
  ∀ (array : VarId) (values : Array Float), f.array? array = some values →
    ∃ sym, p.symbols.get? array = some sym ∧ values.size = sym.size

variable {f g : Frame}

/-- A frame without arrays has none of another length. -/
theorem declared_empty (p : Program) : Declared p {} := by
  intro array values h
  cases h

/-- Touching makes an array at its declared length, or leaves it. -/
theorem Declared.touch (h : f.Declared p) {var : VarId} {sym : Symbol}
    (hget : p.symbols.get? var = some sym) (htouch : f.touch var sym.size = .ok g) :
    g.Declared p := by
  intro array values hvalues
  by_cases heq : var = array
  · subst heq
    rw [array?_touch htouch] at hvalues
    cases hold : f.array? var with
    | some old =>
        rw [hold] at hvalues
        cases hvalues
        exact h _ _ hold
    | none =>
        rw [hold] at hvalues
        cases hvalues
        exact ⟨sym, hget, Array.size_replicate⟩
  · rw [array?_touch_of_ne htouch heq] at hvalues
    exact h _ _ hvalues

/-- Writing an element keeps all lengths. -/
theorem Declared.setElement (h : f.Declared p) (var : VarId) (slot : Nat) (value : Float) :
    (f.setElement var slot value).Declared p := by
  intro array values hvalues
  rw [array?_setElement] at hvalues
  split at hvalues
  · obtain ⟨old, hold, rfl⟩ := Option.map_eq_some_iff.mp hvalues
    rw [Array.size_setIfInBounds]
    exact h _ _ hold
  · exact h _ _ hvalues

/-- So does making a store. -/
theorem Declared.makes (h : f.Declared p) {store : Store} (hmakes : f.Makes p store g) :
    g.Declared p := by
  cases hmakes with
  | scalar value hget => exact h
  | element value hget hlt htouch hsome => exact (h.touch hget htouch).setElement _ _ _

/-- So does binding a parameter to an array of its declared length. -/
theorem Declared.give (h : f.Declared p) {b : Bound} (hb : b.Sized p) : (f.give b).Declared p := by
  cases b with
  | scalar var value => exact h
  | array var values =>
      intro array values' hvalues
      have hput : (f.putArray var values).array? array = some values' := hvalues
      rw [array?_putArray] at hput
      split at hput
      · rename_i heq
        cases hput
        exact heq ▸ hb
      · exact h _ _ hput

/-- So does binding one parameter after the other. -/
theorem declared_of_given {given : List Bound} (hsized : ∀ b ∈ given, b.Sized p) :
    ∀ {f : Frame}, f.Declared p → (given.foldl Frame.give f).Declared p := by
  induction given with
  | nil => exact id
  | cons b given ih =>
      intro f h
      obtain ⟨hb, hsized⟩ := List.forall_mem_cons.mp hsized
      exact ih hsized (h.give hb)

/-- A copy has the length of what it is a copy of. -/
theorem Declared.sized (h : f.Declared p) : ∀ {b : Bound}, b.Copied p f → b.Sized p
  | .scalar .., _ => trivial
  | .array var values, ⟨source, given, wanted, hgiven, hwanted, hsize, hsnapshot⟩ => by
    refine ⟨wanted, hwanted, ?_⟩
    rw [← hsize]
    unfold snapshot at hsnapshot
    split at hsnapshot
    · rename_i old hold
      cases hsnapshot
      obtain ⟨sym, hsym, hlen⟩ := h _ _ hold
      rw [hgiven] at hsym
      cases hsym
      exact hlen
    · exact size_of_zeros hsnapshot

/-- An element that a cell names is there once its array was touched. -/
theorem Declared.isSome_element (h : f.Declared p) {c : Cell} (hc : c.In p)
    (htouch : f.touch c.array c.symbol.size = .ok g) :
    (g.element? c.array c.slot).isSome = true := by
  have hthere := array?_touch htouch
  obtain ⟨sym, hsym, hlen⟩ := h.touch hc.declared htouch _ _ hthere
  rw [hc.declared] at hsym
  cases hsym
  have hlt := hc.slot_lt
  rw [← hlen] at hlt
  unfold element?
  rw [hthere, Option.bind_some, Array.getElem?_eq_getElem hlt]
  rfl

/-- Every element that a cell names is there. -/
theorem Declared.has (h : f.Declared p) {c : Cell} (hc : c.In p) : f.Has c :=
  fun _ htouch => h.isSome_element hc htouch

end Frame

namespace Machine

variable {s : Setting}

/-- No step changes the length of an array. -/
theorem Change.declared {p : Program} {F F' : List Activation} {stored : Option Store}
    (h : Change p F stored F') (hF : ∀ call ∈ F, call.vars.Declared p) :
    ∀ call ∈ F', call.vars.Declared p := by
  cases h with
  | same => exact hF
  | touched hget htouch =>
      obtain ⟨htop, hrest⟩ := List.forall_mem_cons.mp hF
      exact List.forall_mem_cons.mpr ⟨htop.touch hget htouch, hrest⟩
  | stored hmakes =>
      obtain ⟨htop, hrest⟩ := List.forall_mem_cons.mp hF
      exact List.forall_mem_cons.mpr ⟨htop.makes hmakes, hrest⟩
  | entered henters =>
      obtain ⟨given, -, hvars, hcopied⟩ := henters
      obtain ⟨htop, -⟩ := List.forall_mem_cons.mp hF
      refine List.forall_mem_cons.mpr ⟨?_, hF⟩
      dsimp only
      rw [hvars]
      exact Frame.declared_of_given (fun b hb => htop.sized (hcopied b hb))
        (Frame.declared_empty p)
  | left => exact (List.forall_mem_cons.mp hF).2

-- ============================================================= sound states

/-- A state in which no move finds a stack empty, nor an array too
short. -/
structure Sound (s : Setting) (m : Machine) : Prop where
  pending : m.agenda.entries ≠ []
  calls : m.frames ≠ []
  declared : ∀ call ∈ m.frames, call.vars.Declared s.program

section Moves

variable {m : Machine}

/-- A node completes if something waits. -/
theorem complete_of_pending (h : m.agenda.entries ≠ []) : ∃ m', m.complete = .ok m' := by
  unfold complete
  split
  · exact ⟨_, rfl⟩
  · rename_i hpop
    exact absurd ((Agenda.pop_eq_none_iff _).mp hpop) h

theorem produce_of_pending (h : m.agenda.entries ≠ []) (value : Float) :
    ∃ m', m.produce value = .ok m' :=
  complete_of_pending (m := { m with values := value :: m.values }) h

/-- An access leaves what waits alone. -/
theorem agenda_access {α : Type} {m₁ : Machine} {act : Frame → Except Cause (α × Frame)} {a : α}
    (h : m.access act = .ok (a, m₁)) : m₁.agenda = m.agenda := by
  obtain ⟨top, rest, vars, -, -, rfl⟩ := access_eq_ok_iff.mp h
  rfl

/-- An access that makes a store, and then completion. -/
theorem avoids_stored {act : Frame → Except Cause (Store × Frame)}
    {next : Machine → Except Cause Machine} (hpending : m.agenda.entries ≠ [])
    (haccess : Avoids .breach (m.access act))
    (hnext : ∀ {m₁ : Machine}, m₁.agenda.entries ≠ [] → Avoids .breach (next m₁)) :
    Avoids .breach (m.access act >>= fun (store, m) => next m >>= fun m =>
      pure (Progress.storing store m)) := by
  refine haccess.bind fun ⟨store, m₁⟩ hdone => ?_
  rw [← agenda_access hdone] at hpending
  exact (hnext hpending).map

/-- An access that leaves arrays at their declared lengths leaves a sound
state. -/
theorem Sound.access {α : Type} {m₁ : Machine} {act : Frame → Except Cause (α × Frame)} {a : α}
    (h : Sound s m) (haccess : m.access act = .ok (a, m₁))
    (hact : ∀ {f g : Frame}, f.Declared s.program → act f = .ok (a, g) → g.Declared s.program) :
    Sound s m₁ := by
  obtain ⟨top, rest, vars, hF, hdone, rfl⟩ := access_eq_ok_iff.mp haccess
  have hdeclared := h.declared
  rw [hF] at hdeclared
  obtain ⟨htop, hrest⟩ := List.forall_mem_cons.mp hdeclared
  exact ⟨h.pending, List.cons_ne_nil _ _, List.forall_mem_cons.mpr ⟨hact htop hdone, hrest⟩⟩

/-- In a sound state something waits, so a node can complete with a
value. -/
theorem Sound.produce (h : Sound s m) (value : Float) : Avoids .breach (m.produce value) :=
  avoids_produce fun _ => h.pending

/-- And without one, if it is in place. -/
theorem Sound.complete (h : Sound s m) : Avoids .breach m.complete :=
  avoids_complete fun _ => h.pending

/-- Its arrays are long enough to be read. -/
theorem Sound.readCell (h : Sound s m) {c : Cell} (hc : c.In s.program) :
    Avoids .breach (m.access (·.readCell c)) :=
  avoids_access (fun _ => h.calls) fun call hcall =>
    Frame.avoids_readCell fun _ => (h.declared call hcall).has hc

/-- And to be written. -/
theorem Sound.storeCell (h : Sound s m) {c : Cell} (hc : c.In s.program) (value : Float) :
    Avoids .breach (m.access (·.storeCell c value)) :=
  avoids_access (fun _ => h.calls) fun call hcall =>
    Frame.avoids_storeCell fun _ => (h.declared call hcall).has hc

/-- It has a call whose variables can be written. -/
theorem Sound.storeScalar (h : Sound s m) (var : VarId) (value : Float) :
    Avoids .breach (m.access (·.storeScalar s.program var value)) :=
  avoids_access (fun _ => h.calls) fun _ _ => Frame.avoids_storeScalar nofun

end Moves

-- ==================================================== nodes without calls

/-- What is to be shown of a kind of node that follows no references but
those of its children: it breaks in no phase it can be in. -/
def Holding (s : Setting) (node : Expr) : Prop :=
  ∀ {id : ExprId} {phase : Nat} {agenda : Agenda} {D vs : Values} {F fs : List Activation},
    held s node phase = some (vs.length, fs.length) →
    Sound s ⟨.expr id, phase, agenda, vs ++ D, fs ++ F⟩ →
    Avoids .breach (Machine.stepNode s ⟨.expr id, phase, agenda, vs ++ D, fs ++ F⟩ node)

/-- A number needs something that waits, and no more. -/
theorem holding_number (value : Float) : Holding s (.number value) := by
  intro id phase agenda D vs F fs hheld hsound
  exact .map (hsound.produce _)

theorem holding_empty : Holding s .empty := by
  intro id phase agenda D vs F fs hheld hsound
  exact .map (hsound.produce _)

/-- A variable needs a call in progress. -/
theorem holding_var (var : VarId) : Holding s (.var var) := by
  intro id phase agenda D vs F fs hheld hsound
  refine .bind (avoids_vars fun _ => hsound.calls) fun vars _ => ?_
  exact .bind (Frame.avoids_readScalar nofun) fun value _ => .map (hsound.produce value)

/-- The value of the operand is what is held. -/
theorem holding_unary (op : UnaryOp) (operand : ExprId) : Holding s (.unary op operand) := by
  intro id phase agenda D vs F fs hheld hsound
  rcases phase with _ | _ | phase
  · exact .map (avoids_descend nofun)
  · obtain ⟨v, rfl, rfl⟩ := one_held hheld
    exact .map (avoids_produce (m := ⟨.expr id, 1, agenda, D, F⟩) fun _ => hsound.pending)
  · cases hheld

/-- The values of both operands are what is held, the left one on top. -/
theorem holding_binary (op : BinaryOp) (left right : ExprId) :
    Holding s (.binary op left right) := by
  intro id phase agenda D vs F fs hheld hsound
  rcases phase with _ | _ | _ | phase
  · exact .map (avoids_descend nofun)
  · exact .map (avoids_descend nofun)
  · obtain ⟨l, r, rfl, rfl⟩ := two_held hheld
    have heval : Avoids .breach (op.eval l r) := avoids_eval op l r
    exact heval.bind fun value _ =>
      .map (avoids_produce (m := ⟨.expr id, 2, agenda, D, F⟩) fun _ => hsound.pending)
  · cases hheld

/-- The assigned value is held, below that of the index if there is one. -/
theorem holding_assign (target : Place) (value : ExprId) : Holding s (.assign target value) := by
  intro id phase agenda D vs F fs hheld hsound
  cases target with
  | scalar var =>
      rcases phase with _ | _ | phase
      · exact .map (avoids_descend nofun)
      · obtain ⟨assigned, rfl, rfl⟩ := one_held hheld
        exact avoids_stored hsound.pending (hsound.storeScalar var assigned)
          fun hpending => avoids_complete fun _ => hpending
      · cases hheld
  | element array index =>
      rcases phase with _ | _ | _ | phase
      · exact .map (avoids_descend nofun)
      · exact .map (avoids_descend nofun)
      · obtain ⟨i, assigned, rfl, rfl⟩ := two_held hheld
        have hpopped : Sound s ⟨.expr id, 2, agenda, assigned :: D, F⟩ :=
          ⟨hsound.pending, hsound.calls, hsound.declared⟩
        have haddress : Avoids .breach (s.program.cell array i) := avoids_cell nofun
        refine haddress.bind fun cell hcell => ?_
        exact avoids_stored hpopped.pending (hpopped.storeCell (Program.cell_eq_ok hcell) assigned)
          fun hpending => avoids_complete fun _ => hpending
      · cases hheld

/-- The value of the index is what is held. -/
theorem holding_index (array : VarId) (index : ExprId) : Holding s (.index array index) := by
  intro id phase agenda D vs F fs hheld hsound
  rcases phase with _ | _ | phase
  · exact .map (avoids_descend nofun)
  · obtain ⟨i, rfl, rfl⟩ := one_held hheld
    have hpopped : Sound s ⟨.expr id, 1, agenda, D, F⟩ :=
      ⟨hsound.pending, hsound.calls, hsound.declared⟩
    have haddress : Avoids .breach (s.program.cell array i) := avoids_cell nofun
    refine haddress.bind fun cell hcell => ?_
    refine (hpopped.readCell (Program.cell_eq_ok hcell)).bind fun ⟨value, m⟩ hdone => ?_
    have hpending := hpopped.pending
    rw [← agenda_access hdone] at hpending
    exact .map (avoids_produce fun _ => hpending)
  · cases hheld

/-- Nothing is held, or the value of the index. -/
theorem holding_step (op : StepOp) (target : Place) : Holding s (.step op target) := by
  intro id phase agenda D vs F fs hheld hsound
  cases target with
  | scalar var =>
      rcases phase with _ | phase
      · obtain ⟨rfl, rfl⟩ := none_held hheld
        refine .bind (avoids_vars fun _ => hsound.calls) fun vars _ => ?_
        refine .bind (Frame.avoids_readScalar nofun) fun old _ => ?_
        exact avoids_stored hsound.pending (hsound.storeScalar var _)
          fun hpending => avoids_produce fun _ => hpending
      · cases hheld
  | element array index =>
      rcases phase with _ | _ | phase
      · exact .map (avoids_descend nofun)
      · obtain ⟨i, rfl, rfl⟩ := one_held hheld
        have hpopped : Sound s ⟨.expr id, 1, agenda, D, F⟩ :=
          ⟨hsound.pending, hsound.calls, hsound.declared⟩
        have haddress : Avoids .breach (s.program.cell array i) := avoids_cell nofun
        refine haddress.bind fun cell hcell => ?_
        have hin := Program.cell_eq_ok hcell
        refine (hpopped.readCell hin).bind fun ⟨old, m⟩ hread => ?_
        have hsound₁ := hpopped.access hread fun hf hdone =>
          hf.touch hin.declared (Frame.readCell_eq_ok hdone).1
        exact avoids_stored hsound₁.pending (hsound₁.storeCell hin _)
          fun hpending => avoids_produce fun _ => hpending
      · cases hheld

/-- Both kinds of choice hold the same and step alike. -/
theorem holding_choice {node : Expr} {cond thenArm elseArm : ExprId}
    (hvalues : ∀ phase, held s node phase = ([0, 1, 1][phase]?).map (·, 0))
    (hchoice : ∀ m : Machine, m.stepNode s node = m.stepChoice node cond thenArm elseArm) :
    Holding s node := by
  intro id phase agenda D vs F fs hheld hsound
  rw [hvalues] at hheld
  rw [hchoice]
  rcases phase with _ | _ | _ | phase
  · exact .map (avoids_descend nofun)
  · obtain ⟨c, rfl, rfl⟩ := one_held hheld
    exact .map (avoids_descend nofun)
  · exact .map hsound.complete
  · cases hheld

theorem holding_seq (first second : ExprId) : Holding s (.seq first second) := by
  intro id phase agenda D vs F fs hheld hsound
  rcases phase with _ | _ | _ | phase
  · exact .map (avoids_descend nofun)
  · obtain ⟨v, rfl, rfl⟩ := one_held hheld
    exact .map (avoids_descend nofun)
  · exact .map hsound.complete
  · cases hheld

/-- The value of the last round is held, below that of the condition. -/
theorem holding_loop (cond body : ExprId) : Holding s (.loop cond body) := by
  intro id phase agenda D vs F fs hheld hsound
  rcases phase with _ | _ | _ | phase
  · exact .map (avoids_descend nofun)
  · obtain ⟨c, last, rfl, rfl⟩ := two_held hheld
    show Avoids .breach (if Arith.isZero c = true
      then Machine.complete ⟨.expr id, 1, agenda, last :: D, F⟩ >>= fun m => pure (Progress.quiet m)
      else Machine.descend ⟨.expr id, 1, agenda, last :: D, F⟩ 2 body >>= fun m =>
        pure (Progress.quiet m))
    split
    · exact .map (avoids_complete fun _ => hsound.pending)
    · exact .map (avoids_descend nofun)
  · obtain ⟨v, last, rfl, rfl⟩ := two_held hheld
    exact .map (avoids_descend nofun)
  · cases hheld

-- ==================================================================== calls

/-- The references of a state that dangle, and the breach that reports
them. -/
inductive Dangling (p : Program) (m : Machine) : Breach → Prop where
  | expr {id : ExprId} : m.task = .expr id → p.arena.size ≤ id.index →
      Dangling p m (.danglingExpr id)
  | name {id : ExprId} {callee : NameId} {args : Span} : m.task = .expr id →
      p.expr? id = some (.call callee args) → p.names.size ≤ callee.index →
      Dangling p m (.unknownName callee)
  | args {id : ExprId} {callee : NameId} {args : Span} : m.task = .expr id →
      p.expr? id = some (.call callee args) →
      p.arena.lists.size < args.start.toNat + args.len.toNat →
      Dangling p m .argumentsOutOfRange
  | params {id : ExprId} {callee : NameId} {args : Span} {name : String} {f : Function} :
      m.task = .expr id → p.expr? id = some (.call callee args) →
      p.names.text? callee = some name → p.function? name = some f → 2 ^ 32 - 1 ≤ f.arity →
      Dangling p m .tooManyParameters

/-- Following the references of a call breaks only where one dangles. -/
theorem dangling_of_resolve {m : Machine} {id : ExprId} {callee : NameId} {args : Span}
    {breach : Breach} (htask : m.task = .expr id)
    (hnode : s.program.expr? id = some (.call callee args))
    (h : resolve s callee args = .error (.broken breach)) : Dangling s.program m breach := by
  unfold resolve at h
  cases hname : s.program.names.text? callee with
  | none =>
      rw [hname] at h
      cases h
      exact .name htask hnode (Array.getElem?_eq_none_iff.mp hname)
  | some name =>
      cases hfun : s.program.function? name with
      | none => simp only [hname, hfun] at h; cases h
      | some f =>
          cases hlist : s.program.arena.list? args with
          | none =>
              simp only [hname, hfun, hlist] at h
              cases h
              refine .args htask hnode ?_
              unfold Arena.list? at hlist
              dsimp only at hlist
              split at hlist
              · cases hlist
              · omega
          | some ids =>
              simp only [hname, hfun, hlist] at h
              by_cases hlen : ids.length = f.arity
              · by_cases hmax : f.arity ≤ maxArity
                · rw [if_pos hlen, if_pos hmax] at h
                  cases h
                · rw [if_pos hlen, if_neg hmax] at h
                  cases h
                  refine .params htask hnode hname hfun ?_
                  have hmost : maxArity = 2 ^ 32 - 2 := rfl
                  omega
              · rw [if_neg hlen] at h
                cases h

/-- A call breaks only where a reference of its own dangles. -/
theorem Sound.breach_stepCall {id : ExprId} {phase : Nat} {agenda : Agenda} {D vs : Values}
    {F fs : List Activation} {callee : NameId} {args : Span} {breach : Breach}
    (hsound : Sound s ⟨.expr id, phase, agenda, vs ++ D, fs ++ F⟩)
    (hnode : s.program.expr? id = some (.call callee args))
    (hheld : held s (.call callee args) phase = some (vs.length, fs.length))
    (h : Machine.stepCall s ⟨.expr id, phase, agenda, vs ++ D, fs ++ F⟩ callee args
      = .error (.broken breach)) :
    Dangling s.program ⟨.expr id, phase, agenda, vs ++ D, fs ++ F⟩ breach := by
  cases hresolve : resolve s callee args with
  | error cause =>
      unfold stepCall at h
      rw [hresolve] at h
      cases h
      exact dangling_of_resolve rfl hnode hresolve
  | ok i =>
      exfalso
      suffices Avoids .breach (Machine.stepCall s ⟨.expr id, phase, agenda, vs ++ D, fs ++ F⟩
        callee args) from this _ h rfl
      have hlen := length_of_resolve hresolve
      unfold stepCall
      rw [hresolve, ok_bind]
      dsimp only
      by_cases hargs : phase ≤ i.callee.arity
      · rw [if_pos (Nat.lt_succ_of_le hargs)]
        rw [held_call hresolve hargs] at hheld
        simp only [Option.some.injEq, Prod.mk.injEq] at hheld
        obtain ⟨hvs, -⟩ := hheld
        cases hnext : i.callee.nextScalar? phase with
        | some position =>
            -- there is an argument for each parameter
            obtain ⟨-, hlt⟩ := Function.scalarsBefore_of_nextScalar? hnext
            dsimp only
            rw [List.getElem?_eq_getElem (hlen ▸ hlt)]
            exact .map (avoids_descend nofun)
        | none =>
            have hall := Function.scalarsBefore_of_nextScalar?_none hnext
            refine .map (.bind (avoids_vars fun _ => hsound.calls) fun caller _ => ?_)
            refine .bind (avoids_bind nofun nofun fun _ => ?_) fun _ _ => avoids_enter nofun
            rw [countP_bindings hlen (fun param => !param.isArray), ← hall, hvs]
            show vs.length ≤ (vs ++ D).length
            rw [List.length_append]
            exact Nat.le_add_right _ _
      · rw [if_neg fun hlt => hargs (Nat.le_of_lt_succ hlt)]
        by_cases hbody : phase = i.callee.arity + 1
        · subst hbody
          rw [held_body hresolve] at hheld
          obtain ⟨v, top, rfl, rfl⟩ := body_held hheld
          rw [if_pos rfl]
          refine .bind (avoids_leave fun _ => ⟨List.cons_ne_nil _ _, List.cons_ne_nil _ _⟩)
            fun ⟨result, m⟩ hleave => ?_
          have hagenda : m.agenda.entries = agenda.entries := by
            simp only [leave, List.singleton_append] at hleave
            split at hleave
            · cases hleave
            · cases hleave
              rfl
          dsimp only
          split
          · exact avoids_ok _
          · exact .map (avoids_produce fun _ => hagenda ▸ hsound.pending)
        · have hheld' : held s (.call callee args) phase = none := by
            cases phase with
            | zero => exact absurd (Nat.zero_le _) hargs
            | succ phase => simp only [held, hresolve, if_neg hargs, if_neg hbody]
          rw [hheld'] at hheld
          cases hheld

-- ================================================================== a step

/-- A node at work in a sound state breaks only where it follows a
reference that dangles. -/
theorem Sound.breach_stepNode {id : ExprId} {phase : Nat} {agenda : Agenda} {D vs : Values}
    {F fs : List Activation} {node : Expr} {breach : Breach}
    (hsound : Sound s ⟨.expr id, phase, agenda, vs ++ D, fs ++ F⟩)
    (hnode : s.program.expr? id = some node)
    (hheld : held s node phase = some (vs.length, fs.length))
    (h : Machine.stepNode s ⟨.expr id, phase, agenda, vs ++ D, fs ++ F⟩ node
      = .error (.broken breach)) :
    Dangling s.program ⟨.expr id, phase, agenda, vs ++ D, fs ++ F⟩ breach := by
  have hunbroken : Holding s node →
      Dangling s.program ⟨.expr id, phase, agenda, vs ++ D, fs ++ F⟩ breach :=
    fun hholding => absurd rfl (hholding hheld hsound _ h)
  cases node with
  | number value => exact hunbroken (holding_number value)
  | var var => exact hunbroken (holding_var var)
  | empty => exact hunbroken holding_empty
  | unary op operand => exact hunbroken (holding_unary op operand)
  | binary op left right => exact hunbroken (holding_binary op left right)
  | assign target value => exact hunbroken (holding_assign target value)
  | index array index => exact hunbroken (holding_index array index)
  | step op target => exact hunbroken (holding_step op target)
  | ternary cond thenArm elseArm =>
      exact hunbroken (holding_choice (fun _ => rfl) fun _ => rfl)
  | branch cond thenArm elseArm =>
      exact hunbroken (holding_choice (fun _ => rfl) fun _ => rfl)
  | seq first second => exact hunbroken (holding_seq first second)
  | loop cond body => exact hunbroken (holding_loop cond body)
  | call callee args => exact hsound.breach_stepCall hnode hheld h

/-- The node at work is in a phase it has, with what it holds on top of
the stacks. -/
theorem Inside.at_work {id : ExprId} {C : List Pending} {D : Values} {F : List Activation}
    {m : Machine} (h : Inside s id C D F m) :
    ∃ id' phase agenda vs D' fs F', m = ⟨.expr id', phase, agenda, vs ++ D', fs ++ F'⟩
      ∧ Holds s id' phase vs.length fs.length := by
  induction h with
  | here vs fs hholds _ => exact ⟨_, _, _, vs, _, fs, _, rfl, hholds⟩
  | under _ _ _ ih => exact ih

end Machine

namespace Interpreter

open Machine

variable {i : Interpreter} {name : String} {args : List Argument}

-- ========================================================== states of a run

/-- The return of a run: its function has left a value, and nothing is
pending. -/
structure Returns (m : Machine) : Prop where
  task : m.task = .entry
  phase : m.phase = 1
  value : ∃ v, m.values = [v]
  call : ∃ call, m.frames = [call]

/-- The first state: the body of the function is entered. -/
theorem Starts.eq {f : Function} {vars : Frame} {m : Machine}
    (h : i.Starts name args f vars m) :
    ∃ agenda, agenda.entries = [⟨1, .entry⟩]
      ∧ m = ⟨.expr f.body, 0, agenda, [], [⟨f, vars⟩]⟩ :=
  enter_inv h.started

/-- A run is at work on the body of its function until it returns. -/
theorem Reaches.inside_or_returns {t : List Store} {m : Machine} (h : i.Reaches name args t m) :
    (∃ f vars, Inside i.setting f.body [⟨1, .entry⟩] [] [⟨f, vars⟩] m) ∨ Returns m := by
  obtain ⟨f, vars, m₀, hstarts, hsteps⟩ := h
  suffices Inside i.setting f.body [⟨1, .entry⟩] [] [⟨f, vars⟩] m ∨ Returns m from
    this.imp_left fun hinside => ⟨f, vars, hinside⟩
  refine Steps.keeps (P := fun m => Inside i.setting f.body [⟨1, .entry⟩] [] [⟨f, vars⟩] m
    ∨ Returns m) ?_ hsteps ?_
  · intro m m' stored hstep hm
    rcases hm with hinside | hreturns
    · rcases hinside.step hstep with hinside' | hcompletes
      · exact .inl hinside'
      · obtain ⟨-, -, ⟨v, hv⟩, hresumed, hlength, -⟩ := hcompletes
        obtain ⟨hentry, -⟩ := List.cons.inj hresumed
        obtain ⟨call, hcall⟩ := List.length_eq_one_iff.mp hlength
        exact .inr ⟨congrArg Pending.task hentry.symm, congrArg Pending.phase hentry.symm,
          ⟨v, hv⟩, ⟨call, hcall⟩⟩
    · -- the return ends the run
      unfold Machine.step at hstep
      rw [hreturns.task] at hstep
      unfold stepEntry at hstep
      dsimp only at hstep
      rw [if_pos hreturns.phase] at hstep
      obtain ⟨⟨result, m₁⟩, -, hlast⟩ := bind_eq_ok.mp hstep
      cases hlast
  · obtain ⟨agenda, hentries, rfl⟩ := hstarts.eq
    left
    rw [← hentries]
    exact Inside.entered (m := ⟨.expr f.body, 0, agenda, [], [⟨f, vars⟩]⟩) rfl rfl

/-- Every array of every call has its declared length. -/
theorem Reaches.declared {t : List Store} {m : Machine} (h : i.Reaches name args t m) :
    ∀ call ∈ m.frames, call.vars.Declared i.program := by
  obtain ⟨f, vars, m₀, hstarts, hsteps⟩ := h
  refine hsteps.keeps (fun hstep hm => (change_of_step hstep).declared hm) ?_
  obtain ⟨agenda, -, rfl⟩ := hstarts.eq
  obtain ⟨given, -, hvars, hsized⟩ := given_of_bindArguments hstarts.bound
  refine List.forall_mem_singleton.mpr ?_
  dsimp only
  rw [hvars]
  exact Frame.declared_of_given hsized (Frame.declared_empty _)

/-- A state at work is sound. -/
theorem Reaches.sound {t : List Store} {m : Machine} {f : Function} {vars : Frame}
    (h : i.Reaches name args t m)
    (hinside : Inside i.setting f.body [⟨1, .entry⟩] [] [⟨f, vars⟩] m) : Sound i.setting m := by
  obtain ⟨hentries, -, -, hlength⟩ := hinside.intact
  refine ⟨?_, ?_, h.declared⟩
  · intro hnone
    rw [hnone] at hentries
    cases List.suffix_nil.mp hentries
  · intro hnone
    rw [hnone] at hlength
    exact absurd hlength (Nat.not_succ_le_zero 0)

/-- There is always a call in progress. -/
theorem Reaches.calls {t : List Store} {m : Machine} (h : i.Reaches name args t m) :
    m.frames ≠ [] := by
  rcases h.inside_or_returns with ⟨f, vars, hinside⟩ | hreturns
  · exact (h.sound hinside).calls
  · obtain ⟨call, hcall⟩ := hreturns.call
    rw [hcall]
    exact List.cons_ne_nil _ _

/-- A state that is reached breaks only where it follows a reference that
dangles. -/
theorem Reaches.dangling {t : List Store} {m : Machine} {breach : Breach}
    (h : i.Reaches name args t m) (hstep : m.step i.setting = .error (.broken breach)) :
    Dangling i.program m breach := by
  rcases h.inside_or_returns with ⟨f, vars, hinside⟩ | hreturns
  · have hsound := h.sound hinside
    obtain ⟨id, phase, agenda, vs, D, fs, F, rfl, hholds⟩ := hinside.at_work
    unfold Machine.step at hstep
    cases hnode : i.program.expr? id with
    | none =>
        simp only [setting, hnode] at hstep
        cases hstep
        exact .expr rfl (Array.getElem?_eq_none_iff.mp hnode)
    | some node =>
        simp only [setting, hnode] at hstep
        exact hsound.breach_stepNode hnode (hholds.held hnode) hstep
  · obtain ⟨task, phase, agenda, values, frames⟩ := m
    obtain ⟨rfl, rfl, ⟨v, rfl⟩, ⟨call, rfl⟩⟩ := hreturns
    have hlast : Avoids .breach (Machine.stepEntry i.setting ⟨.entry, 1, agenda, [v], [call]⟩) :=
      .map (avoids_leave fun _ => ⟨List.cons_ne_nil _ _, List.cons_ne_nil _ _⟩)
    exact absurd rfl (hlast _ hstep)

-- ================================================================ every run

/-- A call by the host that is refused is not refused for a breach. -/
theorem Refuses.unbroken {fault : Fault} (h : i.Refuses name args fault) (breach : Breach) :
    fault.cause ≠ .broken breach := by
  cases h with
  | undefined => nofun
  | @unbound f cause _ hargs =>
      rintro rfl
      have hbind : Avoids .breach (i.bindArguments f args) := avoids_bindArguments nofun
      exact hbind _ hargs rfl
  | @unstarted f vars _ _ _ hstart =>
      rintro rfl
      have henter : Avoids .breach (Machine.start i.maxDepth f vars) := avoids_enter nofun
      exact henter _ hstart rfl

/-- A run that fails for an internal inconsistency fails in a state that
follows a reference that dangles: a node outside the arena, the name of a
call outside the table of names, its arguments outside the lists, or a
callee with more parameters than can be counted. No state reached has an
array of another length than its declared one. -/
theorem dangling_of_breach (i : Interpreter) (name : String) (args : List Argument) :
    (∀ fault stores, i.Ends name args ⟨.error fault, stores⟩ →
      fault.category = .inconsistency →
        ∃ breach m, fault.cause = .broken breach ∧ fault.site = m.site
          ∧ i.Reaches name args stores m ∧ m.step i.setting = .error (.broken breach)
          ∧ Dangling i.program m breach)
    ∧ ∀ t m, i.Reaches name args t m → ∀ call ∈ m.frames, ∀ var values,
        call.vars.array? var = some values →
          ∃ sym, i.program.symbols.get? var = some sym ∧ values.size = sym.size := by
  refine ⟨?_, fun t m h call hcall var values hvalues => h.declared call hcall var values hvalues⟩
  rintro ⟨cause, site⟩ stores h hcategory
  obtain ⟨breach, rfl⟩ : ∃ breach, cause = .broken breach := by
    cases cause with
    | broken breach => exact ⟨breach, rfl⟩
    | _ => cases hcategory
  rcases h.last with ⟨fault, hrefuses, hout⟩ | ⟨m, hreaches, hlast⟩
  · cases hout
    exact absurd rfl (hrefuses.unbroken breach)
  · rcases hlast with ⟨cause, hstep, hout⟩ | ⟨value, -, hout⟩
    · cases hout
      exact ⟨breach, m, rfl, rfl, hreaches, hstep, hreaches.dangling hstep⟩
    · cases hout

/-- `cells[0] = 0`, and then a node that does not exist. -/
def astray : Interpreter where
  program := {
    arena := { nodes := #[.number 0.0, .assign (.element ⟨0⟩ ⟨0⟩) ⟨0⟩, .seq ⟨1⟩ ⟨9⟩] }
    symbols := { entries := #[⟨"cells", 2⟩] }
    functions := (Functions.empty.register ⟨"main", [], ⟨2⟩⟩).2 }

/-- `astray` fails at the node that is not there, and on the way its array
has the two elements that are declared. -/
theorem dangling_of_breach_astray :
    (∃ m, astray.Reaches "main" [] [.element ⟨0⟩ "cells" 0 0.0] m
      ∧ Dangling astray.program m (.danglingExpr ⟨9⟩))
    ∧ ∃ m call values, astray.Reaches "main" [] [.element ⟨0⟩ "cells" 0 0.0] m
      ∧ m.frames = [call] ∧ call.vars.array? ⟨0⟩ = some values ∧ values.size = 2 := by
  obtain ⟨hfails, hsized⟩ := dangling_of_breach astray "main" []
  constructor
  · have hends : astray.Ends "main" []
        ⟨.error ⟨.broken (.danglingExpr ⟨9⟩), ⟨some "main", some ⟨9⟩⟩⟩,
          [.element ⟨0⟩ "cells" 0 0.0]⟩ := ⟨20, rfl⟩
    obtain ⟨breach, m, hcause, -, hreaches, -, hdangling⟩ := hfails _ _ hends rfl
    cases hcause
    exact ⟨m, hreaches, hdangling⟩
  · -- the array is there behind the six steps of the assignment
    have hstarts : astray.Starts "main" [] ⟨"main", [], ⟨2⟩⟩ {} _ := ⟨rfl, rfl, rfl⟩
    have hreaches := (((((hstarts.reaches.step rfl).step rfl).step rfl).step rfl).step rfl).step rfl
    obtain ⟨sym, hsym, hsize⟩ :=
      hsized _ _ hreaches _ List.mem_cons_self ⟨0⟩ #[0.0, 0.0] rfl
    cases hsym
    exact ⟨_, _, #[0.0, 0.0], hreaches, rfl, rfl, hsize⟩

end Interpreter

end ExprGraph
