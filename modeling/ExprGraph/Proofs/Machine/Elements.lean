/-
Element accesses are exact.

What a call reads is looked up by spots: a scalar, or a slot of an array. A
scalar and an array of one number are different spots. An access with an
index that addresses a slot changes that spot alone (`Performs`), and one
with another index ends the run before anything is stored
(`step_of_fault`).

As long as a call stays in progress (`Stays`) its contents follow the
stores made while it was the latest, whatever the calls above it do. So
what an access leaves is found by the next one through any index of the
same slot (`element_access_exact`).
-/
import ExprGraph.Proofs.Indices
import ExprGraph.Proofs.Machine.ArrayArguments
import ExprGraph.Proofs.Machine.Nodes
import ExprGraph.Proofs.Machine.Replay

namespace ExprGraph

-- =================================================================== spots

/-- What holds one value: a scalar, or a slot of an array. -/
inductive Spot where
  | scalar (var : VarId)
  | element (array : VarId) (slot : Nat)
deriving DecidableEq

/-- What a store writes to. -/
def Store.spot : Store → Spot
  | .scalar var _ _ => .scalar var
  | .element array _ slot _ => .element array slot

namespace Contents

/-- The value of a spot. -/
def value? (c : Contents) : Spot → Option Float
  | .scalar var => c.scalar var
  | .element array slot => (c.array array).bind (·[slot]?)

variable {c : Contents} {spot : Spot}

/-- A store leaves all other spots alone. -/
theorem value?_store_of_ne {store : Store} (h : store.spot ≠ spot) :
    (c.store store).value? spot = c.value? spot := by
  cases store with
  | scalar var name value =>
      cases spot with
      | scalar other =>
          have hne : var ≠ other := fun heq => h (congrArg Spot.scalar heq)
          exact if_neg hne
      | element array slot => rfl
  | element array name slot value =>
      cases spot with
      | scalar var => rfl
      | element other slot' =>
          simp only [value?, store]
          by_cases heq : array = other
          · subst heq
            have hne : slot ≠ slot' := fun hslot => h (congrArg (Spot.element array) hslot)
            rw [if_pos rfl]
            cases c.array array with
            | none => rfl
            | some values => exact Array.getElem?_setIfInBounds_ne hne
          · rw [if_neg heq]

/-- A store to a slot that is there is read back. -/
theorem value?_store_element {array : VarId} {slot : Nat} {old : Float}
    (h : c.value? (.element array slot) = some old) (name : String) (value : Float) :
    (c.store (.element array name slot value)).value? (.element array slot) = some value := by
  obtain ⟨values, hvalues, hold⟩ := Option.bind_eq_some_iff.mp h
  obtain ⟨hlt, -⟩ := Array.getElem?_eq_some_iff.mp hold
  simp only [value?, store, if_pos, hvalues, Option.map_some, Option.bind_some]
  exact Array.getElem?_setIfInBounds_self_of_lt hlt

/-- Stores to other spots leave a spot alone. -/
theorem value?_stores {own : List Store} (h : ∀ store ∈ own, store.spot ≠ spot) :
    (own.foldl Contents.store c).value? spot = c.value? spot := by
  induction own generalizing c with
  | nil => rfl
  | cons store own ih =>
      obtain ⟨hstore, hown⟩ := List.forall_mem_cons.mp h
      exact (ih hown).trans (value?_store_of_ne hstore)

end Contents

/-- The value a call reads at a spot. -/
def Activation.value? (p : Program) (call : Activation) (spot : Spot) : Option Float :=
  (call.vars.contents p).value? spot

-- ================================================================= accesses

/-- What is done to an element. -/
inductive Access where
  | read
  | write (value : Float)
  | step (op : StepOp)

namespace Access

/-- The value that is stored where `old` was, if any. -/
def stored? : Access → Float → Option Float
  | .read, _ => none
  | .write value, _ => some value
  | .step op, old => some (old + op.delta)

/-- The value that is there afterwards. -/
def left (access : Access) (old : Float) : Float :=
  (access.stored? old).getD old

/-- The value of the node. -/
def result : Access → Float → Float
  | .read, old => old
  | .write value, _ => value
  | .step op, old => op.result old (old + op.delta)

end Access

namespace Frame

variable {p : Program} {f : Frame} {c : Cell}

/-- An array that is declared can be touched. -/
theorem exists_touch (f : Frame) (array : VarId) (sym : Symbol) :
    ∃ g, f.touch array sym.size = .ok g := by
  unfold touch
  rw [zeros_size]
  split
  · exact ⟨_, rfl⟩
  · exact ⟨_, rfl⟩

theorem value?_contents {array : VarId} {slot : Nat} {value : Float}
    (h : f.element? array slot = some value) :
    (f.contents p).value? (.element array slot) = some value := by
  obtain ⟨values, hvalues, hvalue⟩ := Option.bind_eq_some_iff.mp h
  simp only [Contents.value?, contents, hvalues, Option.some_or, Option.bind_some, hvalue]

/-- An element that a cell names can be read, and nothing changes by it. -/
theorem Declared.readCell (h : f.Declared p) (hc : c.In p) :
    ∃ old g, f.readCell c = .ok (old, g) ∧ g.contents p = f.contents p
      ∧ (f.contents p).value? (.element c.array c.slot) = some old ∧ g.Declared p := by
  obtain ⟨g, htouch⟩ := f.exists_touch c.array c.symbol
  obtain ⟨old, hold⟩ := Option.isSome_iff_exists.mp (h.isSome_element hc htouch)
  have hcontents := contents_touch hc.declared htouch
  refine ⟨old, g, ?_, hcontents, hcontents ▸ value?_contents hold, h.touch hc.declared htouch⟩
  unfold Frame.readCell
  simp only [htouch, ok_bind, hold]
  rfl

/-- An element that a cell names can be written, and nothing else changes by
it. -/
theorem Declared.storeCell (h : f.Declared p) (hc : c.In p) {old : Float}
    (hold : (f.contents p).value? (.element c.array c.slot) = some old) (value : Float) :
    ∃ g, f.storeCell c value = .ok (.element c.array c.symbol.name c.slot value, g)
      ∧ (g.contents p).value? (.element c.array c.slot) = some value
      ∧ ∀ spot, spot ≠ .element c.array c.slot →
        (g.contents p).value? spot = (f.contents p).value? spot := by
  obtain ⟨g, htouch⟩ := f.exists_touch c.array c.symbol
  have hstore : f.storeCell c value
      = .ok (.element c.array c.symbol.name c.slot value, g.setElement c.array c.slot value) := by
    unfold Frame.storeCell
    simp only [htouch, ok_bind, if_pos (h.isSome_element hc htouch)]
    rfl
  refine ⟨_, hstore, ?_, fun spot hne => ?_⟩
  · rw [(makes_of_storeCell hc hstore).contents]
    exact Contents.value?_store_element hold _ value
  · rw [(makes_of_storeCell hc hstore).contents]
    exact Contents.value?_store_of_ne hne.symm

end Frame

namespace Machine

variable {s : Setting}

/-- A node is about to access an element, with this index on top of the
values. -/
inductive AtElement (p : Program) (m : Machine) (array : VarId) (x : Float) :
    Access → Values → Prop
  | read {id index : ExprId} {rest : Values} : m.task = .expr id →
      p.expr? id = some (.index array index) → m.phase = 1 → m.values = x :: rest →
      AtElement p m array x .read rest
  | write {id index value : ExprId} {v : Float} {rest : Values} : m.task = .expr id →
      p.expr? id = some (.assign (.element array index) value) → m.phase = 2 →
      m.values = x :: v :: rest →
      AtElement p m array x (.write v) rest
  | step {id index : ExprId} {op : StepOp} {rest : Values} : m.task = .expr id →
      p.expr? id = some (.step op (.element array index)) → m.phase = 1 → m.values = x :: rest →
      AtElement p m array x (.step op) rest

/-- The next step is an access to a slot in which the call finds `old`. The
call reads there what the access leaves, and elsewhere what it read
before. -/
structure Performs (s : Setting) (access : Access) (array : VarId) (sym : Symbol) (slot : Nat)
    (rest : Values) (below : List Activation) (call : Activation) (old : Float) (m m' : Machine)
    (call' : Activation) : Prop where
  step : m.step s = .ok (.running m' ((access.stored? old).map (.element array sym.name slot)))
  values : m'.values = access.result old :: rest
  frames : m'.frames = call' :: below
  found : call.value? s.program (.element array slot) = some old
  left : call'.value? s.program (.element array slot) = some (access.left old)
  others : ∀ spot, spot ≠ .element array slot →
    call'.value? s.program spot = call.value? s.program spot

section Steps

variable {m : Machine} {array : VarId} {sym : Symbol} {x : Float} {access : Access} {rest : Values}

/-- In an array that is declared, an element is a slot. -/
theorem cell_of_declared (hget : s.program.symbols.get? array = some sym) (x : Float) :
    s.program.cell array x = (sym.slot x).map fun slot => ⟨array, sym, slot⟩ := by
  unfold Program.cell
  rw [Program.symbol_eq_ok_iff.mpr hget, ok_bind]
  cases sym.slot x <;> rfl

theorem AtElement.task {p : Program} (h : AtElement p m array x access rest) :
    ∃ id, m.task = .expr id := by
  cases h with
  | read htask | write htask | step htask => exact ⟨_, htask⟩

/-- An access with an index that addresses no slot fails. -/
theorem AtElement.step_of_fault (h : AtElement s.program m array x access rest)
    (hget : s.program.symbols.get? array = some sym) {cause : Cause}
    (hslot : sym.slot x = .error cause) : m.step s = .error cause := by
  have hcell : s.program.cell array x = .error cause := by
    rw [cell_of_declared hget, hslot]
    rfl
  obtain ⟨task, phase, agenda, values, frames⟩ := m
  cases h with
  | read htask hnode hphase hvalues =>
      cases hphase
      cases hvalues
      rw [step_of_node htask hnode]
      simp only [stepNode, stepIndex, pop_cons, hcell, ok_bind, error_bind]
  | write htask hnode hphase hvalues =>
      cases hphase
      cases hvalues
      rw [step_of_node htask hnode]
      simp only [stepNode, stepAssign, pop_cons, peek_cons, hcell, ok_bind, error_bind]
  | step htask hnode hphase hvalues =>
      cases hphase
      cases hvalues
      rw [step_of_node htask hnode]
      simp only [stepNode, stepStep, pop_cons, hcell, ok_bind, error_bind]

/-- An access with an index that addresses a slot is made. -/
theorem AtElement.performs (h : AtElement s.program m array x access rest) (hsound : Sound s m)
    (hget : s.program.symbols.get? array = some sym) {slot : Nat} (hslot : sym.slot x = .ok slot)
    {call : Activation} {below : List Activation} (hF : m.frames = call :: below) :
    ∃ old m' call', Performs s access array sym slot rest below call old m m' call' := by
  have hcell : s.program.cell array x = .ok ⟨array, sym, slot⟩ := by
    rw [cell_of_declared hget, hslot]
    rfl
  have hc : (⟨array, sym, slot⟩ : Cell).In s.program := ⟨hget, Symbol.lt_of_slot hslot⟩
  have hdeclared : call.vars.Declared s.program :=
    hsound.declared call (by rw [hF]; exact List.mem_cons_self)
  obtain ⟨old, vars, hread, hsame, hold, hdeclared'⟩ := hdeclared.readCell hc
  obtain ⟨⟨p, back⟩, hpop⟩ : ∃ popped, m.agenda.pop = some popped :=
    Option.ne_none_iff_exists'.mp fun hnone =>
      hsound.pending ((Agenda.pop_eq_none_iff _).mp hnone)
  obtain ⟨task, phase, agenda, values, frames⟩ := m
  obtain ⟨f, entered⟩ := call
  cases hF
  cases h with
  | read htask hnode hphase hvalues =>
      cases hphase
      cases hvalues
      refine ⟨old, ⟨p.task, p.phase, back, old :: rest, ⟨f, vars⟩ :: below⟩, ⟨f, vars⟩,
        ?_, rfl, rfl, hold, ?_, fun spot _ => congrArg (Contents.value? · spot) hsame⟩
      · rw [step_of_node htask hnode]
        simp only [stepNode, stepIndex, pop_cons, hcell, access_cons, hread, ok_bind,
          produce_of_pop hpop]
        rfl
      · exact (congrArg (Contents.value? · _) hsame).trans hold
  | @write id index value v rest htask hnode hphase hvalues =>
      cases hphase
      cases hvalues
      obtain ⟨vars', hstore, hleft, hothers⟩ := hdeclared.storeCell hc hold v
      refine ⟨old, ⟨p.task, p.phase, back, v :: rest, ⟨f, vars'⟩ :: below⟩, ⟨f, vars'⟩,
        ?_, rfl, rfl, hold, hleft, hothers⟩
      rw [step_of_node htask hnode]
      simp only [stepNode, stepAssign, pop_cons, peek_cons, hcell, access_cons, hstore, ok_bind,
        complete_of_pop hpop]
      rfl
  | @step id index op rest htask hnode hphase hvalues =>
      cases hphase
      cases hvalues
      -- the store comes behind the read, which has changed no contents
      rw [← hsame] at hold
      obtain ⟨vars', hstore, hleft, hothers⟩ := hdeclared'.storeCell hc hold (old + op.delta)
      rw [hsame] at hold hothers
      refine ⟨old, ⟨p.task, p.phase, back, op.result old (old + op.delta) :: rest,
        ⟨f, vars'⟩ :: below⟩, ⟨f, vars'⟩, ?_, rfl, rfl, hold, hleft, hothers⟩
      rw [step_of_node htask hnode]
      simp only [stepNode, stepStep, pop_cons, hcell, access_cons, hread, hstore, ok_bind,
        produce_of_pop hpop]
      rfl

end Steps

-- =========================================================== calls that stay

/-- The call with so many calls below it stays in progress from one state
to another. What is stored while it is the latest call is its own. -/
inductive Stays (s : Setting) (below : Nat) (m : Machine) : List Store → Machine → Prop
  | refl : Stays s below m [] m
  | own {own : List Store} {m₁ m₂ : Machine} {stored : Option Store} : Stays s below m own m₁ →
      m₁.step s = .ok (.running m₂ stored) → m₁.frames.length = below + 1 →
      below < m₂.frames.length → Stays s below m (own ++ stored.toList) m₂
  | above {own : List Store} {m₁ m₂ : Machine} {stored : Option Store} : Stays s below m own m₁ →
      m₁.step s = .ok (.running m₂ stored) → below + 1 < m₁.frames.length →
      Stays s below m own m₂

section Stays

variable {p : Program} {F F' below : List Activation} {stored : Option Store} {call : Activation}

/-- The call with these calls below it is in progress, and reads these
contents. -/
def Reads (p : Program) (F below : List Activation) (c : Contents) : Prop :=
  ∃ above call, F = above ++ call :: below ∧ call.vars.contents p = c

/-- The latest call has none above it. -/
theorem eq_nil_of_latest {above : List Activation}
    (h : (above ++ call :: below).length = below.length + 1) : above = [] := by
  rw [List.length_append, List.length_cons] at h
  exact List.eq_nil_of_length_eq_zero (by omega)

/-- A step of the latest call, other than its return, lays what it stores
over what it reads. -/
theorem Change.reads_own {c : Contents} (h : Change p F stored F') (hreads : Reads p F below c)
    (htop : F.length = below.length + 1) (hstays : below.length < F'.length) :
    Reads p F' below (stored.toList.foldl Contents.store c) := by
  obtain ⟨above, call, rfl, hc⟩ := hreads
  obtain rfl := eq_nil_of_latest htop
  cases h with
  | same => exact ⟨[], call, rfl, hc⟩
  | touched hget htouch => exact ⟨[], _, rfl, (Frame.contents_touch hget htouch).trans hc⟩
  | stored hmakes => exact ⟨[], _, rfl, hmakes.contents.trans (congrArg (Contents.store · _) hc)⟩
  | entered henters => exact ⟨[_], call, rfl, hc⟩
  | left => exact absurd hstays (Nat.lt_irrefl _)

/-- A step of a call above leaves alone what a call reads. -/
theorem Change.reads_above {c : Contents} (h : Change p F stored F') (hreads : Reads p F below c)
    (habove : below.length + 1 < F.length) : Reads p F' below c := by
  obtain ⟨above, call, hF, hc⟩ := hreads
  cases above with
  | nil =>
      rw [hF] at habove
      exact absurd habove (Nat.lt_irrefl _)
  | cons latest above =>
      cases h with
      | same => exact ⟨_, call, hF, hc⟩
      | touched =>
          cases hF
          exact ⟨_ :: above, call, rfl, hc⟩
      | stored =>
          cases hF
          exact ⟨_ :: above, call, rfl, hc⟩
      | entered =>
          rw [hF]
          exact ⟨_ :: latest :: above, call, rfl, hc⟩
      | left =>
          cases hF
          exact ⟨above, call, rfl, hc⟩

/-- A call reads what it read, with its own stores laid over that. -/
theorem Stays.reads {m m' : Machine} {own : List Store} {c : Contents}
    (h : Stays s below.length m own m') (hreads : Reads s.program m.frames below c) :
    Reads s.program m'.frames below (own.foldl Contents.store c) := by
  induction h with
  | refl => exact hreads
  | own _ hstep htop hstays ih =>
      rw [List.foldl_append]
      exact (change_of_step hstep).reads_own ih htop hstays
  | above _ hstep habove ih => exact (change_of_step hstep).reads_above ih habove

end Stays

end Machine

-- ==================================================================== runs

/-- The array that a node accesses in this phase. -/
def Expr.accesses? : Expr → Nat → Option VarId
  | .index array _, 1 => some array
  | .assign (.element array _) _, 2 => some array
  | .step _ (.element array _), 1 => some array
  | _, _ => none

namespace Interpreter

open Machine

variable {i : Interpreter} {name : String} {args : List Argument}

theorem Reaches.sound_of_access {t : List Store} {m : Machine} {array : VarId} {x : Float}
    {access : Access} {rest : Values} (h : i.Reaches name args t m)
    (hat : AtElement i.program m array x access rest) : Sound i.setting m := by
  rcases h.inside_or_returns with ⟨f, vars, hinside⟩ | hreturns
  · exact h.sound hinside
  · obtain ⟨id, htask⟩ := hat.task
    rw [hreturns.task] at htask
    cases htask

theorem Reaches.stays {t : List Store} {below : Nat} {m m' : Machine} {own : List Store}
    (h : i.Reaches name args t m) (hstays : Stays i.setting below m own m') :
    ∃ t', i.Reaches name args t' m' := by
  induction hstays with
  | refl => exact ⟨t, h⟩
  | own _ hstep _ _ ih =>
      obtain ⟨t', ht'⟩ := ih
      exact ⟨_, ht'.step hstep⟩
  | above _ hstep _ ih =>
      obtain ⟨t', ht'⟩ := ih
      exact ⟨_, ht'.step hstep⟩

/-- Where an access is due, its index is there. -/
theorem Reaches.exists_atElement {t : List Store} {m : Machine} {id : ExprId} {node : Expr}
    {array : VarId} (h : i.Reaches name args t m) (htask : m.task = .expr id)
    (hnode : i.program.expr? id = some node) (hdue : node.accesses? m.phase = some array) :
    ∃ x access rest, AtElement i.program m array x access rest := by
  rcases h.inside_or_returns with ⟨f, vars, hinside⟩ | hreturns
  · obtain ⟨id', phase, agenda, vs, D, fs, F, rfl, hholds⟩ := hinside.at_work
    cases htask
    have hheld := hholds.held hnode
    unfold Expr.accesses? at hdue
    split at hdue
    · rename_i hphase
      cases hphase
      cases hdue
      obtain ⟨x, rfl, rfl⟩ := one_held hheld
      exact ⟨x, _, D, .read rfl hnode rfl rfl⟩
    · rename_i hphase
      cases hphase
      cases hdue
      obtain ⟨x, v, rfl, rfl⟩ := two_held hheld
      exact ⟨x, _, D, .write rfl hnode rfl rfl⟩
    · rename_i hphase
      cases hphase
      cases hdue
      obtain ⟨x, rfl, rfl⟩ := one_held hheld
      exact ⟨x, _, D, .step rfl hnode rfl rfl⟩
    · cases hdue
  · rw [hreturns.task] at htask
    cases htask

/-- In every state that is reached, an access to an element of an array that
is declared does what its index says. Every index has one answer. One that
addresses no slot ends the run for a number that is out of range, before
anything is stored. One that addresses a slot accesses it and leaves all
else alone; and as long as the call stays, a spot it does not store to keeps
its value, so that an access to the same slot, whatever its index, finds
what was left there. -/
theorem element_access_exact (i : Interpreter) (name : String) (args : List Argument)
    {t : List Store} {m : Machine} {array : VarId} {sym : Symbol} {x : Float} {access : Access}
    {rest : Values} (h : i.Reaches name args t m)
    (hget : i.program.symbols.get? array = some sym)
    (hat : AtElement i.program m array x access rest) :
    (∃! answer, sym.Addresses x answer)
    ∧ (∀ cause, sym.Addresses x (.error cause) →
      cause.category = .range ∧ i.Ends name args ⟨.error ⟨cause, m.site⟩, t⟩)
    ∧ ∀ slot, sym.Addresses x (.ok slot) →
      ∃ call below old m' call', m.frames = call :: below
        ∧ Performs i.setting access array sym slot rest below call old m m' call'
        ∧ ∀ own m'', Stays i.setting below.length m' own m'' →
          ∃ above call'', m''.frames = above ++ call'' :: below
            ∧ (∀ spot, (∀ store ∈ own, store.spot ≠ spot) →
              call''.value? i.program spot = call'.value? i.program spot)
            ∧ ∀ y access' rest', above = [] → AtElement i.program m'' array y access' rest' →
              sym.Addresses y (.ok slot) → (∀ store ∈ own, store.spot ≠ .element array slot) →
              ∃ m₃ call₃, Performs i.setting access' array sym slot rest' below call''
                (access.left old) m'' m₃ call₃ := by
  refine ⟨⟨sym.slot x, Symbol.addresses_iff_slot.mpr rfl, fun answer hanswer =>
    (Symbol.slot_of_addresses hanswer).symm⟩, fun cause hfault => ?_, fun slot hslot => ?_⟩
  · have hstep : m.step i.setting = .error cause :=
      hat.step_of_fault hget (Symbol.slot_of_addresses hfault)
    exact ⟨hfault.category, h.ends (.inl ⟨cause, hstep, rfl⟩)⟩
  · obtain ⟨call, below, hF⟩ := List.exists_cons_of_ne_nil h.calls
    obtain ⟨old, m', call', hperforms⟩ :=
      hat.performs (h.sound_of_access hat) hget (Symbol.slot_of_addresses hslot) hF
    refine ⟨call, below, old, m', call', hF, hperforms, fun own m'' hstays => ?_⟩
    have hreads : Reads i.program m'.frames below (call'.vars.contents i.program) :=
      ⟨[], call', hperforms.frames, rfl⟩
    obtain ⟨above, call'', hF'', hcontents⟩ := hstays.reads hreads
    have hkept : ∀ spot, (∀ store ∈ own, store.spot ≠ spot) →
        call''.value? i.program spot = call'.value? i.program spot := fun spot hother =>
      (congrArg (Contents.value? · spot) hcontents).trans (Contents.value?_stores hother)
    refine ⟨above, call'', hF'', hkept, fun y access' rest' htop hat' hslot' hother => ?_⟩
    subst htop
    obtain ⟨t'', hreaches⟩ := (h.step hperforms.step).stays hstays
    obtain ⟨old', m₃, call₃, hperforms'⟩ :=
      hat'.performs (hreaches.sound_of_access hat') hget (Symbol.slot_of_addresses hslot') hF''
    -- what the second access finds is what the first has left
    have hfound : some old' = some (access.left old) :=
      hperforms'.found.symm.trans ((hkept _ hother).trans hperforms.left)
    cases hfound
    exact ⟨m₃, call₃, hperforms'⟩

/-- `cells[1] = 5; result = cells[1.5]`, with two cells. -/
def halves : Interpreter where
  program := {
    arena := { nodes := #[.number 5.0, .number 1.0, .assign (.element ⟨0⟩ ⟨1⟩) ⟨0⟩, .number 1.5,
      .index ⟨0⟩ ⟨3⟩, .assign (.scalar ⟨1⟩) ⟨4⟩, .seq ⟨2⟩ ⟨5⟩] }
    symbols := { entries := #[⟨"cells", 2⟩, ⟨"result", 1⟩] }
    functions := (Functions.empty.register ⟨"main", [], ⟨6⟩⟩).2 }

/-- `halves` reads at 1.5 what it has stored at 1. -/
theorem element_access_exact_halves :
    ∃ m m', halves.Reaches "main" [] [.element ⟨0⟩ "cells" 1 5.0] m
      ∧ m.step halves.setting = .ok (.running m' none) ∧ m'.values = [5.0] := by
  have hstarts : halves.Starts "main" [] ⟨"main", [], ⟨6⟩⟩ {} _ := ⟨rfl, rfl, rfl⟩
  -- up to the assignment, with its value and its index
  have hreaches := ((((hstarts.reaches.step rfl).step rfl).step rfl).step rfl).step rfl
  obtain ⟨-, -, hslot⟩ := @element_access_exact halves "main" [] _ _ ⟨0⟩ _ 1.0 (.write 5.0) []
    hreaches rfl (.write rfl rfl rfl rfl)
  obtain ⟨call, below, old, m', call', hF, hperforms, hlater⟩ :=
    hslot 1 (Symbol.addresses_iff_slot.mpr rfl)
  cases hF
  cases hperforms.step
  -- up to the read, with its index
  obtain ⟨above, call'', hF, -, hread⟩ := hlater _ _ (.own (.own (.own (.own .refl
    rfl rfl Nat.one_pos) rfl rfl Nat.one_pos) rfl rfl Nat.one_pos) rfl rfl Nat.one_pos)
  have htop : above = [] := eq_nil_of_latest (congrArg List.length hF).symm
  obtain ⟨m₃, call₃, hperforms'⟩ := hread 1.5 .read [] htop (.read rfl rfl rfl rfl)
    (Symbol.addresses_iff_slot.mpr rfl) (by nofun)
  exact ⟨_, m₃, (((((hreaches.step rfl).step rfl).step rfl).step rfl).step rfl),
    hperforms'.step, hperforms'.values⟩

end Interpreter

end ExprGraph
