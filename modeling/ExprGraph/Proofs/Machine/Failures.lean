/-
Which failures a computation can come to.

Three kinds of failure are told apart from the rest (`Cause.kind?`): a
variable that is not declared, a breach, and a limit on what waits. For
every look-up and every move of the machine it is said once which kinds it
avoids. What a kind has to do with the state, or with the program, is a
condition of that lemma: no breach as long as the stacks are filled, no
undeclared variable as long as those that are looked up are declared. The
condition is void for the other kinds, and a move that no kind is about
has none.

A theorem about one kind puts the moves of a node together with
`Avoids.bind`.
-/
import ExprGraph.Interpreter

namespace ExprGraph

/-- A variable that is declared. -/
def Symbols.Has (t : Symbols) (var : VarId) : Prop :=
  ∃ sym, t.get? var = some sym

/-- The kinds of failure that are told apart. -/
inductive Cause.Kind where
  /-- A variable is not declared. -/
  | undeclared
  /-- An invariant of the machine is broken, or a reference of the program
  dangles. -/
  | breach
  /-- Too much waits. -/
  | limit

/-- The kind of a cause, if it is of one that is told apart. -/
def Cause.kind? : Cause → Option Cause.Kind
  | .unknownVariable _ => some .undeclared
  | .broken _ => some .breach
  | .depthLimit _ => some .limit
  | _ => none

-- ========================================================= avoiding a kind

section Kinds

variable {α β : Type} {kind : Cause.Kind}

/-- The computation does not fail with a cause of this kind. -/
def Avoids (kind : Cause.Kind) (x : Except Cause α) : Prop :=
  ∀ cause, x = .error cause → cause.kind? ≠ some kind

variable {x : Except Cause α} {f : α → Except Cause β}

/-- A failure of two computations one behind the other is one of them. -/
theorem bind_eq_error {cause : Cause} :
    (x >>= f) = .error cause ↔ x = .error cause ∨ ∃ a, x = .ok a ∧ f a = .error cause := by
  cases x <;> simp [bind, Except.bind]

/-- What succeeds avoids every kind. -/
theorem avoids_ok (a : α) : Avoids kind (.ok a : Except Cause α) := by nofun

/-- What fails avoids the kinds that its cause is not of. -/
theorem avoids_error {cause : Cause} (h : cause.kind? ≠ some kind) :
    Avoids kind (.error cause : Except Cause α) := by
  intro cause' heq
  cases heq
  exact h

/-- A failure that is of no kind is of none to be avoided. -/
theorem avoids_plain {cause : Cause} (h : cause.kind? = none) :
    Avoids kind (.error cause : Except Cause α) :=
  avoids_error (h ▸ nofun)

/-- An undeclared variable is of one kind only. -/
theorem avoids_undeclared {var : VarId} (h : kind ≠ .undeclared) :
    Avoids kind (.error (.unknownVariable var) : Except Cause α) :=
  avoids_error fun hkind => h (Option.some.inj hkind).symm

/-- A breach is of one kind only. -/
theorem avoids_breach {breach : Breach} (h : kind ≠ .breach) :
    Avoids kind (.error (.broken breach) : Except Cause α) :=
  avoids_error fun hkind => h (Option.some.inj hkind).symm

/-- A limit is of one kind only. -/
theorem avoids_limit {limit : Nat} (h : kind ≠ .limit) :
    Avoids kind (.error (.depthLimit limit) : Except Cause α) :=
  avoids_error fun hkind => h (Option.some.inj hkind).symm

/-- A sequence avoids what its parts avoid. -/
theorem Avoids.bind (hx : Avoids kind x) (hf : ∀ a, x = .ok a → Avoids kind (f a)) :
    Avoids kind (x >>= f) := by
  intro cause h
  rcases bind_eq_error.mp h with h | ⟨a, ha, h⟩
  · exact hx cause h
  · exact hf a ha cause h

/-- What is made of the value in the end does not matter. -/
theorem Avoids.map {g : α → β} (hx : Avoids kind x) : Avoids kind (x >>= fun a => pure (g a)) :=
  hx.bind fun a _ => avoids_ok (g a)

end Kinds

variable {kind : Cause.Kind}

-- ================================================================= look-ups

section LookUps

variable {p : Program} {var array : VarId}

/-- Looking up a declaration fails if there is none. -/
theorem avoids_symbol (h : kind = .undeclared → p.symbols.Has var) :
    Avoids kind (p.symbol var) := by
  unfold Program.symbol
  split
  · exact avoids_ok _
  · rename_i hnone
    refine avoids_undeclared fun hkind => ?_
    obtain ⟨sym, hsym⟩ := h hkind
    rw [hnone] at hsym
    cases hsym

/-- A bad index is a failure of the run's own. -/
theorem avoids_slot (sym : Symbol) (index : Float) : Avoids kind (sym.slot index) := by
  unfold Symbol.slot
  split
  · exact avoids_plain rfl
  · split
    · exact avoids_plain rfl
    · split
      · exact avoids_plain rfl
      · dsimp only
        split
        · exact avoids_ok _
        · exact avoids_plain rfl

/-- Addressing an element looks up its array. -/
theorem avoids_cell {index : Float} (h : kind = .undeclared → p.symbols.Has array) :
    Avoids kind (p.cell array index) :=
  .bind (avoids_symbol h) fun sym _ => .map (avoids_slot sym index)

/-- So is a division by zero. -/
theorem avoids_eval (op : BinaryOp) (left right : Float) : Avoids kind (op.eval left right) := by
  unfold BinaryOp.eval
  split
  case h_4 =>
    split
    · exact avoids_plain rfl
    · exact avoids_ok _
  all_goals exact avoids_ok _

end LookUps

namespace Frame

variable {p : Program} {var : VarId}

/-- Running out of memory is of no kind either. -/
theorem avoids_zeros (len : Nat) : Avoids kind (zeros len) := by
  unfold zeros
  split
  · exact avoids_ok _
  · exact avoids_plain rfl

/-- A copy of an array that does not exist is made of zeros. -/
theorem avoids_snapshot (f : Frame) (var : VarId) (len : Nat) :
    Avoids kind (f.snapshot var len) := by
  unfold snapshot
  split
  · exact avoids_ok _
  · exact avoids_zeros len

/-- An array that does not exist is made of zeros. -/
theorem avoids_touch (f : Frame) (var : VarId) (len : Nat) : Avoids kind (f.touch var len) := by
  unfold touch
  split
  · exact avoids_ok _
  · intro cause h
    cases hzeros : zeros len with
    | ok values => rw [hzeros] at h; cases h
    | error cause' =>
        rw [hzeros] at h
        cases h
        exact avoids_zeros len _ hzeros

/-- Reading a scalar looks it up. That it was not assigned is a failure of
the run's own. -/
theorem avoids_readScalar {f : Frame} (h : kind = .undeclared → p.symbols.Has var) :
    Avoids kind (f.readScalar p var) := by
  refine .bind (avoids_symbol h) fun sym _ => ?_
  split
  · exact avoids_ok _
  · exact avoids_plain rfl

theorem avoids_storeScalar {f : Frame} {value : Float}
    (h : kind = .undeclared → p.symbols.Has var) : Avoids kind (f.storeScalar p var value) :=
  .map (avoids_symbol h)

/-- The element that a cell names is there once its array was touched. -/
def Has (f : Frame) (c : Cell) : Prop :=
  ∀ g, f.touch c.array c.symbol.size = .ok g → (g.element? c.array c.slot).isSome = true

/-- Reading an element breaks if the array is too short. -/
theorem avoids_readCell {f : Frame} {c : Cell} (h : kind = .breach → f.Has c) :
    Avoids kind (f.readCell c) := by
  refine .bind (avoids_touch f _ _) fun g hg => ?_
  split
  · exact avoids_ok _
  · rename_i hnone
    refine avoids_breach fun hkind => ?_
    have hsome := h hkind g hg
    rw [hnone] at hsome
    cases hsome

/-- So does writing one. -/
theorem avoids_storeCell {f : Frame} {c : Cell} {value : Float}
    (h : kind = .breach → f.Has c) : Avoids kind (f.storeCell c value) := by
  refine .bind (avoids_touch f _ _) fun g hg => ?_
  split
  · exact avoids_ok _
  · rename_i hnone
    exact avoids_breach fun hkind => hnone (h hkind g hg)

end Frame

-- =================================================================== moves

namespace Machine

variable {s : Setting} {m : Machine}

/-- Pushing is the one move that a limit is about. -/
theorem avoids_push {a : Agenda} {p : Pending} (h : kind ≠ .limit) : Avoids kind (a.push p) := by
  unfold Agenda.push
  split
  · exact avoids_ok _
  · exact avoids_limit h

theorem avoids_descend {resume : Nat} {child : ExprId} (h : kind ≠ .limit) :
    Avoids kind (m.descend resume child) :=
  .map (avoids_push h)

theorem avoids_enter {f : Function} {vars : Frame} {resume : Nat} (h : kind ≠ .limit) :
    Avoids kind (m.enter f vars resume) :=
  .map (avoids_push h)

/-- Completing needs a task that waits. -/
theorem avoids_complete (h : kind = .breach → m.agenda.entries ≠ []) :
    Avoids kind m.complete := by
  unfold complete
  split
  · exact avoids_ok _
  · rename_i hpop
    exact avoids_breach fun hkind => h hkind ((Agenda.pop_eq_none_iff _).mp hpop)

theorem avoids_produce {value : Float} (h : kind = .breach → m.agenda.entries ≠ []) :
    Avoids kind (m.produce value) :=
  avoids_complete (m := { m with values := value :: m.values }) h

/-- Taking a value needs one. -/
theorem avoids_pop_values {values : Values} (h : kind = .breach → values ≠ []) :
    Avoids kind values.pop := by
  cases values with
  | nil => exact avoids_breach fun hkind => h hkind rfl
  | cons value values => exact avoids_ok _

theorem avoids_peek {values : Values} (h : kind = .breach → values ≠ []) :
    Avoids kind values.peek := by
  cases values with
  | nil => exact avoids_breach fun hkind => h hkind rfl
  | cons value values => exact avoids_ok _

theorem avoids_pop (h : kind = .breach → m.values ≠ []) : Avoids kind m.pop :=
  .map (avoids_pop_values h)

/-- The variables of the call in progress need a call. -/
theorem avoids_vars (h : kind = .breach → m.frames ≠ []) : Avoids kind m.vars := by
  unfold vars
  split
  · exact avoids_ok _
  · rename_i hframes
    exact avoids_breach fun hkind => h hkind hframes

/-- An access needs a call in progress, and fails as the access to its
variables does. -/
theorem avoids_access {α : Type} {act : Frame → Except Cause (α × Frame)}
    (h : kind = .breach → m.frames ≠ []) (hact : ∀ call ∈ m.frames, Avoids kind (act call.vars)) :
    Avoids kind (m.access act) := by
  obtain ⟨task, phase, agenda, values, frames⟩ := m
  cases frames with
  | nil => exact avoids_breach fun hkind => h hkind rfl
  | cons top rest => exact .map (hact top List.mem_cons_self)

-- =================================================================== calls

/-- Apart from breaches, only the callee and the number of its arguments
are refused. -/
theorem avoids_resolve {callee : NameId} {args : Span} (h : kind ≠ .breach) :
    Avoids kind (resolve s callee args) := by
  unfold resolve
  cases s.program.names.text? callee with
  | none => exact avoids_breach h
  | some name =>
      dsimp only
      cases s.program.function? name with
      | none => exact avoids_plain rfl
      | some f =>
          dsimp only
          cases s.program.arena.list? args with
          | none => exact avoids_breach h
          | some ids =>
              dsimp only
              by_cases hlen : ids.length = f.arity
              · by_cases hmax : f.arity ≤ maxArity
                · rw [if_pos hlen, if_pos hmax]
                  exact avoids_ok _
                · rw [if_pos hlen, if_neg hmax]
                  exact avoids_breach h
              · rw [if_neg hlen]
                exact avoids_plain rfl

/-- Two declarations are looked up: that of the variable the argument is,
and that of the parameter. -/
theorem avoids_arrayArgument {caller : Frame} {f : Function} {position : Nat} {arg : ExprId}
    {array : VarId}
    (hgiven : kind = .undeclared → ∀ source, s.program.expr? arg = some (.var source) →
      s.program.symbols.Has source)
    (hwanted : kind = .undeclared → s.program.symbols.Has array) :
    Avoids kind (arrayArgument s caller f position arg array) := by
  unfold arrayArgument
  split
  · rename_i source hnode
    cases hfound : s.program.symbols.get? source with
    | none =>
        refine avoids_undeclared fun hkind => ?_
        obtain ⟨sym, hsym⟩ := hgiven hkind source hnode
        rw [hfound] at hsym
        cases hsym
    | some given =>
        dsimp only
        cases hfound' : s.program.symbols.get? array with
        | none =>
            refine avoids_undeclared fun hkind => ?_
            obtain ⟨sym, hsym⟩ := hwanted hkind
            rw [hfound'] at hsym
            cases hsym
        | some wanted =>
            dsimp only
            by_cases hsize : given.size = wanted.size
            · rw [if_pos hsize]
              exact Frame.avoids_snapshot _ _ _
            · rw [if_neg hsize]
              exact avoids_plain rfl
  · exact avoids_plain rfl

/-- Arguments can be bound as long as there is a value for each scalar. -/
theorem avoids_bind {caller : Frame} {f : Function} {entries : List (Nat × Param × ExprId)}
    {vars : Frame} {values : Values}
    (hgiven : kind = .undeclared → ∀ arg source, s.program.expr? arg = some (.var source) →
      s.program.symbols.Has source)
    (hwanted : kind = .undeclared → ∀ param ∈ entries.map (fun entry => entry.2.1),
      s.program.symbols.Has param.var)
    (hvalues : kind = .breach →
      entries.countP (fun entry => !entry.2.1.isArray) ≤ values.length) :
    Avoids kind (Machine.bind s caller f entries vars values) := by
  induction entries generalizing vars values with
  | nil => exact avoids_ok _
  | cons entry entries ih =>
      have hrest := fun hkind => (List.forall_mem_cons.mp (hwanted hkind)).2
      obtain ⟨position, param, arg⟩ := entry
      cases param with
      | scalar var =>
          rw [List.countP_cons_of_pos rfl] at hvalues
          cases values with
          | nil => exact avoids_breach fun hkind => Nat.not_succ_le_zero _ (hvalues hkind)
          | cons value values =>
              exact ih hrest fun hkind => Nat.le_of_succ_le_succ (hvalues hkind)
      | array var =>
          rw [List.countP_cons_of_neg Bool.false_ne_true] at hvalues
          refine .bind (avoids_arrayArgument (fun hkind => hgiven hkind arg) fun hkind => ?_)
            fun contents _ => ih hrest hvalues
          exact (List.forall_mem_cons.mp (hwanted hkind)).1

/-- A missing result is a failure of the run's own. -/
theorem avoids_leave (h : kind = .breach → m.frames ≠ [] ∧ m.values ≠ []) :
    Avoids kind (m.leave s) := by
  unfold leave
  split
  · rename_i hframes
    exact avoids_breach fun hkind => (h hkind).1 hframes
  · split
    · exact avoids_plain rfl
    · exact .map (avoids_pop fun hkind => (h hkind).2)

end Machine

namespace Interpreter

/-- The host binds arrays only to parameters that are declared. -/
theorem avoids_bindAll {symbols : Symbols} {f : Function}
    {entries : List (Nat × Param × Argument)} {vars : Frame}
    (h : kind = .undeclared → ∀ param ∈ entries.map (fun entry => entry.2.1),
      symbols.Has param.var) : Avoids kind (bindAll symbols f entries vars) := by
  induction entries generalizing vars with
  | nil => exact avoids_ok _
  | cons entry entries ih =>
      have hrest := fun hkind => (List.forall_mem_cons.mp (h hkind)).2
      obtain ⟨position, param, arg⟩ := entry
      cases param with
      | scalar var =>
          cases arg with
          | scalar value => exact ih hrest
          | array values => exact avoids_plain rfl
      | array var =>
          cases arg with
          | scalar value => exact avoids_plain rfl
          | array values =>
              unfold bindAll
              cases hfound : symbols.get? var with
              | none =>
                  refine avoids_undeclared fun hkind => ?_
                  obtain ⟨sym, hsym⟩ := (List.forall_mem_cons.mp (h hkind)).1
                  cases hfound.symm.trans hsym
              | some wanted =>
                  dsimp only
                  by_cases hsize : values.size = wanted.size
                  · rw [if_pos hsize]
                    exact ih hrest
                  · rw [if_neg hsize]
                    exact avoids_plain rfl

/-- Binding all of the host's arguments fails for their number, and as
binding each of them does. -/
theorem avoids_bindArguments {i : Interpreter} {f : Function} {args : List Argument}
    (h : kind = .undeclared → ∀ param ∈ f.params, i.program.symbols.Has param.var) :
    Avoids kind (i.bindArguments f args) := by
  unfold bindArguments
  by_cases hlen : args.length = f.arity
  · rw [if_pos hlen]
    refine avoids_bindAll fun hkind param hmem => h hkind param ?_
    obtain ⟨entry, hentry, rfl⟩ := List.mem_map.mp hmem
    obtain ⟨position, hlt, rfl⟩ := List.mem_mapIdx.mp hentry
    exact (List.of_mem_zip (List.getElem_mem hlt)).1
  · rw [if_neg hlen]
    exact avoids_plain rfl

end Interpreter

end ExprGraph
