/-
Renamed code does what the code did.

# The relation

Before the renaming a name has one cell; behind it every version of the
name has one. `Entry.Agrees` says for one name how they belong together,
given what the tables say of the name:

- a current version has the value of the name;
- if no version is current, the name is undefined, and so is version 0,
  which a read would see;
- versions that were not handed out are undefined.

The last point is what makes it right to take over a version that only one
arm knows. On the way through the other arm the name was never written,
so it is undefined; and the version is undefined as well, because it is 0
or was handed out in code that was not run. The versions below those of an
arm are not touched in it, which is the second half of `Matches`.
-/
import ExprGraph.Proofs.SSA.Highest

namespace ExprGraph.SSA

-- ================================================================ one name

/-- The cells of the versions of a name. -/
def Env.versions (env : Env) (name : String) : Nat → Option Float :=
  fun version => env (.user name (some version))

namespace Entry

/-- The cells of a name's versions, if `cell` is that of the name. -/
structure Agrees (e : Entry) (cell : Option Float) (cells : Nat → Option Float) : Prop where
  bounded : e.Bounded
  known : ∀ k, e.current = some k → cells k = cell
  unknown : e.current = none → cell = none ∧ cells 0 = none
  fresh : ∀ k, e.next ≤ k → cells k = none

/-- The cells behind the join of two arms. -/
def joinedCells (e : Entry) (arm : Bool) (cells : Nat → Option Float) :
    Option Nat → Option Nat → Nat → Option Float
  | some a, some b =>
    if a = b then cells
    else fun k => if k = e.next then cells (if arm then a else b) else cells k
  | _, _ => cells

variable {e t : Entry} {cell : Option Float} {cells : Nat → Option Float}

/-- The tables agree with the cells if the current version holds the value,
and the versions to come are not written yet. -/
theorem Agrees.of_current {latest : Option Nat} {version : Nat}
    (hlt : version < next ⟨latest, some version⟩) (hvalue : cells version = cell)
    (hfresh : ∀ k, next ⟨latest, some version⟩ ≤ k → cells k = none) :
    Agrees ⟨latest, some version⟩ cell cells where
  bounded k hk := by cases hk; exact hlt
  known k hk := by cases hk; exact hvalue
  unknown hnone := by cases hnone
  fresh := hfresh

/-- A name that is not known has no value, under version 0 or later. -/
theorem Agrees.of_unknown (he : e.current = none) (hcell : cell = none) (hzero : cells 0 = none)
    (hfresh : ∀ k, e.next ≤ k → cells k = none) : e.Agrees cell cells where
  bounded k hk := by rw [he] at hk; cases hk
  known k hk := by rw [he] at hk; cases hk
  unknown _ := ⟨hcell, hzero⟩
  fresh := hfresh

/-- A read changes no cell. -/
theorem Agrees.seen (h : e.Agrees cell cells) : e.seen.Agrees cell cells := by
  obtain ⟨latest, current⟩ := e
  cases current with
  | some version => exact h
  | none =>
      obtain ⟨hcell, hzero⟩ := h.unknown rfl
      refine .of_current (Nat.succ_pos _) (hzero.trans hcell.symm) ?_
      intro k hk
      exact h.fresh k (Nat.le_trans (reaches_seen ⟨latest, none⟩).next_le hk)

/-- A new version gets the value of the name, wherever that comes from. -/
theorem Agrees.of_written (hfresh : ∀ k, e.next ≤ k → cells k = none) (value : Option Float) :
    e.written.Agrees value fun k => if k = e.next then value else cells k := by
  refine .of_current (Nat.lt_succ_self _) (if_pos rfl) ?_
  intro k hk
  have hlt : e.next < k := hk
  show (if k = e.next then value else cells k) = none
  rw [if_neg (Nat.ne_of_gt hlt)]
  exact hfresh k (Nat.le_of_lt hlt)

/-- Versions that other code took are undefined. -/
theorem Agrees.later (h : e.Agrees cell cells) {latest : Option Nat}
    (hle : e.next ≤ next ⟨latest, e.current⟩) : Agrees ⟨latest, e.current⟩ cell cells where
  bounded k hk := Nat.lt_of_lt_of_le (h.bounded k hk) hle
  known := h.known
  unknown := h.unknown
  fresh k hk := h.fresh k (Nat.le_trans hle hk)

/-- The join of two arms, of which the one with entry `t` was run. -/
theorem Agrees.joined {arm : Bool} {a b : Option Nat} (h : t.Agrees cell cells)
    (ht : t.current = if arm then a else b) (hnext : t.next ≤ e.next)
    (hnone : t.current = none → e.current = none)
    (hbound : ∀ k, (if arm then b else a) = some k → k < e.next)
    (hother : t.current = none → ∀ k, (if arm then b else a) = some k → cells k = none) :
    (e.joined a b).Agrees cell (e.joinedCells arm cells a b) := by
  have hfresh : ∀ k, e.next ≤ k → cells k = none :=
    fun k hk => h.fresh k (Nat.le_trans hnext hk)
  cases hcurrent : t.current with
  | none =>
      obtain ⟨hcell, hzero⟩ := h.unknown hcurrent
      -- the arm that was run does not know the name: take the other's version
      have hadopt : ∀ k, (if arm then b else a) = some k →
          Agrees ⟨e.latest, some k⟩ cell cells := fun k hk =>
        .of_current (hbound k hk) ((hother hcurrent k hk).trans hcell.symm) hfresh
      rw [hcurrent] at ht
      cases arm with
      | true =>
          cases ht
          cases b with
          | none => exact .of_unknown (hnone hcurrent) hcell hzero hfresh
          | some k => exact hadopt k rfl
      | false =>
          cases ht
          cases a with
          | none => exact .of_unknown (hnone hcurrent) hcell hzero hfresh
          | some k => exact hadopt k rfl
  | some k =>
      have hvalue := h.known k hcurrent
      have hkeep : Agrees ⟨e.latest, some k⟩ cell cells :=
        .of_current (Nat.lt_of_lt_of_le (h.bounded k hcurrent) hnext) hvalue hfresh
      have hphi : e.written.Agrees cell fun j => if j = e.next then cells k else cells j := by
        rw [hvalue]
        exact .of_written hfresh cell
      rw [hcurrent] at ht
      cases arm with
      | true =>
          cases ht
          cases b with
          | none => exact hkeep
          | some j =>
              by_cases hkj : k = j
              · rw [Entry.joined, joinedCells, if_pos hkj, if_pos hkj]
                exact hkeep
              · rw [Entry.joined, joinedCells, if_neg hkj, if_neg hkj]
                exact hphi
      | false =>
          cases ht
          cases a with
          | none => exact hkeep
          | some j =>
              by_cases hjk : j = k
              · rw [Entry.joined, joinedCells, if_pos hjk, if_pos hjk, hjk]
                exact hkeep
              · rw [Entry.joined, joinedCells, if_neg hjk, if_neg hjk]
                exact hphi

/-- The cells written before stay. -/
theorem joinedCells_of_lt {arm : Bool} {a b : Option Nat} {k : Nat} (hk : k < e.next) :
    e.joinedCells arm cells a b k = cells k := by
  unfold joinedCells
  split
  · split
    · rfl
    · exact if_neg (Nat.ne_of_lt hk)
  · rfl

/-- The version that only the arm not run knows is undefined: it is 0, or
it was handed out in that arm. -/
theorem Agrees.undefined_of_reaches {u : Entry} (h : e.Agrees cell cells)
    (hnone : e.current = none) (hreach : e.Reaches u) {k : Nat} (hk : u.current = some k) :
    cells k = none := by
  rcases hreach.current_cases hk with hsome | ⟨-, rfl⟩ | hle
  · rw [hnone] at hsome
    cases hsome
  · exact (h.unknown hnone).2
  · exact h.fresh k hle

end Entry

-- =============================================================== all names

/-- The environments before and behind the renaming belong together. -/
structure Versions.Agrees (v : Versions) (env env' : Env) : Prop where
  temps : ∀ number, env' (.temp number) = env (.temp number)
  names : ∀ name, (v.entry name).Agrees (env (.user name none)) (env'.versions name)

namespace Versions

variable {v : Versions} {env env' : Env}

/-- The current version is one of those handed out. -/
theorem Agrees.bounded (h : v.Agrees env env') : v.Bounded :=
  fun name => (h.names name).bounded

-- ------------------------------------------------------------------ reads

/-- A renamed read sees what the read saw. -/
theorem Agrees.read (h : v.Agrees env env') {x : Var} (hx : x.plain = true) :
    env' (v.read x).1 = env x := by
  cases x with
  | temp number => exact h.temps number
  | user name version =>
      cases version with
      | some version => cases hx
      | none =>
          cases hcurrent : v.current[name]? with
          | some version =>
              rw [read_of_current hcurrent]
              exact (h.names name).known version hcurrent
          | none =>
              rw [read_of_unknown hcurrent]
              obtain ⟨hcell, hzero⟩ := (h.names name).unknown hcurrent
              exact hzero.trans hcell.symm

/-- Behind a read the tables still agree. -/
theorem Agrees.after_read (h : v.Agrees env env') (x : Var) :
    (v.read x).2.Agrees env env' := by
  cases x with
  | temp number => exact h
  | user name version =>
      cases version with
      | some version => exact h
      | none =>
          refine ⟨h.temps, fun other => ?_⟩
          rw [entry_read]
          by_cases hname : name = other
          · rw [if_pos hname]
            exact (h.names other).seen
          · rw [if_neg hname]
            exact h.names other

theorem Agrees.after_readOperand (h : v.Agrees env env') (operand : Operand) :
    (v.readOperand operand).2.Agrees env env' := by
  cases operand with
  | const value => exact h
  | var x => exact h.after_read x

/-- And behind the reads of a right-hand side. -/
theorem Agrees.after_readRhs (h : v.Agrees env env') (rhs : Rhs) :
    (v.readRhs rhs).2.Agrees env env' := by
  cases rhs with
  | copy operand => exact h.after_readOperand operand
  | unary op operand => exact h.after_readOperand operand
  | binary op left right => exact (h.after_readOperand left).after_readOperand right

theorem Agrees.after_readAll (h : v.Agrees env env') (sources : List Var) :
    (v.readAll sources).2.Agrees env env' := by
  induction sources generalizing v with
  | nil => exact h
  | cons x sources ih => exact ih (h.after_read x)

/-- A renamed operand has the value that it had, or is stuck for the same
reason. -/
theorem Agrees.value_readOperand (h : v.Agrees env env') {operand : Operand}
    (hplain : operand.plain = true) :
    ((v.readOperand operand).1.value env').mapError Trap.erase = operand.value env := by
  cases operand with
  | const value => rfl
  | var x =>
      have hread := h.read hplain
      show (Operand.value env' (.var (v.read x).1)).mapError Trap.erase = _
      rw [Operand.value, Operand.value, hread]
      cases env x with
      | some value => rfl
      | none => exact congrArg (fun y => Except.error (Trap.undefined y)) (erase_read hplain v)

/-- So has a right-hand side. -/
theorem Agrees.value_readRhs (h : v.Agrees env env') {rhs : Rhs} (hplain : rhs.plain = true) :
    ((v.readRhs rhs).1.value env').mapError Trap.erase = rhs.value env := by
  cases rhs with
  | copy operand => exact h.value_readOperand hplain
  | unary op operand =>
      have hvalue := h.value_readOperand hplain
      show (Rhs.value env' (.unary op (v.readOperand operand).1)).mapError Trap.erase = _
      rw [Rhs.value, Rhs.value, ← hvalue]
      cases (v.readOperand operand).1.value env' <;> rfl
  | binary op left right =>
      rw [Rhs.plain, Bool.and_eq_true] at hplain
      have hl := h.value_readOperand hplain.1
      have hr := (h.after_readOperand left).value_readOperand hplain.2
      show (Rhs.value env' (.binary op (v.readOperand left).1
        ((v.readOperand left).2.readOperand right).1)).mapError Trap.erase = _
      rw [Rhs.value, Rhs.value, ← hl, ← hr]
      cases (v.readOperand left).1.value env' with
      | error trap => rfl
      | ok l =>
          cases ((v.readOperand left).2.readOperand right).1.value env' with
          | error trap => rfl
          | ok r =>
              show ((op.eval l r).mapError Trap.fault).mapError Trap.erase =
                (op.eval l r).mapError Trap.fault
              cases op.eval l r <;> rfl

/-- A renamed phi takes from the source that it took from. -/
theorem Agrees.source_readAll (h : v.Agrees env env') {sources : List Var}
    (hplain : sources.all Var.plain = true) (position : Nat) :
    (v.readAll sources).1[position]?.bind env' = sources[position]?.bind env := by
  induction sources generalizing v position with
  | nil => rfl
  | cons x sources ih =>
      rw [List.all_cons, Bool.and_eq_true] at hplain
      cases position with
      | zero => exact h.read hplain.1
      | succ position => exact ih (h.after_read x) hplain.2 position

-- ----------------------------------------------------------------- writes

/-- Writing a version changes one cell of its name. -/
theorem versions_set (env : Env) (name other : String) (version : Nat) (value : Option Float) :
    (env.set (.user name (some version)) value).versions other =
      if name = other then fun k => if k = version then value else env.versions other k
      else env.versions other := by
  funext k
  by_cases hname : name = other
  · subst hname
    rw [if_pos rfl]
    by_cases hk : k = version
    · rw [if_pos hk, hk]
      exact Env.set_self _ _ _
    · rw [if_neg hk]
      exact Env.set_of_ne _ _ (fun h => hk (by cases h; rfl))
  · rw [if_neg hname]
    exact Env.set_of_ne _ _ (fun h => hname (by cases h; rfl))

/-- A write puts the value in a cell of its own, and that cell is
current. -/
theorem Agrees.write (h : v.Agrees env env') {x : Var} (hx : x.plain = true)
    (value : Option Float) :
    (v.write x).2.Agrees (env.set x value) (env'.set (v.write x).1 value) := by
  cases x with
  | temp number =>
      refine ⟨fun other => ?_, fun name => ?_⟩
      · show (if _ then _ else _) = if _ then _ else _
        rw [h.temps]
        rfl
      · have hcell : env.set (.temp number) value (.user name none) = env (.user name none) :=
          Env.set_of_ne _ _ (fun h => by cases h)
        have hcells : (env'.set (.temp number) value).versions name = env'.versions name :=
          funext fun k => Env.set_of_ne _ _ (fun h => by cases h)
        show (v.entry name).Agrees _ ((env'.set (.temp number) value).versions name)
        rw [hcell, hcells]
        exact h.names name
  | user name version =>
      cases version with
      | some version => cases hx
      | none =>
          refine ⟨fun number => ?_, fun other => ?_⟩
          · have htemp : env.set (.user name none) value (.temp number) = env (.temp number) :=
              Env.set_of_ne _ _ (fun h => by cases h)
            rw [htemp, ← h.temps]
            exact Env.set_of_ne _ _ (fun h => by cases h)
          · rw [entry_write]
            show Entry.Agrees _ _
              ((env'.set (.user name (some (v.next name))) value).versions other)
            rw [versions_set]
            by_cases hname : name = other
            · subst hname
              rw [if_pos rfl, if_pos rfl, Env.set_self]
              exact .of_written (h.names name).fresh value
            · rw [if_neg hname, if_neg hname, Env.set_of_ne _ _ (fun h => hname (by cases h; rfl))]
              exact h.names other

/-- A write does not touch the versions handed out before. -/
theorem versions_write {x : Var} (hx : x.plain = true) (v : Versions) (env : Env)
    (value : Option Float) {name : String} {k : Nat} (hk : k < v.next name) :
    (env.set (v.write x).1 value).versions name k = env.versions name k := by
  cases x with
  | temp number => exact Env.set_of_ne _ _ (fun h => by cases h)
  | user other version =>
      cases version with
      | some version => cases hx
      | none =>
          refine Env.set_of_ne _ _ (fun h => ?_)
          cases h
          exact Nat.lt_irrefl _ hk

end Versions

-- ================================================================== states

variable {choose : List Bool → Float → Bool}

/-- The executions before and behind the renaming are at corresponding
points. -/
structure Related (v : Versions) (st st' : State) : Prop where
  agrees : v.Agrees st.env st'.env
  arm : st'.arm = st.arm
  trace : Events.visible st'.trace = st.trace

/-- Executions from the tables `v` to the tables `v'` end alike: both get
through, and the one behind the renaming, from `st'`, leaves the versions
handed out before `v` alone; or both are stuck at the same instruction. -/
def Matches (v v' : Versions) (st' : State) : Except Events State → Except Events State → Prop
  | .ok a, .ok b => Related v' a b ∧
    ∀ name k, k < v.next name → b.env.versions name k = st'.env.versions name k
  | .error a, .error b => Events.visible b = a
  | _, _ => False

/-- The same arms were taken, so the next one is chosen alike. -/
theorem Related.arms {v : Versions} {st st' : State} (h : Related v st st') :
    st'.trace.arms = st.trace.arms := by
  rw [← h.trace, Events.arms_visible]

/-- One piece of code behind another. -/
theorem Matches.bind {v w x : Versions} {st' : State} {r r' : Except Events State}
    {f f' : State → Except Events State} (h : Matches v w st' r r') (hle : v.Reaches w)
    (hf : ∀ a b, Related w a b → Matches w x b (f a) (f' b)) :
    Matches v x st' (r >>= f) (r' >>= f') := by
  cases r with
  | error a =>
      cases r' with
      | error b => exact h
      | ok b => exact h.elim
  | ok a =>
      cases r' with
      | error b => exact h.elim
      | ok b =>
          obtain ⟨hrelated, hframe⟩ := h
          have hrest := hf a b hrelated
          show Matches v x st' (f a) (f' b)
          cases hfa : f a with
          | error a' =>
              cases hfb : f' b with
              | error b' => rw [hfa, hfb] at hrest; exact hrest
              | ok b' => rw [hfa, hfb] at hrest; exact hrest.elim
          | ok a' =>
              cases hfb : f' b with
              | error b' => rw [hfa, hfb] at hrest; exact hrest.elim
              | ok b' =>
                  rw [hfa, hfb] at hrest
                  refine ⟨hrest.1, fun name k hk => ?_⟩
                  rw [hrest.2 name k (Nat.lt_of_lt_of_le hk (hle name).next_le), hframe name k hk]

-- =================================================================== joins

section Joins

variable (choose : List Bool → Float → Bool) (thenArm elseArm : VersionTable) (v : Versions)

/-- The join of a name gives it the value of the arm that was run. -/
theorem execAll_joinPhi (name : String) (st : State) :
    ∃ st', execAll choose st (Versions.joinPhi thenArm elseArm v name).toList = .ok st'
      ∧ st'.arm = st.arm ∧ Events.visible st'.trace = Events.visible st.trace
      ∧ (∀ number, st'.env (.temp number) = st.env (.temp number))
      ∧ ∀ other, st'.env.versions other =
          if name = other then (v.entry other).joinedCells st.arm (st.env.versions other)
            thenArm[other]? elseArm[other]?
          else st.env.versions other := by
  have hskip : (∀ a b, thenArm[name]? = some a → elseArm[name]? = some b → a = b) →
      ∀ other, st.env.versions other =
        if name = other then (v.entry other).joinedCells st.arm (st.env.versions other)
          thenArm[other]? elseArm[other]?
        else st.env.versions other := by
    intro hsame other
    by_cases hname : name = other
    · subst hname
      rw [if_pos rfl]
      unfold Entry.joinedCells
      split
      · next a b ha hb => rw [if_pos (hsame a b ha hb)]
      · rfl
    · rw [if_neg hname]
  cases hphi : Versions.joinPhi thenArm elseArm v name with
  | none =>
      refine ⟨st, rfl, rfl, rfl, fun _ => rfl, hskip fun a b ha hb => ?_⟩
      unfold Versions.joinPhi at hphi
      simp only [ha, hb] at hphi
      by_cases hab : a = b
      · exact hab
      · rw [if_neg hab] at hphi
        cases hphi
  | some i =>
      obtain ⟨dest, sources, rfl, hjoin⟩ := Versions.isJoin_of_joinPhi hphi
      obtain ⟨a, b, ha, hb, hab, heq⟩ := Versions.joinPhi_eq_some thenArm elseArm hphi
      cases heq
      refine ⟨_, rfl, rfl, Events.visible_join hjoin, fun number => rfl, fun other => ?_⟩
      rw [Versions.versions_set]
      by_cases hname : name = other
      · subst hname
        rw [if_pos rfl, if_pos rfl, ha, hb, Entry.joinedCells, if_neg hab]
        unfold State.incoming
        cases st.arm <;> rfl
      · rw [if_neg hname, if_neg hname]

/-- The phis behind a branch execute, unseen, and bring each name to its
joined cells. -/
theorem execAll_joins {names : List String} (hnames : names.Nodup) (st : State) :
    ∃ st', execAll choose st (names.filterMap (Versions.joinPhi thenArm elseArm v)) = .ok st'
      ∧ st'.arm = st.arm ∧ Events.visible st'.trace = Events.visible st.trace
      ∧ (∀ number, st'.env (.temp number) = st.env (.temp number))
      ∧ ∀ other, st'.env.versions other =
          if other ∈ names then (v.entry other).joinedCells st.arm (st.env.versions other)
            thenArm[other]? elseArm[other]?
          else st.env.versions other := by
  induction names generalizing st with
  | nil => exact ⟨st, rfl, rfl, rfl, fun _ => rfl, fun _ => rfl⟩
  | cons name names ih =>
      obtain ⟨hnot, hnames⟩ := List.nodup_cons.mp hnames
      obtain ⟨st₁, hexec₁, harm₁, htrace₁, htemps₁, hcells₁⟩ :=
        execAll_joinPhi choose thenArm elseArm v name st
      obtain ⟨st₂, hexec₂, harm₂, htrace₂, htemps₂, hcells₂⟩ := ih hnames st₁
      refine ⟨st₂, ?_, harm₂.trans harm₁, htrace₂.trans htrace₁,
        fun number => (htemps₂ number).trans (htemps₁ number), fun other => ?_⟩
      · rw [filterMap_cons_toList, execAll_append, hexec₁]
        exact hexec₂
      · rw [hcells₂, hcells₁, harm₁, ite_mem_cons]
        by_cases hname : name = other
        · subst hname
          rw [if_neg hnot, if_pos rfl, if_pos rfl]
        · rw [if_neg hname, if_neg hname]

/-- All joins behind a branch. -/
theorem execAll_join (st : State) :
    ∃ st', execAll choose st ((Versions.joinNames thenArm elseArm).filterMap
        (Versions.joinPhi thenArm elseArm v)) = .ok st'
      ∧ st'.arm = st.arm ∧ Events.visible st'.trace = Events.visible st.trace
      ∧ (∀ number, st'.env (.temp number) = st.env (.temp number))
      ∧ ∀ name, st'.env.versions name = (v.entry name).joinedCells st.arm
          (st.env.versions name) thenArm[name]? elseArm[name]? := by
  obtain ⟨st', hexec, harm, htrace, htemps, hcells⟩ :=
    execAll_joins choose thenArm elseArm v (Versions.nodup_joinNames thenArm elseArm) st
  refine ⟨st', hexec, harm, htrace, htemps, fun name => ?_⟩
  rw [hcells]
  by_cases hmem : name ∈ Versions.joinNames thenArm elseArm
  · rw [if_pos hmem]
  · rw [if_neg hmem]
    obtain ⟨ha, hb⟩ := Versions.unknown_of_notMem_joinNames thenArm elseArm hmem
    rw [ha, hb]
    rfl

end Joins

-- ============================================================== simulation

section Simulation

variable {v : Versions} {st st' : State}

/-- The state behind an event that is no join. -/
theorem Related.event (h : Related v st st') {w : Versions} {env env' : Env}
    (hagrees : w.Agrees env env') {event event' : Event} (hjoin : event'.isJoin = false)
    (hevent : event'.erase = event) :
    Related w { st with env, trace := st.trace ++ [event] }
      { st' with env := env', trace := st'.trace ++ [event'] } where
  agrees := hagrees
  arm := h.arm
  trace := by
    show Events.visible (st'.trace ++ [event']) = st.trace ++ [event]
    rw [Events.visible_snoc hjoin, h.trace, hevent]

/-- Where the one is stuck, so is the other. -/
theorem Related.stuck (h : Related v st st') {event event' : Event}
    (hjoin : event'.isJoin = false) (hevent : event'.erase = event) :
    Events.visible (st'.trace ++ [event']) = st.trace ++ [event] := by
  rw [Events.visible_snoc hjoin, h.trace, hevent]

/-- A renamed assignment does what the assignment does. -/
theorem simulates_assign {dest : Var} {rhs : Rhs} (hdest : dest.plain = true)
    (hrhs : rhs.plain = true) (h : Related v st st') :
    Matches v ((Inst.assign dest rhs).after v) st' ((Inst.assign dest rhs).exec choose st)
      (execAll choose st' ((Inst.assign dest rhs).versioned v)) := by
  rw [Inst.versioned_assign, Inst.after_assign, execAll, Inst.exec, Inst.exec]
  have hvalue := h.agrees.value_readRhs hrhs
  have herase := Versions.erase_readRhs hrhs v
  have hwrite := Versions.erase_write hdest (v.readRhs rhs).2
  rw [← hvalue]
  cases (v.readRhs rhs).1.value st'.env with
  | error trap =>
      apply h.stuck rfl
      rw [Event.erase, herase, hwrite]
  | ok value =>
      refine ⟨h.event ((h.agrees.after_readRhs rhs).write hdest (some value)) rfl ?_, ?_⟩
      · rw [Event.erase, herase, hwrite]
      · intro name k hk
        exact Versions.versions_write hdest _ _ _
          (Nat.lt_of_lt_of_le hk (Versions.reaches_readRhs v rhs name).next_le)

/-- A renamed phi does what the phi does. -/
theorem simulates_phi {dest : Var} {sources : List Var} (hdest : dest.plain = true)
    (hsources : sources.all Var.plain = true) (h : Related v st st') :
    Matches v ((Inst.phi dest sources).after v) st' ((Inst.phi dest sources).exec choose st)
      (execAll choose st' ((Inst.phi dest sources).versioned v)) := by
  rw [Inst.versioned_phi, Inst.after_phi, execAll, Inst.exec, Inst.exec]
  have hincoming : st'.incoming (v.readAll sources).1 = st.incoming sources := by
    unfold State.incoming
    rw [h.arm]
    exact h.agrees.source_readAll hsources _
  rw [hincoming]
  refine ⟨h.event ((h.agrees.after_readAll sources).write hdest _)
    (Versions.isJoin_readAll hsources _) ?_, ?_⟩
  · rw [Event.erase, Versions.erase_readAll hsources v,
      Versions.erase_write hdest (v.readAll sources).2]
  · intro name k hk
    exact Versions.versions_write hdest _ _ _
      (Nat.lt_of_lt_of_le hk (Versions.reaches_readAll v sources name).next_le)

section Branch

variable {thenArm elseArm : List Inst} {env env₁ env₁' : Env} {cells : Nat → Option Float}

/-- One name behind the joins, if the first arm was run. -/
theorem Versions.agrees_joined_then (hv : v.Bounded)
    (h : (afterAll v thenArm).Agrees env₁ env₁') (name : String) :
    (((v.joinStart thenArm elseArm).entry name).joined ((afterAll v thenArm).entry name).current
        ((afterAll (v.elseStart thenArm) elseArm).entry name).current).Agrees
      (env₁ (.user name none))
      (((v.joinStart thenArm elseArm).entry name).joinedCells true (env₁'.versions name)
        ((afterAll v thenArm).entry name).current
        ((afterAll (v.elseStart thenArm) elseArm).entry name).current) := by
  have hthen := reaches_afterAll hv thenArm
  have hstart := hthen.elseStart hv
  have helse := reaches_afterAll hstart elseArm
  have hnone : ((afterAll v thenArm).entry name).current = none →
      v.entry name = (afterAll v thenArm).entry name := (hthen name).current_none
  refine (h.names name).joined rfl (helse name).next_le ?_ ?_ ?_
  · intro hcurrent
    exact (congrArg Entry.current (hnone hcurrent)).trans hcurrent
  · intro k hk
    exact (helse.bounded hstart) name k hk
  · intro hcurrent k hk
    -- the second arm starts from what the first arm left
    have hsame : (v.elseStart thenArm).entry name = (afterAll v thenArm).entry name := by
      show Entry.mk _ (v.entry name).current = _
      rw [hnone hcurrent]
      rfl
    have hreach := helse name
    rw [hsame] at hreach
    exact (h.names name).undefined_of_reaches hcurrent hreach hk

/-- One name behind the joins, if the second arm was run, which left the
versions of the first alone. -/
theorem Versions.agrees_joined_else {env' : Env} (hv : v.Agrees env env')
    (h : (afterAll (v.elseStart thenArm) elseArm).Agrees env₁ env₁') (name : String)
    (hframe : ∀ k, k < (v.elseStart thenArm).next name →
      env₁'.versions name k = env'.versions name k) :
    (((v.joinStart thenArm elseArm).entry name).joined ((afterAll v thenArm).entry name).current
        ((afterAll (v.elseStart thenArm) elseArm).entry name).current).Agrees
      (env₁ (.user name none))
      (((v.joinStart thenArm elseArm).entry name).joinedCells false (env₁'.versions name)
        ((afterAll v thenArm).entry name).current
        ((afterAll (v.elseStart thenArm) elseArm).entry name).current) := by
  have hthen := reaches_afterAll hv.bounded thenArm
  have hstart := hthen.elseStart hv.bounded
  have helse := reaches_afterAll hstart elseArm
  have hnone : ((afterAll (v.elseStart thenArm) elseArm).entry name).current = none →
      (v.entry name).current = none := fun hcurrent =>
    (congrArg Entry.current ((helse name).current_none hcurrent)).trans hcurrent
  refine (h.names name).joined rfl (Nat.le_refl _) hnone ?_ ?_
  · intro k hk
    exact Nat.lt_of_lt_of_le ((hthen.bounded hv.bounded) name k hk) (helse name).next_le
  · intro hcurrent k hk
    rw [hframe k ((hthen.bounded hv.bounded) name k hk)]
    exact (hv.names name).undefined_of_reaches (hnone hcurrent) (hthen name) hk

/-- Behind an arm that was run, from tables `x`, come the joins. -/
theorem matches_branch {cond : Operand} {x y : Versions} {start : State} {arm : Bool}
    {r r' : Except Events State}
    (hle : ∀ name, v.next name ≤ x.next name)
    (hjoin : ∀ name, x.next name ≤
      (((v.readOperand cond).2.joinStart thenArm elseArm).entry name).next)
    (hstart : start.env = st'.env) (h : Matches x y start r r')
    (hagrees : ∀ {a b : State} (name : String), Related y a b →
      (∀ k, k < x.next name → b.env.versions name k = start.env.versions name k) →
      (((Inst.branch cond thenArm elseArm).after v).entry name).Agrees (a.env (.user name none))
        ((((v.readOperand cond).2.joinStart thenArm elseArm).entry name).joinedCells arm
          (b.env.versions name) ((afterAll (v.readOperand cond).2 thenArm).entry name).current
          ((afterAll ((v.readOperand cond).2.elseStart thenArm) elseArm).entry name).current)) :
    Matches v ((Inst.branch cond thenArm elseArm).after v) st'
      (r >>= fun st => pure { st with arm })
      ((r' >>= fun st => pure { st with arm }) >>= fun st => execAll choose st
        ((Versions.joinNames (afterAll (v.readOperand cond).2 thenArm).current
            (afterAll ((v.readOperand cond).2.elseStart thenArm) elseArm).current).filterMap
          (Versions.joinPhi (afterAll (v.readOperand cond).2 thenArm).current
            (afterAll ((v.readOperand cond).2.elseStart thenArm) elseArm).current
            ((v.readOperand cond).2.joinStart thenArm elseArm)))) := by
  cases r with
  | error a =>
      cases r' with
      | error b => exact h
      | ok b => exact h.elim
  | ok a =>
      cases r' with
      | error b => exact h.elim
      | ok b =>
          obtain ⟨hrelated, hframe⟩ := h
          obtain ⟨st₂, hexec, harm, htrace, htemps, hcells⟩ :=
            execAll_join choose (afterAll (v.readOperand cond).2 thenArm).current
              (afterAll ((v.readOperand cond).2.elseStart thenArm) elseArm).current
              ((v.readOperand cond).2.joinStart thenArm elseArm) { b with arm }
          show Matches v _ st' (.ok _) (execAll choose { b with arm } _)
          rw [hexec]
          refine ⟨⟨⟨fun number => ?_, fun name => ?_⟩, harm, ?_⟩, fun name k hk => ?_⟩
          · exact (htemps number).trans (hrelated.agrees.temps number)
          · rw [hcells]
            exact hagrees (a := a) (b := b) name hrelated (hframe name)
          · exact htrace.trans hrelated.trace
          · rw [hcells, Entry.joinedCells_of_lt (Nat.lt_of_lt_of_le hk
              (Nat.le_trans (hle name) (hjoin name)))]
            exact (hframe name k (Nat.lt_of_lt_of_le hk (hle name))).trans (by rw [hstart])

/-- A renamed branch does what the branch does, with the phis behind it:
what the arm that was not taken leaves in the tables, it leaves in no
cell. -/
theorem simulates_branch {cond : Operand} (hcond : cond.plain = true)
    (hthen : ∀ {w : Versions} {a b : State}, Related w a b →
      Matches w (afterAll w thenArm) b (execAll choose a thenArm)
        (execAll choose b (versionedAll w thenArm)))
    (helse : ∀ {w : Versions} {a b : State}, Related w a b →
      Matches w (afterAll w elseArm) b (execAll choose a elseArm)
        (execAll choose b (versionedAll w elseArm)))
    (h : Related v st st') :
    Matches v ((Inst.branch cond thenArm elseArm).after v) st'
      ((Inst.branch cond thenArm elseArm).exec choose st)
      (execAll choose st' ((Inst.branch cond thenArm elseArm).versioned v)) := by
  rw [Inst.versioned_branch, execAll, Inst.exec, Inst.exec]
  have hvalue := h.agrees.value_readOperand hcond
  have herase := Versions.erase_readOperand hcond v
  have hread := h.agrees.after_readOperand cond
  have hreads := Versions.reaches_readOperand v cond
  have hafter := reaches_afterAll hread.bounded thenArm
  have hlast := reaches_afterAll (hafter.elseStart hread.bounded) elseArm
  rw [← hvalue]
  cases (v.readOperand cond).1.value st'.env with
  | error trap =>
      apply h.stuck rfl
      rw [Event.erase, herase]
  | ok value =>
      have hstart : Related (v.readOperand cond).2
          { st with trace := st.trace ++ [.branched cond value (choose st.trace.arms value)] }
          { st' with trace := st'.trace ++
            [.branched (v.readOperand cond).1 value (choose st.trace.arms value)] } :=
        h.event hread rfl (by rw [Event.erase, herase])
      simp only [Except.mapError, h.arms]
      cases hchoice : choose st.trace.arms value with
      | true =>
          rw [hchoice] at hstart
          refine matches_branch (fun name => (hreads name).next_le) ?_ rfl (hthen hstart) ?_
          · intro name
            exact Nat.le_trans (hafter name).next_le (hlast name).next_le
          · intro a b name hrelated _
            rw [Inst.entry_after_branch]
            exact Versions.agrees_joined_then hread.bounded hrelated.agrees name
      | false =>
          rw [hchoice] at hstart
          have helseStart : Related ((v.readOperand cond).2.elseStart thenArm) _ _ :=
            { hstart with
              agrees := ⟨hstart.agrees.temps, fun name =>
                (hstart.agrees.names name).later (hafter name).next_le⟩ }
          refine matches_branch (fun name => Nat.le_trans (hreads name).next_le
            (hafter name).next_le) (fun name => (hlast name).next_le) rfl (helse helseStart) ?_
          intro a b name hrelated hframe
          rw [Inst.entry_after_branch]
          exact Versions.agrees_joined_else hread hrelated.agrees name hframe

end Branch

end Simulation

mutual

/-- An instruction before the renaming, and what the renaming makes of it,
do the same. -/
theorem Inst.simulates {v : Versions} {st st' : State} :
    ∀ i : Inst, i.plain = true → Related v st st' →
      Matches v (i.after v) st' (i.exec choose st) (execAll choose st' (i.versioned v))
  | .assign dest rhs, hplain, h => by
    rw [Inst.plain, Bool.and_eq_true] at hplain
    exact simulates_assign hplain.1 hplain.2 h
  | .phi dest sources, hplain, h => by
    rw [Inst.plain, Bool.and_eq_true] at hplain
    exact simulates_phi hplain.1 hplain.2 h
  | .branch cond thenArm elseArm, hplain, h => by
    rw [Inst.plain, Bool.and_eq_true, Bool.and_eq_true] at hplain
    exact simulates_branch hplain.1.1 (simulatesAll thenArm hplain.1.2)
      (simulatesAll elseArm hplain.2) h

/-- Renamed code does what the code does. -/
theorem simulatesAll {v : Versions} {st st' : State} :
    ∀ code : List Inst, plainAll code = true → Related v st st' →
      Matches v (afterAll v code) st' (execAll choose st code)
        (execAll choose st' (versionedAll v code))
  | [], _, h => ⟨h, fun _ _ _ => rfl⟩
  | i :: rest, hplain, h => by
    rw [plainAll, Bool.and_eq_true] at hplain
    rw [versionedAll_cons, afterAll_cons, execAll_append, execAll]
    exact (i.simulates hplain.1 h).bind (i.reaches_after h.agrees.bounded)
      fun _ _ hrelated => simulatesAll rest hplain.2 hrelated

end

-- ============================================================= whole code

/-- On entry the live names have values, as they are or at version 0. -/
def Env.start (liveIn : List String) (given : String → Float) (version : Option Nat) : Env
  | .user name v => if name ∈ liveIn ∧ v = version then some (given name) else none
  | .temp _ => none

theorem getElem?_foldl_insert (names : List String) (table : VersionTable) (name : String) :
    (names.foldl (fun t name => t.insert name 0) table)[name]? =
      if name ∈ names then some 0 else table[name]? := by
  induction names generalizing table with
  | nil => rfl
  | cons other names ih =>
      rw [List.foldl_cons, ih, Std.ExtTreeMap.getElem?_insert]
      by_cases hmem : name ∈ names
      · rw [if_pos hmem, if_pos (List.mem_cons_of_mem _ hmem)]
      · rw [if_neg hmem]
        by_cases h : other = name
        · rw [if_pos (Std.compare_eq_iff_eq.mpr h), if_pos (h ▸ List.mem_cons_self)]
        · rw [if_neg (fun hcompare => h (Std.compare_eq_iff_eq.mp hcompare)),
            if_neg (fun hin => (List.mem_cons.mp hin).elim (fun heq => h heq.symm) hmem)]

/-- On entry the parameters are at version 0, and no other name is known. -/
theorem Versions.entry_ofLiveIn (liveIn : List String) (name : String) :
    (ofLiveIn liveIn).entry name =
      if name ∈ liveIn then ⟨some 0, some 0⟩ else ⟨none, none⟩ := by
  have htable := getElem?_foldl_insert liveIn ∅ name
  unfold ofLiveIn entry
  rw [htable]
  by_cases h : name ∈ liveIn
  · rw [if_pos h, if_pos h]
  · rw [if_neg h, if_neg h, Std.ExtTreeMap.getElem?_empty]

/-- On entry no version above 0 was handed out, and reads see what was. -/
theorem Versions.entry_start (liveIn : List String) (name : String) :
    ((ofLiveIn liveIn).entry name).Bounded ∧ ((ofLiveIn liveIn).entry name).Synced
      ∧ ((ofLiveIn liveIn).entry name).top = 0 := by
  rw [entry_ofLiveIn]
  by_cases h : name ∈ liveIn
  · rw [if_pos h]
    refine ⟨fun k hk => ?_, rfl, rfl⟩
    cases hk
    exact Nat.zero_lt_one
  · rw [if_neg h]
    refine ⟨fun k hk => ?_, rfl, rfl⟩
    cases hk

/-- On entry the tables agree with the cells of the parameters. -/
theorem Versions.agrees_start (liveIn : List String) (given : String → Float) :
    (ofLiveIn liveIn).Agrees (Env.start liveIn given none) (Env.start liveIn given (some 0)) := by
  refine ⟨fun number => rfl, fun name => ?_⟩
  rw [entry_ofLiveIn]
  have hfresh : ∀ k, 1 ≤ k → (Env.start liveIn given (some 0)).versions name k = none := by
    intro k hk
    refine if_neg fun h => ?_
    cases h.2
    exact Nat.not_succ_le_zero _ hk
  by_cases h : name ∈ liveIn
  · rw [if_pos h]
    refine .of_current Nat.zero_lt_one ?_ hfresh
    exact (if_pos ⟨h, rfl⟩).trans (if_pos ⟨h, rfl⟩).symm
  · rw [if_neg h]
    exact .of_unknown rfl (if_neg fun hin => h hin.1) (if_neg fun hin => h hin.1) hfresh

/-- If reads see the last version handed out, the highest cell holds the
value. -/
theorem Entry.Agrees.at_top {e : Entry} {cell : Option Float} {cells : Nat → Option Float}
    (h : e.Agrees cell cells) (hsynced : e.Synced) : cells e.top = cell := by
  obtain ⟨latest, current⟩ := e
  have hsame : current = latest := hsynced
  subst hsame
  cases current with
  | none =>
      obtain ⟨hcell, hzero⟩ := h.unknown rfl
      exact hzero.trans hcell.symm
  | some version => exact h.known version rfl

/-- Behind the code, the highest version of a name has its value. -/
theorem Related.at_highest {code : List Inst} {liveIn : List String} {st st' : State}
    (hplain : plainAll code = true)
    (h : Related (afterAll (Versions.ofLiveIn liveIn) code) st st') (name : String) :
    st'.env (.user name (some (highest name (rename code liveIn)))) =
      st.env (.user name none) := by
  have hbounded : (Versions.ofLiveIn liveIn).Bounded :=
    fun name => (Versions.entry_start liveIn name).1
  obtain ⟨-, hsynced, hzero⟩ := Versions.entry_start liveIn name
  have hreach := reaches_afterAll hbounded code name
  have htop := highest_versionedAll hbounded name code hplain
  rw [hzero, Nat.zero_max] at htop
  show st'.env.versions name (highest name (versionedAll (Versions.ofLiveIn liveIn) code)) = _
  rw [htop]
  exact (h.agrees.names name).at_top (hreach.synced hsynced)

/-- Renamed code, from the entry on, does what the code does. -/
theorem matches_rename (choose : List Bool → Float → Bool) {code : List Inst}
    (hplain : plainAll code = true) (liveIn : List String) (given : String → Float) :
    Matches (Versions.ofLiveIn liveIn) (afterAll (Versions.ofLiveIn liveIn) code)
      { env := Env.start liveIn given (some 0) }
      (execAll choose { env := Env.start liveIn given none } code)
      (execAll choose { env := Env.start liveIn given (some 0) } (rename code liveIn)) :=
  simulatesAll code hplain ⟨Versions.agrees_start liveIn given, rfl, rfl⟩

/-- Renamed code has the same instructions, joins apart, and whichever arms
are taken, it does the same: it takes the same arms, computes the same
values, and is stuck where the code is stuck; and in the end the highest
version of every name has the value of the name. -/
theorem execAll_rename (choose : List Bool → Float → Bool) (code : List Inst)
    (liveIn : List String) (given : String → Float) (hplain : plainAll code = true) :
    stripAll (rename code liveIn) = code ∧
    match execAll choose { env := Env.start liveIn given none } code,
      execAll choose { env := Env.start liveIn given (some 0) } (rename code liveIn) with
    | .ok st, .ok st' =>
      Events.visible st'.trace = st.trace
      ∧ (∀ number, st'.env (.temp number) = st.env (.temp number))
      ∧ ∀ name, st'.env (.user name (some (highest name (rename code liveIn)))) =
          st.env (.user name none)
    | .error trace, .error trace' => Events.visible trace' = trace
    | _, _ => False := by
  refine ⟨stripAll_versionedAll _ code hplain, ?_⟩
  have hmatches := matches_rename choose hplain liveIn given
  cases hbefore : execAll choose { env := Env.start liveIn given none } code with
  | error trace =>
      cases hbehind : execAll choose { env := Env.start liveIn given (some 0) }
          (rename code liveIn) with
      | error trace' => rw [hbefore, hbehind] at hmatches; exact hmatches
      | ok st' => rw [hbefore, hbehind] at hmatches; exact hmatches
  | ok st =>
      cases hbehind : execAll choose { env := Env.start liveIn given (some 0) }
          (rename code liveIn) with
      | error trace' => rw [hbefore, hbehind] at hmatches; exact hmatches
      | ok st' =>
          rw [hbefore, hbehind] at hmatches
          obtain ⟨hrelated, -⟩ := hmatches
          exact ⟨hrelated.trace, hrelated.agrees.temps, hrelated.at_highest hplain⟩

/-- A write in one arm, and a read behind the branch. -/
def writeThenRead : List Inst :=
  [.branch (.var (.user "x" none)) [.assign (.user "y" none) (.copy (.const 1.0))] [],
    .assign (.user "z" none) (.copy (.var (.user "y" none)))]

theorem execAll_rename_writeThenRead :
    plainAll writeThenRead = true ∧
    ∃ st', execAll (fun _ _ => true) { env := Env.start ["x"] (fun _ => 2.0) (some 0) }
        (rename writeThenRead ["x"]) = .ok st'
      ∧ st'.env (.user "z" (some (highest "z" (rename writeThenRead ["x"])))) = some 1.0 := by
  refine ⟨rfl, ?_⟩
  obtain ⟨-, halike⟩ := execAll_rename (fun _ _ => true) writeThenRead ["x"] (fun _ => 2.0) rfl
  cases hbehind : execAll (fun _ _ => true) { env := Env.start ["x"] (fun _ => 2.0) (some 0) }
      (rename writeThenRead ["x"]) with
  | error trace' => rw [hbehind] at halike; exact halike.elim
  | ok st' =>
      rw [hbehind] at halike
      exact ⟨st', rfl, halike.2.2 "z"⟩

end ExprGraph.SSA
