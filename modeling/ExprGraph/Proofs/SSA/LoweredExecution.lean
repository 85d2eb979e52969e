/-
Lowered code computes what its node does.

# The relation

While a function runs, `Tracks` ties the frame of the call to the one cell
that each name has in code that is not renamed, and the stores made so far
to the values that source variables were given. A name has one cell, so
variables of one name would share it: the functions considered use every
name for one variable only (`Unshared`).

# The proof

`Computes` says of a node's code that from related states, where the node
has a value, the code comes to its end in related states again, and the
node's operand has the value there. It is proved kind by kind, from the
same of the parts.

An operand is not a value. It is read where it is used, and what is
written in between must not matter. Two facts see to that: the code in
between takes temporaries of its own (`Lowered.within`), and it writes no
source variable that was left unpinned (`Operand.keptBy`).
-/
import ExprGraph.Proofs.Machine.Follows
import ExprGraph.Proofs.Paths
import ExprGraph.Proofs.SSA.Temporaries

namespace ExprGraph

-- ========================================================= used variables

/-- The variable a node reads or writes itself. -/
def Expr.mentioned? : Expr → Option VarId
  | .var read => some read
  | .index array _ => some array
  | .assign target _ | .step _ target => some target.var
  | _ => none

/-- Whether a node, or one below it, reads or writes a variable. -/
inductive Program.Mentions (p : Program) : ExprId → VarId → Prop where
  | own {id : ExprId} {node : Expr} {var : VarId} :
      p.expr? id = some node → node.mentioned? = some var → Mentions p id var
  | of_part {id part : ExprId} {node : Expr} {var : VarId} :
      p.expr? id = some node → part ∈ p.children node → Mentions p part var → Mentions p id var

/-- Whether a function has a variable among its parameters, or uses it in
its body. -/
def Function.Uses (p : Program) (f : Function) (var : VarId) : Prop :=
  var ∈ f.params.map Param.var ∨ p.Mentions f.body var

/-- No two of the variables are declared under one name. -/
def Program.Unshared (p : Program) (used : VarId → Prop) : Prop :=
  ∀ (v w : VarId) (name : String), used v → used w →
    p.symbols.name? v = some name → p.symbols.name? w = some name → v = w

-- ======================================================== stepping by one

section Stepping

open Float.Model

/-- Subtracting a number is adding the number of the other sign. -/
theorem sub_positive (x : UnpackedFloat) (mantissa : Nat) (exponent : Int) (h : 0 < mantissa) :
    UnpackedFloat.sub Format.binary64 x (.finite .positive mantissa exponent h) =
      UnpackedFloat.add Format.binary64 x (.finite .negative mantissa exponent h) := by
  cases x with
  | infinity sign => rfl
  | notANumber => rfl
  | zero sign => rfl
  | finite sign mantissa' exponent' h' =>
      unfold UnpackedFloat.sub UnpackedFloat.add
      simp only [UnpackedFloat.Sign.apply, Int.sub_eq_add_neg]

theorem unpack_one :
    (1.0 : Float).toModel.unpack = .finite .positive (2 ^ 52) (-52) (Nat.two_pow_pos 52) := rfl

theorem unpack_minus_one :
    (-1.0 : Float).toModel.unpack = .finite .negative (2 ^ 52) (-52) (Nat.two_pow_pos 52) := rfl

/-- To subtract one is to add minus one: both round the same sum. -/
theorem sub_one (x : Float) : x - 1.0 = x + -1.0 := by
  show Float.ofModel (pack _) = Float.ofModel (pack _)
  rw [unpack_one, unpack_minus_one, sub_positive]

/-- Code steps by subtracting or adding one, the machine by adding what is
to be added. -/
theorem StepOp.eval_binary (op : StepOp) (old : Float) :
    op.binary.eval old 1.0 = .ok (old + op.delta) := by
  cases op with
  | preInc => rfl
  | postInc => rfl
  | preDec => exact congrArg Except.ok (sub_one old)
  | postDec => exact congrArg Except.ok (sub_one old)

end Stepping

-- ============================================================== evaluation

section Evaluation

open Evaluation

variable {s : Setting} {height : Nat} {id : ExprId} {w w' : World} {value : Float}

/-- A node that has a value has it by its kind. -/
theorem evalNode_of_eval {node : Expr} (hnode : s.program.expr? id = some node)
    (h : eval s height id w = some (.value value, w')) :
    ∃ height', evalNode s (eval s height') height' node w = some (.value value, w') := by
  cases height with
  | zero => cases h
  | succ height' =>
      rw [eval, hnode] at h
      exact ⟨height', h⟩

/-- A scalar that is read was assigned. -/
theorem readScalar_eq_ok {p : Program} {vars : Frame} {var : VarId} {sym : Symbol}
    (hvar : p.symbols.get? var = some sym) (h : vars.readScalar p var = .ok value) :
    vars.scalar? var = some value := by
  simp only [Frame.readScalar, Program.symbol, hvar, ok_bind] at h
  cases hcell : vars.scalar? var with
  | none => rw [hcell] at h; cases h
  | some cell => rw [hcell] at h; cases h; rfl

/-- A scalar that is declared can be written. -/
theorem storeScalar_eq {p : Program} {var : VarId} {sym : Symbol}
    (hvar : p.symbols.get? var = some sym) (vars : Frame) (value : Float) :
    vars.storeScalar p var value = .ok (.scalar var sym.name value, vars.setScalar var value) := by
  simp only [Frame.storeScalar, Program.symbol, hvar, ok_bind]
  rfl

/-- A world behind a store. -/
def World.stored (w : World) (var : VarId) (name : String) (value : Float) : World :=
  ⟨w.vars.setScalar var value, w.stores ++ [.scalar var name value]⟩

/-- What comes behind a store sees it. -/
theorem storing_scalar_bind {α : Type} {p : Program} {var : VarId} {sym : Symbol}
    (hvar : p.symbols.get? var = some sym) (value : Float) (f : Unit → Evaluation α) (w : World) :
    (storing (·.storeScalar p var value) >>= f) w = f () (w.stored var sym.name value) :=
  storing_bind_ok (storeScalar_eq hvar w.vars value) f

end Evaluation

/-- The scalar stores of a run, by name and in order. -/
def scalarStores (stores : List Store) : List (String × Option Float) :=
  stores.filterMap fun
    | .scalar _ name value => some (name, some value)
    | .element .. => none

namespace SSA

/-- The arm that the machine takes: the second iff the condition counts as
zero. -/
def truthy (_ : List Bool) (value : Float) : Bool := !Arith.isZero value

-- ============================================================ the relation

/-- The code that runs in `st` has come as far as the call in `w`. -/
structure Tracks (p : Program) (used : VarId → Prop) (w : World) (st : State) : Prop where
  cells : ∀ {var : VarId} {sym : Symbol}, used var → p.symbols.get? var = some sym →
    st.env (.user sym.name none) = w.vars.scalar? var
  confined : ∀ {var : VarId} {value : Float}, w.vars.scalar? var = some value → used var
  definitions : st.trace.definitions = scalarStores w.stores

namespace Tracks

variable {p : Program} {used : VarId → Prop} {w : World} {st st' : State}

/-- Temporaries, and what else happens, do not matter. -/
theorem of_same (h : Tracks p used w st)
    (henv : ∀ name, st'.env (.user name none) = st.env (.user name none))
    (hdefs : st'.trace.definitions = st.trace.definitions) : Tracks p used w st' where
  cells hused hvar := (henv _).trans (h.cells hused hvar)
  confined := h.confined
  definitions := hdefs.trans h.definitions

/-- A new temporary is seen by no variable of the source. -/
theorem assigned_temp (h : Tracks p used w st) (number : Nat) (rhs : Rhs) (value : Float) :
    Tracks p used w (st.assigned (.temp number) rhs value) :=
  h.of_same (fun _ => rfl) <| by
    unfold State.assigned
    rw [Events.definitions_append]
    exact List.append_nil _

/-- The head of a branch changes no variable. -/
theorem branched (h : Tracks p used w st) (cond : Operand) (value : Float) :
    Tracks p used w (st.branched truthy cond value) :=
  h.of_same (fun _ => rfl) <| by
    unfold State.branched
    rw [Events.definitions_append]
    exact List.append_nil _

/-- Nor does a phi into a temporary. -/
theorem merged_temp (h : Tracks p used w st) (number : Nat) (sources : List Var) :
    Tracks p used w (st.merged (.temp number) sources) :=
  h.of_same (fun _ => rfl) <| by
    unfold State.merged
    rw [Events.definitions_append]
    exact List.append_nil _

/-- A store, and the value given to the name. -/
theorem stored (hunshared : p.Unshared used) (h : Tracks p used w st) {var : VarId} {sym : Symbol}
    (hused : used var) (hvar : p.symbols.get? var = some sym) {value : Float}
    (henv : st'.env = st.env.set (.user sym.name none) (some value))
    (hdefs : st'.trace.definitions = st.trace.definitions ++ [(sym.name, some value)]) :
    Tracks p used (w.stored var sym.name value) st' where
  cells := by
    intro other sym' hother hget
    rw [henv, World.stored, Frame.scalar?_setScalar]
    by_cases heq : var = other
    · subst heq
      cases hvar.symm.trans hget
      rw [if_pos rfl, Env.set_self]
    · rw [if_neg heq, Env.set_of_ne]
      · exact h.cells hother hget
      · intro hname
        injection hname with hname
        have hfirst : p.symbols.name? var = some sym.name :=
          Option.map_eq_some_iff.mpr ⟨sym, hvar, rfl⟩
        have hsecond : p.symbols.name? other = some sym.name :=
          Option.map_eq_some_iff.mpr ⟨sym', hget, hname⟩
        exact heq (hunshared var other sym.name hused hother hfirst hsecond)
  confined := by
    intro other value' hcell
    rw [World.stored, Frame.scalar?_setScalar] at hcell
    by_cases heq : var = other
    · exact heq ▸ hused
    · rw [if_neg heq] at hcell
      exact h.confined hcell
  definitions := by
    rw [hdefs, h.definitions]
    unfold World.stored scalarStores
    rw [List.filterMap_append]
    rfl

end Tracks

-- =============================================================== the nodes

/-- What code does that computes a node, and leaves its value in an
operand. -/
def Computes (s : Setting) (used : VarId → Prop) (id : ExprId) (code : List Inst)
    (operand : Option Operand) : Prop :=
  ∀ {height : Nat} {w w' : World} {value : Float} {st : State},
    eval s height id w = some (.value value, w') → Tracks s.program used w st →
    ∃ st', execAll truthy st code = .ok st' ∧ Tracks s.program used w' st'
      ∧ ∀ o, operand = some o → o.value st'.env = .ok value

section Nodes

open Evaluation

variable {s : Setting} {used : VarId → Prop} {id : ExprId} {hi : Nat}
  {code front behind : List Inst} {o l r : Operand} {var : VarId} {sym : Symbol}

/-- A variable that has a value is an operand of that value. -/
theorem value_of_cell {st : State} {x : Var} {value : Float} (h : st.env x = some value) :
    ∀ o, some (Operand.var x) = some o → o.value st.env = .ok value := by
  rintro o ⟨⟩
  exact Operand.value_var_iff.mpr h

/-- Code that ends in an assignment. -/
theorem execAll_snoc_assign (dest : Var) {st st₁ : State} {rhs : Rhs} {value : Float}
    (h : execAll truthy st code = .ok st₁) (hvalue : rhs.value st₁.env = .ok value) :
    execAll truthy st (code ++ [.assign dest rhs]) = .ok (st₁.assigned dest rhs value) := by
  refine execAll_append_iff.mpr ⟨st₁, h, ?_⟩
  rw [execAll_singleton]
  exact exec_assign_iff.mpr ⟨value, hvalue, rfl⟩

/-- A number is its own operand. -/
theorem computes_number {value : Float} (hnode : s.program.expr? id = some (.number value)) :
    Computes s used id [] (some (.const value)) := by
  intro height w w' v st heval htracks
  obtain ⟨height', hvalue⟩ := evalNode_of_eval hnode heval
  cases hvalue
  exact ⟨st, rfl, htracks, by rintro o ⟨⟩; rfl⟩

/-- A variable is its own operand, read where it is used. -/
theorem computes_var (hnode : s.program.expr? id = some (.var var))
    (hvar : s.program.symbols.get? var = some sym) (hused : used var) :
    Computes s used id [] (some (.var (.user sym.name none))) := by
  intro height w w' v st heval htracks
  obtain ⟨height', hvalue⟩ := evalNode_of_eval hnode heval
  obtain ⟨hread, rfl⟩ := attempt_eq_value.mp hvalue
  refine ⟨st, rfl, htracks, value_of_cell ?_⟩
  rw [htracks.cells hused hvar]
  exact readScalar_eq_ok hvar hread

/-- Nothing computes nothing. -/
theorem computes_empty (hnode : s.program.expr? id = some .empty) :
    Computes s used id [] none := by
  intro height w w' v st heval htracks
  obtain ⟨height', hvalue⟩ := evalNode_of_eval hnode heval
  cases hvalue
  exact ⟨st, rfl, htracks, by nofun⟩

/-- The operand is computed first, and a new temporary takes the result. -/
theorem computes_unary {op : UnaryOp} {operand : ExprId}
    (hnode : s.program.expr? id = some (.unary op operand))
    (hoperand : Computes s used operand code (some o)) :
    Computes s used id (code ++ [.assign (.temp hi) (.unary op o)])
      (some (.var (.temp hi))) := by
  intro height w w' v st heval htracks
  obtain ⟨height', hvalue⟩ := evalNode_of_eval hnode heval
  obtain ⟨a, w₁, hfirst, hlast⟩ := bind_eq_value.mp hvalue
  cases hlast
  obtain ⟨st₁, hexec, htracks₁, ho⟩ := hoperand hfirst htracks
  have hrhs : (Rhs.unary op o).value st₁.env = .ok (op.eval a) :=
    bind_eq_ok.mpr ⟨a, ho o rfl, rfl⟩
  exact ⟨_, execAll_snoc_assign _ hexec hrhs, htracks₁.assigned_temp _ _ _,
    value_of_cell (Env.set_self _ _ _)⟩

-- ============================================================== operators

/-- An operand outlasts code that was lowered behind it, unless the code
writes it. -/
theorem value_kept {p : Program} {left : ExprId} {lo mid : Nat} {value : Option Operand}
    (hleft : Lowered p left mid hi behind value) (hrange : r.Over (Var.Within lo mid))
    (hkept : r.keptBy behind = true) {st st' : State}
    (hexec : execAll truthy st behind = .ok st') : r.value st'.env = r.value st.env := by
  rcases r with constant | x
  · rfl
  have huntouched : x.UntouchedBy behind := by
    cases x with
    | temp number =>
        intro hmem
        have hge := ((hleft.mem_definedTemps number).mp hmem).1
        exact Nat.not_lt_of_ge hge hrange.2
    | user name version => exact (Bool.not_eq_true' _).mp hkept
  simp only [Operand.value, execAll_untouched behind huntouched hexec]

/-- An operator has the value that the evaluator gives it. -/
theorem value_binary {op : BinaryOp} {env : Env} {a b value : Float}
    (hl : l.value env = .ok a) (hr : r.value env = .ok b) (h : op.eval a b = .ok value) :
    (Rhs.binary op l r).value env = .ok value := by
  refine bind_eq_ok.mpr ⟨a, hl, bind_eq_ok.mpr ⟨b, hr, ?_⟩⟩
  rw [h]
  rfl

/-- The right operand need not be pinned if nothing behind it writes it. -/
theorem computes_binary {op : BinaryOp} {left right : ExprId} {lo mid : Nat}
    (hnode : s.program.expr? id = some (.binary op left right))
    (hright : Computes s used right front (some r))
    (hleft : Computes s used left behind (some l))
    (hlowered : Lowered s.program left mid hi behind (some l))
    (hrange : r.Over (Var.Within lo mid)) (hkept : r.keptBy behind = true) :
    Computes s used id (front ++ (behind ++ [.assign (.temp hi) (.binary op l r)]))
      (some (.var (.temp hi))) := by
  intro height w w' v st heval htracks
  obtain ⟨height', hvalue⟩ := evalNode_of_eval hnode heval
  obtain ⟨b, w₁, hfirst, hvalue⟩ := bind_eq_value.mp hvalue
  obtain ⟨a, w₂, hsecond, hlast⟩ := bind_eq_value.mp hvalue
  obtain ⟨hop, rfl⟩ := attempt_eq_value.mp hlast
  obtain ⟨st₁, hexec₁, htracks₁, hr⟩ := hright hfirst htracks
  obtain ⟨st₂, hexec₂, htracks₂, hl⟩ := hleft hsecond htracks₁
  have hkeeps := value_kept hlowered hrange hkept hexec₂
  have hrhs := value_binary (hl l rfl) (hkeeps.trans (hr r rfl)) hop
  exact ⟨_, execAll_append_iff.mpr ⟨st₁, hexec₁, execAll_snoc_assign _ hexec₂ hrhs⟩,
    htracks₂.assigned_temp _ _ _, value_of_cell (Env.set_self _ _ _)⟩

/-- A pinned copy of the right operand holds its value over the code of the
left one. -/
theorem computes_pinned {op : BinaryOp} {left right : ExprId} {mid : Nat}
    (hnode : s.program.expr? id = some (.binary op left right))
    (hright : Computes s used right front (some r))
    (hleft : Computes s used left behind (some l))
    (hlowered : Lowered s.program left mid hi behind (some l)) :
    Computes s used id
      (front ++ .assign (.temp hi) (.copy r) ::
        (behind ++ [.assign (.temp (hi + 1)) (.binary op l (.var (.temp hi)))]))
      (some (.var (.temp (hi + 1)))) := by
  intro height w w' v st heval htracks
  obtain ⟨height', hvalue⟩ := evalNode_of_eval hnode heval
  obtain ⟨b, w₁, hfirst, hvalue⟩ := bind_eq_value.mp hvalue
  obtain ⟨a, w₂, hsecond, hlast⟩ := bind_eq_value.mp hvalue
  obtain ⟨hop, rfl⟩ := attempt_eq_value.mp hlast
  obtain ⟨st₁, hexec₁, htracks₁, hr⟩ := hright hfirst htracks
  obtain ⟨st₂, hexec₂, htracks₂, hl⟩ :=
    hleft hsecond (htracks₁.assigned_temp hi (.copy r) b)
  -- the copy is in a temporary that comes behind all of the left operand's
  have huntouched : (Var.temp hi).UntouchedBy behind := fun hmem =>
    Nat.lt_irrefl hi ((hlowered.mem_definedTemps hi).mp hmem).2
  have hpin : st₂.env (.temp hi) = some b :=
    (execAll_untouched behind huntouched hexec₂).trans (Env.set_self _ _ _)
  have hrhs := value_binary (hl l rfl) (Operand.value_var_iff.mpr hpin) hop
  refine ⟨_, execAll_append_iff.mpr ⟨st₁, hexec₁, execAll_cons_iff.mpr ⟨_, ?_,
    execAll_snoc_assign _ hexec₂ hrhs⟩⟩, htracks₂.assigned_temp _ _ _,
    value_of_cell (Env.set_self _ _ _)⟩
  exact exec_assign_iff.mpr ⟨b, hr r rfl, rfl⟩

-- ================================================================= stores

/-- An assignment to a source variable is the definition that its store
reports. -/
theorem definitions_assigned (st : State) (name : String) (rhs : Rhs) (value : Float) :
    (st.assigned (.user name none) rhs value).trace.definitions =
      st.trace.definitions ++ [(name, some value)] :=
  Events.definitions_append _ _

/-- The value is computed first and then copied, and the variable is the
operand. -/
theorem computes_assign {part : ExprId} (hunshared : s.program.Unshared used)
    (hnode : s.program.expr? id = some (.assign (.scalar var) part))
    (hvar : s.program.symbols.get? var = some sym) (hused : used var)
    (hpart : Computes s used part code (some o)) :
    Computes s used id (code ++ [.assign (.user sym.name none) (.copy o)])
      (some (.var (.user sym.name none))) := by
  intro height w w' v st heval htracks
  obtain ⟨height', hvalue⟩ := evalNode_of_eval hnode heval
  obtain ⟨a, w₁, hfirst, hlast⟩ := bind_eq_value.mp hvalue
  rw [storing_scalar_bind hvar] at hlast
  cases hlast
  obtain ⟨st₁, hexec, htracks₁, ho⟩ := hpart hfirst htracks
  exact ⟨_, execAll_snoc_assign _ hexec (ho o rfl),
    htracks₁.stored hunshared hused hvar rfl (definitions_assigned _ _ _ _),
    value_of_cell (Env.set_self _ _ _)⟩

/-- A step has the old value at hand, and stores the new one. -/
theorem step_of_eval {op : StepOp} {height : Nat} {w w' : World} {value : Float}
    (hnode : s.program.expr? id = some (.step op (.scalar var)))
    (hvar : s.program.symbols.get? var = some sym)
    (h : eval s height id w = some (.value value, w')) :
    ∃ old, w.vars.scalar? var = some old ∧ value = op.result old (old + op.delta)
      ∧ w' = w.stored var sym.name (old + op.delta) := by
  obtain ⟨height', hvalue⟩ := evalNode_of_eval hnode h
  rw [evalNode, getVars_bind] at hvalue
  obtain ⟨old, w₁, hread, hlast⟩ := bind_eq_value.mp hvalue
  obtain ⟨hread, rfl⟩ := attempt_eq_value.mp hread
  rw [storing_scalar_bind hvar] at hlast
  cases hlast
  exact ⟨old, readScalar_eq_ok hvar hread, rfl, rfl⟩

/-- The right-hand side of a step. -/
theorem value_step (op : StepOp) {env : Env} {x : Var} {old : Float} (h : env x = some old) :
    (Rhs.binary op.binary (.var x) (.const 1.0)).value env = .ok (old + op.delta) :=
  value_binary (Operand.value_var_iff.mpr h) rfl (op.eval_binary old)

/-- An increment that yields the new value. -/
theorem computes_stepped {op : StepOp} (hunshared : s.program.Unshared used)
    (hnode : s.program.expr? id = some (.step op (.scalar var)))
    (hvar : s.program.symbols.get? var = some sym) (hused : used var)
    (hold : op.yieldsOld = false) :
    Computes s used id
      [.assign (.user sym.name none)
        (.binary op.binary (.var (.user sym.name none)) (.const 1.0))]
      (some (.var (.user sym.name none))) := by
  intro height w w' v st heval htracks
  obtain ⟨old, hcell, rfl, rfl⟩ := step_of_eval hnode hvar heval
  have henv : st.env (.user sym.name none) = some old :=
    (htracks.cells hused hvar).trans hcell
  have hresult : op.result old (old + op.delta) = old + op.delta :=
    if_neg (by rw [hold]; exact Bool.false_ne_true)
  rw [hresult]
  have hexec := execAll_snoc_assign (.user sym.name none)
    (rfl : execAll truthy st [] = .ok st) (value_step op henv)
  exact ⟨_, hexec, htracks.stored hunshared hused hvar rfl (definitions_assigned _ _ _ _),
    value_of_cell (Env.set_self _ _ _)⟩

/-- An increment that yields the old value keeps it in a new temporary. -/
theorem computes_kept {op : StepOp} (hunshared : s.program.Unshared used)
    (hnode : s.program.expr? id = some (.step op (.scalar var)))
    (hvar : s.program.symbols.get? var = some sym) (hused : used var)
    (hold : op.yieldsOld = true) :
    Computes s used id
      [.assign (.temp hi) (.copy (.var (.user sym.name none))),
        .assign (.user sym.name none)
          (.binary op.binary (.var (.user sym.name none)) (.const 1.0))]
      (some (.var (.temp hi))) := by
  intro height w w' v st heval htracks
  obtain ⟨old, hcell, rfl, rfl⟩ := step_of_eval hnode hvar heval
  have henv : st.env (.user sym.name none) = some old :=
    (htracks.cells hused hvar).trans hcell
  have hresult : op.result old (old + op.delta) = old := if_pos hold
  rw [hresult]
  have hcopied := htracks.assigned_temp hi (.copy (.var (.user sym.name none))) old
  have hread : (Rhs.copy (.var (.user sym.name none))).value st.env = .ok old :=
    Operand.value_var_iff.mpr henv
  have hcopy := execAll_snoc_assign (.temp hi) (rfl : execAll truthy st [] = .ok st) hread
  have hexec := execAll_snoc_assign (.user sym.name none) hcopy
    (value_step op ((Env.set_of_ne _ _ (by nofun)).trans henv))
  have hkept : ∀ rhs new,
      ((st.assigned (.temp hi) (.copy (.var (.user sym.name none))) old).assigned
        (.user sym.name none) rhs new).env (.temp hi) = some old := by
    intro rhs new
    rw [State.env_assigned, Env.set_of_ne _ _ (by nofun), State.env_assigned, Env.set_self]
  exact ⟨_, hexec, hcopied.stored hunshared hused hvar rfl (definitions_assigned _ _ _ _),
    value_of_cell (hkept _ _)⟩

-- ================================================================ choices

/-- An arm that is closed leaves its value in its temporary. -/
theorem Sealed.computes {next next' temp : Nat} {code code' : List Inst} {value : Float}
    {w : World} {st st₁ : State} (h : Sealed code next o temp code' next')
    (hexec : execAll truthy st code = .ok st₁) (htracks : Tracks s.program used w st₁)
    (ho : o.value st₁.env = .ok value) :
    ∃ st₂, execAll truthy st code' = .ok st₂ ∧ Tracks s.program used w st₂
      ∧ st₂.env (.temp temp) = some value := by
  cases h with
  | kept => exact ⟨st₁, hexec, htracks, Operand.value_var_iff.mp ho⟩
  | copied =>
      exact ⟨_, execAll_snoc_assign _ hexec ho, htracks.assigned_temp _ _ _, Env.set_self _ _ _⟩

variable {cond thenArm elseArm : ExprId}

/-- The evaluation of a choice: the condition, one arm, and the store if
the choice is assigned. -/
theorem Meets.of_eval {next next' height : Nat} {dest : Var} {w w' : World} {value : Float}
    (h : Meets s.program cond thenArm elseArm next id dest next')
    (heval : eval s height id w = some (.value value, w')) :
    ∃ height' a w₁ w₂, eval s height' cond w = some (.value a, w₁)
      ∧ eval s height' (if Arith.isZero a then elseArm else thenArm) w₁ = some (.value value, w₂)
      ∧ ((∃ number, dest = .temp number ∧ w' = w₂) ∨
        ∃ var sym part, dest = .user sym.name none ∧ s.program.symbols.get? var = some sym
          ∧ s.program.expr? id = some (.assign (.scalar var) part)
          ∧ w' = w₂.stored var sym.name value) := by
  have hchoice : ∀ {height' : Nat} {part : ExprId} {w₂ : World} {v : Float},
      s.program.expr? part = some (.ternary cond thenArm elseArm) →
      eval s height' part w = some (.value v, w₂) →
      ∃ height' a w₁, eval s height' cond w = some (.value a, w₁)
        ∧ eval s height' (if Arith.isZero a then elseArm else thenArm) w₁ =
          some (.value v, w₂) := by
    intro height' part w₂ v hpart heval
    obtain ⟨height'', hvalue⟩ := evalNode_of_eval hpart heval
    obtain ⟨a, w₁, hcond, harm⟩ := bind_eq_value.mp hvalue
    refine ⟨height'', a, w₁, hcond, ?_⟩
    rw [← harm]
    split <;> rfl
  cases h with
  | fresh hnode =>
      obtain ⟨height', a, w₁, hcond, harm⟩ := hchoice hnode heval
      exact ⟨height', a, w₁, w', hcond, harm, .inl ⟨_, rfl, rfl⟩⟩
  | into hnode hpart hvar =>
      obtain ⟨height', hvalue⟩ := evalNode_of_eval hnode heval
      obtain ⟨v, w₂, hfirst, hlast⟩ := bind_eq_value.mp hvalue
      rw [storing_scalar_bind hvar] at hlast
      cases hlast
      obtain ⟨height', a, w₁, hcond, harm⟩ := hchoice hpart hfirst
      exact ⟨height', a, w₁, w₂, hcond, harm, .inr ⟨_, _, _, rfl, hvar, hnode, rfl⟩⟩

/-- The arms of a branch are taken as the machine takes them. -/
theorem execAll_branch {c : Operand} {then' else' : List Inst} {a : Float} {st st₁ : State}
    (hc : c.value st.env = .ok a)
    (h : execAll truthy (st.branched truthy c a) (if Arith.isZero a then else' else then') =
      .ok st₁) :
    (Inst.branch c then' else').exec truthy st = .ok { st₁ with arm := !Arith.isZero a } := by
  refine exec_branch_iff.mpr ⟨a, st₁, hc, ?_, rfl⟩
  rw [← h]
  unfold truthy
  cases Arith.isZero a <;> rfl

/-- The phi behind the branch takes the value of the arm that was run. -/
theorem incoming_arm {temp₁ temp₂ : Nat} {a value : Float} {st : State}
    (h : st.env (.temp (if Arith.isZero a then temp₂ else temp₁)) = some value) :
    State.incoming { st with arm := !Arith.isZero a } [.temp temp₁, .temp temp₂] =
      some value := by
  rw [← h]
  unfold State.incoming
  cases Arith.isZero a <;> rfl

/-- The arms leave their values in temporaries of their own, and the phi
takes that of the arm taken. -/
theorem computes_choice {next next' mid₁ mid₂ mid₃ temp₁ temp₂ : Nat}
    {then' else' then'' else'' : List Inst} {c o₁ o₂ : Operand} {dest : Var}
    (hunshared : s.program.Unshared used)
    (hused : ∀ {var node}, s.program.expr? id = some node → node.mentioned? = some var → used var)
    (hcond : Computes s used cond code (some c))
    (hthen : Computes s used thenArm then' (some o₁))
    (hsealed : Sealed then' mid₁ o₁ temp₁ then'' mid₂)
    (helse : Computes s used elseArm else' (some o₂))
    (hsealed' : Sealed else' mid₃ o₂ temp₂ else'' next)
    (hmeets : Meets s.program cond thenArm elseArm next id dest next') :
    Computes s used id
      (code ++ [.branch c then'' else'', .phi dest [.temp temp₁, .temp temp₂]])
      (some (.var dest)) := by
  intro height w w' v st heval htracks
  obtain ⟨height', a, w₁, w₂, hfirst, harm, hend⟩ := hmeets.of_eval heval
  obtain ⟨st₁, hexec₁, htracks₁, hc⟩ := hcond hfirst htracks
  have hstart := htracks₁.branched c a
  have harms : ∃ st₂,
      execAll truthy (st₁.branched truthy c a) (if Arith.isZero a then else'' else then'') =
        .ok st₂
      ∧ Tracks s.program used w₂ st₂
      ∧ st₂.env (.temp (if Arith.isZero a then temp₂ else temp₁)) = some v := by
    cases hzero : Arith.isZero a with
    | true =>
        rw [hzero] at harm
        obtain ⟨st₂, hexec₂, htracks₂, ho⟩ := helse harm hstart
        exact hsealed'.computes hexec₂ htracks₂ (ho o₂ rfl)
    | false =>
        rw [hzero] at harm
        obtain ⟨st₂, hexec₂, htracks₂, ho⟩ := hthen harm hstart
        exact hsealed.computes hexec₂ htracks₂ (ho o₁ rfl)
  obtain ⟨st₂, hexec₂, htracks₂, hcell⟩ := harms
  have hbehind : Tracks s.program used w₂ { st₂ with arm := !Arith.isZero a } :=
    htracks₂.of_same (fun _ => rfl) rfl
  have hincoming := incoming_arm hcell
  refine ⟨_, execAll_append_iff.mpr ⟨st₁, hexec₁, execAll_cons_iff.mpr
    ⟨_, execAll_branch (hc c rfl) hexec₂, rfl⟩⟩, ?_, ?_⟩
  · rcases hend with ⟨number, rfl, rfl⟩ | ⟨var, sym, part, rfl, hvar, hnode, rfl⟩
    · exact hbehind.merged_temp number _
    · refine hbehind.stored hunshared (hused hnode rfl) hvar ?_ ?_
      · rw [hincoming]
      · rw [hincoming]
        exact Events.definitions_append _ _
  · exact value_of_cell ((Env.set_self _ _ _).trans hincoming)

/-- Either arm runs, and its value is dropped. -/
theorem computes_branch {c : Operand} {then' else' : List Inst} {value value' : Option Operand}
    (hnode : s.program.expr? id = some (.branch cond thenArm elseArm))
    (hcond : Computes s used cond code (some c))
    (hthen : Computes s used thenArm then' value)
    (helse : Computes s used elseArm else' value') :
    Computes s used id (code ++ [.branch c then' else']) none := by
  intro height w w' v st heval htracks
  obtain ⟨height', hvalue⟩ := evalNode_of_eval hnode heval
  obtain ⟨a, w₁, hfirst, harm⟩ := bind_eq_value.mp hvalue
  obtain ⟨st₁, hexec₁, htracks₁, hc⟩ := hcond hfirst htracks
  have hstart := htracks₁.branched c a
  have harms : ∃ st₂,
      execAll truthy (st₁.branched truthy c a) (if Arith.isZero a then else' else then') = .ok st₂
      ∧ Tracks s.program used w' st₂ := by
    cases hzero : Arith.isZero a with
    | true =>
        rw [hzero] at harm
        obtain ⟨st₂, hexec₂, htracks₂, -⟩ := helse harm hstart
        exact ⟨st₂, hexec₂, htracks₂⟩
    | false =>
        rw [hzero] at harm
        obtain ⟨st₂, hexec₂, htracks₂, -⟩ := hthen harm hstart
        exact ⟨st₂, hexec₂, htracks₂⟩
  obtain ⟨st₂, hexec₂, htracks₂⟩ := harms
  refine ⟨{ st₂ with arm := !Arith.isZero a }, execAll_append_iff.mpr ⟨st₁, hexec₁, ?_⟩,
    htracks₂.of_same (fun _ => rfl) rfl, by nofun⟩
  rw [execAll_singleton]
  exact execAll_branch (hc c rfl) hexec₂

/-- The first part runs, and then the second, whose operand it is. -/
theorem computes_seq {first second : ExprId} {value value' : Option Operand}
    (hnode : s.program.expr? id = some (.seq first second))
    (hfirst : Computes s used first front value)
    (hsecond : Computes s used second behind value') :
    Computes s used id (front ++ behind) value' := by
  intro height w w' v st heval htracks
  obtain ⟨height', hvalue⟩ := evalNode_of_eval hnode heval
  obtain ⟨a, w₁, hfst, hsnd⟩ := bind_eq_value.mp hvalue
  obtain ⟨st₁, hexec₁, htracks₁, -⟩ := hfirst hfst htracks
  obtain ⟨st₂, hexec₂, htracks₂, ho⟩ := hsecond hsnd htracks₁
  exact ⟨st₂, execAll_append_iff.mpr ⟨st₁, hexec₁, hexec₂⟩, htracks₂, ho⟩

end Nodes

-- ============================================================ every node

/-- The arms and the condition of a choice are below its node, be it
assigned or not. -/
theorem Meets.mentions {p : Program} {cond thenArm elseArm part id : ExprId} {next next' : Nat}
    {dest : Var} {var : VarId} (h : Meets p cond thenArm elseArm next id dest next')
    (hpart : part ∈ [cond, thenArm, elseArm]) (hvar : p.Mentions part var) :
    p.Mentions id var := by
  cases h with
  | fresh hnode => exact .of_part hnode hpart hvar
  | into hnode hvalue => exact .of_part hnode List.mem_cons_self (.of_part hvalue hpart hvar)

/-- What holds of the variables of a node holds of those of its parts. -/
theorem used_of_part {p : Program} {used : VarId → Prop} {id part : ExprId} {node : Expr}
    (hused : ∀ {var}, p.Mentions id var → used var) (hnode : p.expr? id = some node)
    (hpart : part ∈ p.children node) : ∀ {var}, p.Mentions part var → used var :=
  fun h => hused (.of_part hnode hpart h)

/-- Lowered code computes its node, if the variables that the node uses
have names of their own. -/
theorem Lowered.computes {s : Setting} {used : VarId → Prop} (hunshared : s.program.Unshared used)
    {id : ExprId} {lo hi : Nat} {code : List Inst} {value : Option Operand}
    (h : Lowered s.program id lo hi code value)
    (hused : ∀ {var}, s.program.Mentions id var → used var) : Computes s used id code value := by
  induction h with
  | number hnode => exact computes_number hnode
  | var hnode hvar => exact computes_var hnode hvar (hused (.own hnode rfl))
  | empty hnode => exact computes_empty hnode
  | unary hnode _ ih =>
      exact computes_unary hnode (ih (used_of_part hused hnode (by simp)))
  | binary hnode hright hleft hkept ih ih' =>
      exact computes_binary hnode (ih (used_of_part hused hnode (by simp)))
        (ih' (used_of_part hused hnode (by simp)))
        hleft (hright.within.2 _ rfl) hkept
  | pinned hnode _ hleft ih ih' =>
      exact computes_pinned hnode (ih (used_of_part hused hnode (by simp)))
        (ih' (used_of_part hused hnode (by simp))) hleft
  | assign hnode hvar _ ih =>
      exact computes_assign hunshared hnode hvar (hused (.own hnode rfl))
        (ih (used_of_part hused hnode (by simp)))
  | stepped hnode hvar hold =>
      exact computes_stepped hunshared hnode hvar (hused (.own hnode rfl)) hold
  | kept hnode hvar hold =>
      exact computes_kept hunshared hnode hvar (hused (.own hnode rfl)) hold
  | choice _ _ hsealed _ hsealed' hmeets ih ih₁ ih₂ =>
      exact computes_choice hunshared (fun hnode hvar => hused (.own hnode hvar))
        (ih fun h => hused (hmeets.mentions (by simp) h))
        (ih₁ fun h => hused (hmeets.mentions (by simp) h)) hsealed
        (ih₂ fun h => hused (hmeets.mentions (by simp) h)) hsealed' hmeets
  | branch hnode _ _ _ ih ih₁ ih₂ =>
      exact computes_branch hnode (ih (used_of_part hused hnode (by simp)))
        (ih₁ (used_of_part hused hnode (by simp)))
        (ih₂ (used_of_part hused hnode (by simp)))
  | seq hnode _ _ ih ih' =>
      exact computes_seq hnode (ih (used_of_part hused hnode (by simp)))
        (ih' (used_of_part hused hnode (by simp)))

end SSA

end ExprGraph
