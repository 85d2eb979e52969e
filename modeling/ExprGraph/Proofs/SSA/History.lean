/-
The history of a builder.

A builder that has served other requests serves one as a new builder does,
with all temporaries counted from where it stands (`serve_later`). A request
that fails fails alike, and takes as many temporaries. So whatever was
asked of a builder before only shifts its numbering, and no two lists it
gave share a temporary (`pairwise_answers`). The builders here count without
bound.

# The argument

The number of temporaries taken is read in one place only, where a new one
gets it. So every move of lowering, made where `k` more are taken, comes to
what it came to, with `k` added to each temporary (`Later`). What the code
knows of itself beside its instructions, its size and the last places that
define a name, does not depend on temporaries. Numbering a list from a later
base adds as much to every number.
-/
import ExprGraph.Proofs.SSA.TemporaryNumbers

namespace ExprGraph.SSA

-- ==================================================================== images

/-- A number, where `k` more are taken. -/
def later (k number : Nat) : Nat :=
  number + k

section Code

variable {f : Nat → Nat}

/-- Numbers of temporaries are in no name. -/
theorem isNamed_relabel (name : String) (x : Var) :
    (x.relabel f).isNamed name = x.isNamed name := by
  cases x <;> rfl

mutual

/-- An instruction writes the source variables that it wrote. -/
theorem Inst.writes_relabel (name : String) : ∀ i : Inst, (i.relabel f).writes name = i.writes name
  | .assign dest _ | .phi dest _ => isNamed_relabel name dest
  | .branch _ thenArm elseArm => by
    rw [Inst.relabel_branch, Inst.writes, Inst.writes, writesAny_relabel, writesAny_relabel]

/-- Source variables are written where they were. -/
theorem writesAny_relabel (name : String) :
    ∀ code : List Inst, writesAny name (relabel f code) = writesAny name code
  | [] => rfl
  | i :: rest => by
    rw [relabel_cons, writesAny, writesAny, Inst.writes_relabel, writesAny_relabel]

end

mutual

theorem Inst.note_relabel (place : Nat) (t : Places) :
    ∀ i : Inst, (i.relabel f).note place t = i.note place t
  | .assign (.temp _) _ | .assign (.user ..) _ | .phi (.temp _) _ | .phi (.user ..) _ => rfl
  | .branch _ thenArm elseArm => by
    rw [Inst.relabel_branch, Inst.note, Inst.note, noteAll_relabel, noteAll_relabel]

/-- The places of last definitions are of source variables only, and
stay. -/
theorem noteAll_relabel (place : Nat) (t : Places) :
    ∀ code : List Inst, noteAll place t (relabel f code) = noteAll place t code
  | [] => rfl
  | i :: rest => by rw [relabel_cons, noteAll, noteAll, Inst.note_relabel, noteAll_relabel]

end

namespace Code

/-- Emitted code under new numbers. -/
def relabel (f : Nat → Nat) (c : Code) : Code where
  backwards := SSA.relabel f c.backwards
  size := c.size
  last := c.last
  size_eq := by rw [relabel_eq_map, List.length_map, c.size_eq]
  last_eq mark name := by
    rw [relabel_eq_map, ← List.map_take, ← relabel_eq_map, writesAny_relabel, c.last_eq]

/-- The instructions of emitted code under new numbers. -/
theorem insts_relabel (c : Code) : (c.relabel f).insts = SSA.relabel f c.insts := by
  rw [insts, insts, relabel_eq_map, List.map_reverse, ← relabel_eq_map]
  rfl

/-- An instruction is emitted behind the renumbered ones. -/
theorem relabel_push (c : Code) (i : Inst) :
    (c.push i).relabel f = (c.relabel f).push (i.relabel f) := by
  simp only [relabel, push, relabel_cons, Inst.note_relabel]

/-- A pinned copy goes to the same place. -/
theorem relabel_insertTemp (c : Code) (mark number : Nat) (value : Rhs) :
    (c.insertTemp mark number value).relabel f
      = (c.relabel f).insertTemp mark (f number) (value.relabel f) := by
  simp only [relabel, insertTemp, relabel_eq_map, List.map_append, List.map_cons, List.map_take,
    List.map_drop]
  rfl

end Code

end Code

/-- The state of lowering, where `k` more temporaries are taken. -/
def Emission.later (k : Nat) (e : Emission) : Emission :=
  ⟨e.code.relabel (SSA.later k), e.value.map (Operand.relabel (SSA.later k)), e.temps + k⟩

/-- The arm of a choice, where `k` more temporaries are taken. -/
def Emission.Arm.later (k : Nat) (arm : Emission.Arm) : Emission.Arm :=
  ⟨arm.code.relabel (SSA.later k), arm.value.map (Var.relabel (SSA.later k))⟩

/-- What the arms of a choice are for, where `k` more temporaries are
taken. -/
def Emission.Merge.later (k : Nat) : Emission.Merge → Emission.Merge
  | .drop => .drop
  | .into dest => .into (dest.relabel (SSA.later k))
  | .fresh => .fresh

/-- The same refusal, where `k` more temporaries are taken. -/
def Stop.later (k : Nat) (stop : Stop) : Stop :=
  ⟨stop.refusal, stop.temps + k⟩

/-- The one comes to the image of what the other comes to, or to the same
refusal, with `k` more temporaries taken. -/
def Later (k : Nat) {α : Type} (image : α → α) (x' x : Except Stop α) : Prop :=
  x' = (x.map image).mapError (Stop.later k)

variable {k : Nat}

namespace Later

variable {α β : Type} {image : α → α} {image' : β → β}

theorem ok (a : α) : Later k image (.ok (image a)) (.ok a) := rfl

/-- Computations one behind the other come to the same later if each of them
does. -/
theorem bind {x x' : Except Stop α} {f g : α → Except Stop β} (hx : Later k image x' x)
    (h : ∀ a, Later k image' (g (image a)) (f a)) : Later k image' (x' >>= g) (x >>= f) := by
  cases hx
  cases x with
  | error stop => rfl
  | ok a => exact h a

end Later

-- ===================================================================== moves

namespace Emission

theorem later_refuse {α : Type} (image : α → α) (e : Emission) (id : ExprId)
    (obstacle : Obstacle) :
    Later k image ((e.later k).refuse id obstacle) (e.refuse id obstacle) := rfl

/-- The value that a node left is looked at, whatever its number. -/
theorem later_operand (e : Emission) (id : ExprId) :
    Later k (Operand.relabel (SSA.later k)) ((e.later k).operand id) (e.operand id) := by
  unfold operand later
  cases e.value <;> rfl

/-- Declarations have no temporaries in them. -/
theorem later_scalar (p : Program) (e : Emission) (id : ExprId) (var : VarId) :
    Later k (Var.relabel (SSA.later k)) ((e.later k).scalar p id var) (e.scalar p id var) := by
  unfold scalar
  cases p.symbols.get? var with
  | none => rfl
  | some sym =>
      dsimp only
      split <;> rfl

theorem later_emit (e : Emission) (i : Inst) :
    (e.later k).emit (i.relabel (SSA.later k)) = (e.emit i).later k := by
  unfold emit later
  rw [Code.relabel_push]

/-- This is where the number of temporaries taken is read. -/
theorem later_fresh (e : Emission) :
    (e.later k).fresh = (e.fresh.1.relabel (SSA.later k), e.fresh.2.later k) := by
  unfold fresh later
  rw [Nat.add_right_comm]
  rfl

/-- The new temporary is later by as much as those it is defined from. -/
theorem later_define (e : Emission) (value : Rhs) :
    (e.later k).define (value.relabel (SSA.later k)) = (e.define value).later k := by
  rw [define, later_fresh]
  show ((e.fresh.2.later k).emit ((Inst.assign e.fresh.1 value).relabel _)).yield _ = _
  rw [later_emit]
  rfl

/-- An assignment is emitted, and its destination is the value of the
node. -/
theorem later_assign (e : Emission) (dest : Var) (value : Rhs) :
    (e.later k).assign (dest.relabel (SSA.later k)) (value.relabel (SSA.later k))
      = (e.assign dest value).later k := by
  show ((e.later k).emit ((Inst.assign dest value).relabel _)).yield _ = _
  rw [later_emit]
  rfl

/-- An increment keeps the old value in a new temporary, if that is what is
asked for. -/
theorem later_step (e : Emission) (op : StepOp) (target : Var) :
    (e.later k).step op (target.relabel (SSA.later k)) = (e.step op target).later k := by
  have hnext : ((Rhs.binary op.binary (.var target) (.const 1.0)).relabel (SSA.later k))
      = .binary op.binary (.var (target.relabel (SSA.later k))) (.const 1.0) := rfl
  unfold step
  split
  · rw [← hnext, ← later_emit, ← later_define]
    rfl
  · rw [← hnext, later_assign]

/-- The operand's code comes first and is the same, later. -/
theorem later_unary (e : Emission) (op : UnaryOp) (operand : ExprId) :
    Later k (Emission.later k) ((e.later k).unary op operand) (e.unary op operand) :=
  .bind (later_operand e operand) fun o => congrArg Except.ok (later_define e (.unary op o))

/-- The mark is a place in the code, which has places where it had. -/
theorem later_pin (e : Emission) (mark : Nat) (o : Operand) :
    (e.later k).pin mark (o.relabel (SSA.later k))
      = ((e.pin mark o).1.relabel (SSA.later k), (e.pin mark o).2.later k) := by
  rcases o with value | x
  · rfl
  rcases x with number | ⟨name, version⟩
  · rfl
  have hwrites : (e.later k).code.writesSince mark name = e.code.writesSince mark name := rfl
  simp only [pin, Operand.relabel, Var.relabel, hwrites]
  split
  · rw [later, later, Code.relabel_insertTemp, Nat.add_right_comm]
    rfl
  · rfl

/-- Whether the right operand is pinned depends on what was written, not on
temporaries. -/
theorem later_binary (e : Emission) (op : BinaryOp) (left : ExprId) (right : Operand)
    (mark : Nat) :
    Later k (Emission.later k) ((e.later k).binary op left (right.relabel (SSA.later k)) mark)
      (e.binary op left right mark) := by
  refine .bind (later_operand e left) fun l => ?_
  rw [later_pin]
  exact congrArg Except.ok (later_define _ (.binary op l (e.pin mark right).1))

theorem later_copy (e : Emission) (value : ExprId) (dest : Var) :
    Later k (Emission.later k) ((e.later k).copy value (dest.relabel (SSA.later k)))
      (e.copy value dest) :=
  .bind (later_operand e value) fun o => congrArg Except.ok (later_assign e dest (.copy o))

-- ================================================================= choices

/-- An arm is sealed with a new temporary in the same cases. -/
theorem later_closeArm (e : Emission) (merge : Merge) (id : ExprId) :
    Later k (fun closed => (closed.1.later k, closed.2.later k))
      ((e.later k).closeArm (merge.later k) id) (e.closeArm merge id) := by
  -- where the value is merged to makes no difference to the arm
  have hclose : Later k (fun closed => (closed.1.later k, closed.2.later k))
      ((e.later k).closeArm .fresh id) (e.closeArm .fresh id) := by
    refine .bind (later_operand e id) fun o => ?_
    have hmoved : (e.later k).fresh.2.emit
          (.assign (e.later k).fresh.1 ((Rhs.copy o).relabel (SSA.later k)))
        = (e.fresh.2.emit (.assign e.fresh.1 (.copy o))).later k := by
      rw [later_fresh]
      exact later_emit e.fresh.2 (.assign e.fresh.1 (.copy o))
    have hcopied : Later k (fun closed : Arm × Emission => (closed.1.later k, closed.2.later k))
        (.ok (⟨((e.later k).fresh.2.emit (.assign (e.later k).fresh.1
            ((Rhs.copy o).relabel (SSA.later k)))).code, some (e.later k).fresh.1⟩,
          (e.later k).fresh.2.emit
            (.assign (e.later k).fresh.1 ((Rhs.copy o).relabel (SSA.later k)))))
        (.ok (⟨(e.fresh.2.emit (.assign e.fresh.1 (.copy o))).code, some e.fresh.1⟩,
          e.fresh.2.emit (.assign e.fresh.1 (.copy o)))) := by
      rw [hmoved, later_fresh]
      rfl
    rcases o with value | x
    · exact hcopied
    rcases x with number | ⟨name, version⟩
    · rfl
    · exact hcopied
  cases merge with
  | drop => rfl
  | into dest => exact hclose
  | fresh => exact hclose

/-- The arms meet in a new temporary in the same cases. -/
theorem later_mergeTarget (e : Emission) (merge : Merge) :
    (e.later k).mergeTarget (merge.later k)
      = ((e.mergeTarget merge).1.map (Var.relabel (SSA.later k)),
        (e.mergeTarget merge).2.later k) := by
  cases merge with
  | drop => rfl
  | into dest => rfl
  | fresh =>
      show (some (e.later k).fresh.1, (e.later k).fresh.2) = _
      rw [later_fresh]
      rfl

/-- The branch and its phi are put together from what is later. -/
theorem later_branch (e : Emission) (merge : Merge) (outer : Code) (cond : Operand)
    (thenArm elseArm : Arm) :
    (e.later k).branch (merge.later k) (outer.relabel (SSA.later k))
        (cond.relabel (SSA.later k)) (thenArm.later k) (elseArm.later k)
      = (e.branch merge outer cond thenArm elseArm).later k := by
  have hfront : ({ e.later k with
        code := (outer.relabel (SSA.later k)).push (.branch (cond.relabel (SSA.later k))
          (thenArm.later k).code.insts (elseArm.later k).code.insts) } : Emission)
      = Emission.later k
        { e with code := outer.push (.branch cond thenArm.code.insts elseArm.code.insts) } := by
    rw [later, later, Code.relabel_push, Inst.relabel_branch, ← Code.insts_relabel,
      ← Code.insts_relabel]
    rfl
  have hsources : (thenArm.later k).value.toList ++ (elseArm.later k).value.toList
      = (thenArm.value.toList ++ elseArm.value.toList).map (Var.relabel (SSA.later k)) := by
    rw [List.map_append, ← Option.toList_map, ← Option.toList_map]
    rfl
  unfold branch
  dsimp only
  rw [hfront, later_mergeTarget, hsources]
  cases (mergeTarget _ merge).1 with
  | none => rfl
  | some dest =>
      exact congrArg (yield · _) (later_emit _ (.phi dest _))

-- ================================================================= lowering

/-- Lowering, given where `k` more temporaries are taken. -/
def LaterAt (k : Nat) (lower : ExprId → Emission → Except Stop Emission) : Prop :=
  ∀ id e, Later k (Emission.later k) (lower id (e.later k)) (lower id e)

variable {p : Program} {lower : ExprId → Emission → Except Stop Emission}

/-- A choice is lowered later if its children are. -/
theorem later_choice (h : LaterAt k lower) (merge : Merge) (cond thenArm elseArm : ExprId)
    (e : Emission) :
    Later k (Emission.later k) (lowerChoice lower (merge.later k) cond thenArm elseArm (e.later k))
      (lowerChoice lower merge cond thenArm elseArm e) := by
  refine .bind (h cond e) fun e => .bind (later_operand e cond) fun c => ?_
  refine .bind (h thenArm e.openArm) fun e' => .bind (later_closeArm e' merge thenArm) ?_
  intro (t, e')
  refine .bind (h elseArm e'.openArm) fun e'' => .bind (later_closeArm e'' merge elseArm) ?_
  intro (f, e'')
  exact congrArg Except.ok (later_branch e'' merge e.code c t f)

/-- So is an assignment, choice or not. -/
theorem later_into (h : LaterAt k lower) (id : ExprId) (dest : Var) (e : Emission) :
    Later k (Emission.later k) (lowerInto p lower id (dest.relabel (SSA.later k)) (e.later k))
      (lowerInto p lower id dest e) := by
  have hplain : Later k (Emission.later k)
      (do (← lower id (e.later k)).copy id (dest.relabel (SSA.later k)))
      (do (← lower id e).copy id dest) := .bind (h id e) fun e => later_copy e id dest
  unfold lowerInto
  cases p.expr? id with
  | none => exact hplain
  | some node =>
      cases node with
      | ternary cond thenArm elseArm => exact later_choice h (.into dest) cond thenArm elseArm e
      | _ => exact hplain

end Emission

open Emission

/-- Lowering comes to the same, but for the temporaries taken before. -/
theorem later_lower (p : Program) (depth : Nat) : LaterAt k (lower p depth) := by
  induction depth with
  | zero => exact fun id e => later_refuse _ e id _
  | succ depth ih =>
      intro id e
      unfold lower
      cases p.expr? id with
      | none => exact later_refuse _ e id _
      | some node =>
          cases node with
          | number value => rfl
          | var var => exact .bind (later_scalar p e id var) fun _ => rfl
          | empty => rfl
          | unary op operand => exact .bind (ih operand e) fun e => later_unary e op operand
          | binary op left right =>
              refine .bind (ih right e) fun e => .bind (later_operand e right) fun r => ?_
              exact .bind (ih left e) fun e' => later_binary e' op left r e.code.size
          | assign target value =>
              cases target with
              | element array index => exact later_refuse _ e id _
              | scalar var =>
                  exact .bind (later_scalar p e id var) fun dest => later_into ih value dest e
          | index array index => exact later_refuse _ e id _
          | step op target =>
              cases target with
              | element array index => exact later_refuse _ e id _
              | scalar var =>
                  refine .bind (later_scalar p e id var) fun dest => ?_
                  exact congrArg Except.ok (later_step e op dest)
          | ternary cond thenArm elseArm => exact later_choice ih .fresh cond thenArm elseArm e
          | branch cond thenArm elseArm => exact later_choice ih .drop cond thenArm elseArm e
          | seq first second => exact .bind (ih first e) fun e => ih second e
          | loop cond body => exact later_refuse _ e id _
          | call callee args => exact later_refuse _ e id _

-- ================================================================ numbering

/-- A table with `k` added to all numbers, old and new. -/
def LaterTable (k : Nat) (table' table : Numbering) : Prop :=
  ∀ temp : Nat, table'[temp + k]? = table[temp]?.map (later k)

/-- A temporary has a number iff the later one has. -/
theorem LaterTable.mem_iff {table' table : Numbering} (h : LaterTable k table' table)
    (temp : Nat) : temp + k ∈ table' ↔ temp ∈ table := by
  rw [Std.ExtTreeMap.mem_iff_isSome_getElem?, Std.ExtTreeMap.mem_iff_isSome_getElem?, h,
    Option.isSome_map]

/-- Numbering one more keeps the tables as far apart. -/
theorem LaterTable.insert {table' table : Numbering} (h : LaterTable k table' table)
    (first next : Nat) :
    LaterTable k (table'.insert (first + k) (next + k)) (table.insert first next) := by
  intro temp
  rw [Std.ExtTreeMap.getElem?_insert, Std.ExtTreeMap.getElem?_insert, h]
  by_cases heq : first = temp
  · subst heq
    rw [if_pos Std.ReflCmp.compare_self, if_pos Std.ReflCmp.compare_self]
    rfl
  · rw [if_neg fun hlater => heq (Nat.add_right_cancel (Std.compare_eq_iff_eq.mp hlater)),
      if_neg fun hsame => heq (Std.compare_eq_iff_eq.mp hsame)]

/-- Numbering some temporaries keeps the tables as far apart. -/
theorem later_numberAll (temps : List Nat) :
    ∀ {table' table : Numbering} (next : Nat), LaterTable k table' table →
      LaterTable k ((temps.map (later k)).foldl numberNext (table', next + k)).1
        (temps.foldl numberNext (table, next)).1 := by
  induction temps with
  | nil => exact fun _ h => h
  | cons first temps ih =>
      intro table' table next h
      rw [List.map_cons, List.foldl_cons, List.foldl_cons, numberNext, numberNext]
      by_cases hfirst : first ∈ table
      · have hlater : later k first ∈ table' := (h.mem_iff first).mpr hfirst
        rw [if_pos hfirst, if_pos hlater]
        exact ih next h
      · have hlater : later k first ∉ table' := fun hin => hfirst ((h.mem_iff first).mp hin)
        rw [if_neg hfirst, if_neg hlater]
        have hrest := ih (next + 1) (h.insert first next)
        rwa [Nat.add_right_comm] at hrest

section Twice

variable (f g : Nat → Nat)

theorem Var.relabel_relabel : ∀ x : Var, (x.relabel f).relabel g = x.relabel (g ∘ f)
  | .temp _ | .user .. => rfl

theorem Operand.relabel_relabel : ∀ o : Operand, (o.relabel f).relabel g = o.relabel (g ∘ f)
  | .const _ => rfl
  | .var x => congrArg Operand.var (x.relabel_relabel f g)

theorem Rhs.relabel_relabel : ∀ rhs : Rhs, (rhs.relabel f).relabel g = rhs.relabel (g ∘ f)
  | .copy o => congrArg Rhs.copy (o.relabel_relabel f g)
  | .unary op o => congrArg (Rhs.unary op) (o.relabel_relabel f g)
  | .binary op l r => congrArg₂ (Rhs.binary op) (l.relabel_relabel f g) (r.relabel_relabel f g)

mutual

/-- New numbers twice are new numbers once. -/
theorem Inst.relabel_relabel : ∀ i : Inst, (i.relabel f).relabel g = i.relabel (g ∘ f)
  | .assign dest rhs =>
    congrArg₂ Inst.assign (dest.relabel_relabel f g) (rhs.relabel_relabel f g)
  | .branch cond thenArm elseArm => by
    rw [Inst.relabel_branch, Inst.relabel_branch, Inst.relabel_branch, cond.relabel_relabel,
      relabel_relabel thenArm, relabel_relabel elseArm]
  | .phi dest sources => by
    rw [Inst.relabel, Inst.relabel, Inst.relabel, dest.relabel_relabel, List.map_map]
    congr 2
    funext x
    exact x.relabel_relabel f g

/-- New numbers for new numbers. -/
theorem relabel_relabel : ∀ code : List Inst, relabel g (relabel f code) = relabel (g ∘ f) code
  | [] => rfl
  | i :: rest => by
    rw [relabel_cons, relabel_cons, relabel_cons, Inst.relabel_relabel i, relabel_relabel rest]

end

end Twice

/-- Numbers from a later base are later. -/
theorem later_numbering (base : Nat) (code : List Inst) :
    numbering (base + k) (relabel (later k) code) ∘ later k = later k ∘ numbering base code := by
  funext temp
  have hempty : LaterTable k ∅ ∅ := fun _ => rfl
  have htable := later_numberAll (definedTemps code) base hempty temp
  show (numberFrom _ _)[temp + k]?.getD _ = later k ((numberFrom _ _)[temp]?.getD temp)
  rw [definedTemps_relabel, numberFrom_eq_foldl, htable, ← numberFrom_eq_foldl]
  cases (numberFrom base (definedTemps code))[temp]? <;> rfl

/-- A later list gets the numbers that it got, later. -/
theorem later_renumber (base : Nat) (code : List Inst) :
    renumber (base + k) (relabel (later k) code) = relabel (later k) (renumber base code) := by
  rw [renumber_eq_relabel, renumber_eq_relabel, relabel_relabel, relabel_relabel,
    later_numbering]

/-- Renaming and numbering do to a later list what they do to the list. -/
theorem later_finish (base : Nat) (liveIn : List String) (c : Code) :
    finish (base + k) liveIn (c.relabel (later k)) = relabel (later k) (finish base liveIn c) := by
  rw [finish, finish, Code.insts_relabel, later_renumber, rename_relabel]

-- ================================================================= builders

/-- A builder builds a function as one that took `k` temporaries less. -/
theorem build_later (k : Nat) (b : Builder) (p : Program) (f : Function) :
    Builder.build ⟨b.temps + k⟩ p f
      = ((b.build p f).1.map (relabel (later k)), ⟨(b.build p f).2.temps + k⟩) := by
  have hbody : lowerBody p f.body ⟨.empty, none, b.temps + k⟩
      = ((lowerBody p f.body ⟨.empty, none, b.temps⟩).map (Emission.later k)).mapError
        (Stop.later k) := by
    rw [lowerBody_eq_lower, lowerBody_eq_lower]
    exact later_lower p _ f.body ⟨.empty, none, b.temps⟩
  unfold Builder.build
  cases paramNames p f.body f.params with
  | error refusal => rfl
  | ok liveIn =>
      dsimp only
      rw [hbody]
      cases lowerBody p f.body ⟨.empty, none, b.temps⟩ with
      | error stop => rfl
      | ok e =>
          refine Prod.ext (congrArg Except.ok ?_) rfl
          exact later_finish b.temps liveIn e.code

/-- What a builder is asked for: a function, or the one with a name. -/
inductive Request where
  | function (f : Function)
  | named (name : String)

namespace Builder

/-- Serve a request. -/
def serve (b : Builder) (p : Program) : Request → Except Refusal (List Inst) × Builder
  | .function f => b.build p f
  | .named name => b.buildNamed p name

/-- The builder behind some requests. -/
def after (b : Builder) (p : Program) (requests : List Request) : Builder :=
  requests.foldl (fun b r => (b.serve p r).2) b

/-- What a builder answers to requests, one after the other. -/
def answers (b : Builder) (p : Program) : List Request → List (Except Refusal (List Inst))
  | [] => []
  | r :: rest => (b.serve p r).1 :: answers (b.serve p r).2 p rest

end Builder

variable {b b' : Builder}

/-- A builder serves a request as a new one does, with all temporaries
counted from where it stands. -/
theorem serve_later (b : Builder) (p : Program) (r : Request) :
    b.serve p r = ((Builder.serve {} p r).1.map (relabel (later b.temps)),
      ⟨b.temps + (Builder.serve {} p r).2.temps⟩) := by
  have hbuild : ∀ f, b.build p f = ((Builder.build {} p f).1.map (relabel (later b.temps)),
      ⟨b.temps + (Builder.build {} p f).2.temps⟩) := by
    intro f
    have hlater := build_later b.temps {} p f
    rw [Nat.zero_add, Nat.add_comm _ b.temps] at hlater
    exact hlater
  cases r with
  | function f => exact hbuild f
  | named name =>
      cases hfound : p.function? name with
      | none =>
          simp only [Builder.serve, Builder.buildNamed, hfound]
          rfl
      | some f =>
          simp only [Builder.serve, Builder.buildNamed, hfound]
          exact hbuild f

/-- Code that is answered has temporaries of its own. -/
theorem among_of_serve {r : Request} {code : List Inst} (h : b.serve p r = (.ok code, b')) :
    OverAll (Var.Among (List.Ico b.temps b'.temps)) code := by
  cases r with
  | function f => exact among_of_build h
  | named name =>
      change b.buildNamed p name = _ at h
      unfold Builder.buildNamed at h
      cases hfound : p.function? name with
      | none => rw [hfound] at h; cases h
      | some f =>
          rw [hfound] at h
          exact among_of_build h

/-- Two answers mention no temporary in common, if both are code. -/
def Apart (x y : Except Refusal (List Inst)) : Prop :=
  ∀ code code', x = .ok code → y = .ok code' →
    ∀ number, OverAll (· ≠ .temp number) code ∨ OverAll (· ≠ .temp number) code'

/-- Answers have temporaries from where the builder stands only. -/
theorem taken_of_answers {p : Program} {requests : List Request} :
    ∀ {b : Builder} {code : List Inst}, .ok code ∈ b.answers p requests →
      ∀ {number : Nat}, number < b.temps → OverAll (· ≠ .temp number) code := by
  induction requests with
  | nil => exact fun h => by cases h
  | cons r requests ih =>
      intro b code h number hnumber
      rcases List.mem_cons.mp h with hfirst | hrest
      · have hcode := among_of_serve (Prod.ext hfirst.symm rfl)
        refine hcode.mono fun {x} hx heq => ?_
        subst heq
        exact absurd hnumber (Nat.not_lt.mpr (List.Ico.mem.mp hx).1)
      · refine ih hrest (Nat.lt_of_lt_of_le hnumber ?_)
        rw [serve_later b p r]
        exact Nat.le_add_right _ _

/-- The answers of one builder are apart. -/
theorem pairwise_answers (p : Program) (requests : List Request) :
    ∀ b : Builder, (b.answers p requests).Pairwise Apart := by
  induction requests with
  | nil => exact fun b => .nil
  | cons r requests ih =>
      intro b
      refine .cons ?_ (ih _)
      rintro _ hlater code code' hcode rfl number
      have hrange := among_of_serve (Prod.ext hcode rfl)
      rcases Nat.lt_or_ge number (b.serve p r).2.temps with hlt | hge
      · exact .inr (taken_of_answers hlater hlt)
      · refine .inl (hrange.mono fun {x} hx heq => ?_)
        subst heq
        exact absurd (List.Ico.mem.mp hx).2 (Nat.not_lt.mpr hge)

end ExprGraph.SSA
