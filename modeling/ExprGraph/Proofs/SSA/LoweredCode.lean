/-
The shape of lowered code.

`Lowered p id lo hi code value` says which code a node has: the code of
its operands in the order of their evaluation, and behind it an
instruction of its own. The temporaries it takes are those from `lo` up to
`hi`, and `value` is what holds its value afterwards. Nothing here knows of
the state of lowering, nor of the levels it may go down: what lowering
emits for a node stands in this relation to it (`lowered_of_lower`), and
what holds of lowered code is proved by induction on the relation.

The relation is a little wider than lowering. It lets an operand be pinned
that no one writes, and a temporary be copied; neither does any harm, and
only what would do harm is kept out: an operand left unpinned that is
written in front of its use (`Operand.keptBy`).
-/
import ExprGraph.SSA.Worklist

namespace ExprGraph.SSA

-- ============================================================ the relation

/-- Whether a read behind the code sees what a read in front of it does,
as far as source variables go. -/
def Operand.keptBy (code : List Inst) : Operand → Bool
  | .var (.user name _) => !writesAny name code
  | _ => true

/-- The end of an arm that has a value: `code` becomes `code'`, behind which
the value is in the temporary `temp`. -/
inductive Sealed (code : List Inst) (next : Nat) :
    Operand → Nat → List Inst → Nat → Prop where
  | kept (temp : Nat) : Sealed code next (.var (.temp temp)) temp code next
  | copied (value : Operand) :
      Sealed code next value next (code ++ [.assign (.temp next) (.copy value)]) (next + 1)

/-- The variable in which the arms of a choice meet: a new temporary, or
the variable the choice is assigned to. -/
inductive Meets (p : Program) (cond thenArm elseArm : ExprId) (next : Nat) :
    ExprId → Var → Nat → Prop where
  | fresh {id : ExprId} :
      p.expr? id = some (.ternary cond thenArm elseArm) →
      Meets p cond thenArm elseArm next id (.temp next) (next + 1)
  | into {id value : ExprId} {var : VarId} {s : Symbol} :
      p.expr? id = some (.assign (.scalar var) value) →
      p.expr? value = some (.ternary cond thenArm elseArm) →
      p.symbols.get? var = some s →
      Meets p cond thenArm elseArm next id (.user s.name none) next

/-- The code of a node, the temporaries it takes and the operand that holds
its value, if it has one. -/
inductive Lowered (p : Program) :
    ExprId → Nat → Nat → List Inst → Option Operand → Prop where
  | number {id : ExprId} {lo : Nat} {value : Float} :
      p.expr? id = some (.number value) →
      Lowered p id lo lo [] (some (.const value))
  | var {id : ExprId} {lo : Nat} {var : VarId} {s : Symbol} :
      p.expr? id = some (.var var) →
      p.symbols.get? var = some s →
      Lowered p id lo lo [] (some (.var (.user s.name none)))
  | empty {id : ExprId} {lo : Nat} :
      p.expr? id = some .empty →
      Lowered p id lo lo [] none
  | unary {id operand : ExprId} {lo hi : Nat} {op : UnaryOp} {code : List Inst} {o : Operand} :
      p.expr? id = some (.unary op operand) →
      Lowered p operand lo hi code (some o) →
      Lowered p id lo (hi + 1) (code ++ [.assign (.temp hi) (.unary op o)])
        (some (.var (.temp hi)))
  | binary {id left right : ExprId} {lo mid hi : Nat} {op : BinaryOp} {front behind : List Inst}
      {l r : Operand} :
      p.expr? id = some (.binary op left right) →
      Lowered p right lo mid front (some r) →
      Lowered p left mid hi behind (some l) →
      r.keptBy behind = true →
      Lowered p id lo (hi + 1) (front ++ (behind ++ [.assign (.temp hi) (.binary op l r)]))
        (some (.var (.temp hi)))
  | pinned {id left right : ExprId} {lo mid hi : Nat} {op : BinaryOp} {front behind : List Inst}
      {l r : Operand} :
      p.expr? id = some (.binary op left right) →
      Lowered p right lo mid front (some r) →
      Lowered p left mid hi behind (some l) →
      Lowered p id lo (hi + 2)
        (front ++ .assign (.temp hi) (.copy r) ::
          (behind ++ [.assign (.temp (hi + 1)) (.binary op l (.var (.temp hi)))]))
        (some (.var (.temp (hi + 1))))
  | assign {id value : ExprId} {lo hi : Nat} {var : VarId} {s : Symbol} {code : List Inst}
      {o : Operand} :
      p.expr? id = some (.assign (.scalar var) value) →
      p.symbols.get? var = some s →
      Lowered p value lo hi code (some o) →
      Lowered p id lo hi (code ++ [.assign (.user s.name none) (.copy o)])
        (some (.var (.user s.name none)))
  | stepped {id : ExprId} {lo : Nat} {op : StepOp} {var : VarId} {s : Symbol} :
      p.expr? id = some (.step op (.scalar var)) →
      p.symbols.get? var = some s →
      op.yieldsOld = false →
      Lowered p id lo lo
        [.assign (.user s.name none) (.binary op.binary (.var (.user s.name none)) (.const 1.0))]
        (some (.var (.user s.name none)))
  | kept {id : ExprId} {lo : Nat} {op : StepOp} {var : VarId} {s : Symbol} :
      p.expr? id = some (.step op (.scalar var)) →
      p.symbols.get? var = some s →
      op.yieldsOld = true →
      Lowered p id lo (lo + 1)
        [.assign (.temp lo) (.copy (.var (.user s.name none))),
          .assign (.user s.name none) (.binary op.binary (.var (.user s.name none)) (.const 1.0))]
        (some (.var (.temp lo)))
  | choice {id cond thenArm elseArm : ExprId} {lo mid mid₁ mid₂ mid₃ hi hi' temp₁ temp₂ : Nat}
      {code then' else' then'' else'' : List Inst} {c o₁ o₂ : Operand} {dest : Var} :
      Lowered p cond lo mid code (some c) →
      Lowered p thenArm mid mid₁ then' (some o₁) →
      Sealed then' mid₁ o₁ temp₁ then'' mid₂ →
      Lowered p elseArm mid₂ mid₃ else' (some o₂) →
      Sealed else' mid₃ o₂ temp₂ else'' hi →
      Meets p cond thenArm elseArm hi id dest hi' →
      Lowered p id lo hi'
        (code ++ [.branch c then'' else'', .phi dest [.temp temp₁, .temp temp₂]])
        (some (.var dest))
  | branch {id cond thenArm elseArm : ExprId} {lo mid mid' hi : Nat}
      {code then' else' : List Inst} {c : Operand} {value value' : Option Operand} :
      p.expr? id = some (.branch cond thenArm elseArm) →
      Lowered p cond lo mid code (some c) →
      Lowered p thenArm mid mid' then' value →
      Lowered p elseArm mid' hi else' value' →
      Lowered p id lo hi (code ++ [.branch c then' else']) none
  | seq {id first second : ExprId} {lo mid hi : Nat} {front behind : List Inst}
      {value value' : Option Operand} :
      p.expr? id = some (.seq first second) →
      Lowered p first lo mid front value →
      Lowered p second mid hi behind value' →
      Lowered p id lo hi (front ++ behind) value'

-- ============================================================ emitted code

namespace Code

variable {c : Code} {front behind : List Inst}

/-- Code is emitted at the end. -/
theorem insts_push (c : Code) (i : Inst) : (c.push i).insts = c.insts ++ [i] :=
  List.reverse_cons

theorem size_eq_length (c : Code) : c.size = c.insts.length :=
  c.size_eq.trans List.length_reverse.symm

/-- The list is kept backwards, so a place is counted from the end of it. -/
theorem backwards_of_insts (h : c.insts = front ++ behind) :
    c.backwards = behind.reverse ++ front.reverse ∧ c.size - front.length = behind.reverse.length
    := by
  have hback : c.backwards = (front ++ behind).reverse := by
    rw [← h]
    exact (List.reverse_reverse _).symm
  refine ⟨hback.trans List.reverse_append, ?_⟩
  rw [c.size_eq_length, h, List.length_append, List.length_reverse]
  omega

/-- A copy is inserted at a place that was noted. -/
theorem insts_insertTemp (h : c.insts = front ++ behind) (number : Nat) (value : Rhs) :
    (c.insertTemp front.length number value).insts =
      front ++ .assign (.temp number) value :: behind := by
  obtain ⟨hback, hcount⟩ := backwards_of_insts h
  unfold insts insertTemp
  dsimp only
  rw [hcount, hback, List.take_left, List.drop_left, List.reverse_append, List.reverse_cons,
    List.reverse_reverse, List.reverse_reverse, List.append_assoc, List.singleton_append]

end Code

/-- Whether code writes a name does not depend on its order. -/
theorem writesAny_reverse (name : String) (code : List Inst) :
    writesAny name code.reverse = writesAny name code := by
  induction code with
  | nil => rfl
  | cons i rest ih =>
      rw [List.reverse_cons, writesAny_append, ih, writesAny, writesAny, writesAny,
        Bool.or_false, Bool.or_comm]

/-- What was written since a place is what the code behind it writes. -/
theorem Code.writesSince_of_insts {c : Code} {front behind : List Inst}
    (h : c.insts = front ++ behind) (name : String) :
    c.writesSince front.length name = writesAny name behind := by
  obtain ⟨hback, hcount⟩ := backwards_of_insts h
  rw [c.writesSince_eq, hcount, hback, List.take_left, writesAny_reverse]

-- ================================================================ the moves

namespace Emission

variable {p : Program} {id : ExprId} {e e' : Emission}

/-- What lowering a node did to its state. -/
def Lowers (p : Program) (id : ExprId) (e e' : Emission) : Prop :=
  ∃ code, e'.code.insts = e.code.insts ++ code ∧ Lowered p id e.temps e'.temps code e'.value

/-- A node in the place of an operand left a value. -/
theorem operand_eq_ok {o : Operand} (h : e.operand id = .ok o) : e.value = some o := by
  unfold operand at h
  cases hvalue : e.value with
  | none => rw [hvalue] at h; cases h
  | some value => rw [hvalue] at h; cases h; rfl

/-- A scalar is a declared variable, under its name and without a
version. -/
theorem scalar_eq_ok {var : VarId} {x : Var} (h : e.scalar p id var = .ok x) :
    ∃ s, p.symbols.get? var = some s ∧ x = .user s.name none := by
  unfold scalar at h
  cases hget : p.symbols.get? var with
  | none => rw [hget] at h; cases h
  | some s =>
      rw [hget] at h
      dsimp only at h
      split at h
      · cases h
      · cases h
        exact ⟨s, rfl, rfl⟩

/-- The code of a node with one operand. -/
theorem lowers_unary {op : UnaryOp} {operand : ExprId} {e₁ : Emission}
    (hnode : p.expr? id = some (.unary op operand)) (h : Lowers p operand e e₁)
    (hdo : e₁.unary op operand = .ok e') : Lowers p id e e' := by
  obtain ⟨o, ho, hlast⟩ := bind_eq_ok.mp hdo
  cases hlast
  obtain ⟨code, hcode, hlowered⟩ := h
  rw [operand_eq_ok ho] at hlowered
  refine ⟨_, ?_, .unary hnode hlowered⟩
  show (e₁.code.push _).insts = _
  rw [Code.insts_push, hcode, List.append_assoc]

/-- The mark is the end of the right operand's code. -/
theorem lowers_binary {op : BinaryOp} {left right : ExprId} {e₁ e₂ : Emission} {r : Operand}
    (hnode : p.expr? id = some (.binary op left right)) (hright : Lowers p right e e₁)
    (hr : e₁.value = some r) (hleft : Lowers p left e₁ e₂)
    (hdo : e₂.binary op left r e₁.code.size = .ok e') : Lowers p id e e' := by
  obtain ⟨l, hl, hlast⟩ := bind_eq_ok.mp hdo
  obtain ⟨front, hfront, hfirst⟩ := hright
  obtain ⟨behind, hbehind, hsecond⟩ := hleft
  rw [hr] at hfirst
  rw [operand_eq_ok hl] at hsecond
  rw [Code.size_eq_length] at hlast
  -- an operand that is kept leaves the code as it is
  have hkept : r.keptBy behind = true → e₂.pin e₁.code.insts.length r = (r, e₂) →
      Lowers p id e e' := by
    intro hkeeps hpin
    rw [hpin] at hlast
    cases hlast
    refine ⟨_, ?_, .binary hnode hfirst hsecond hkeeps⟩
    show (e₂.code.push _).insts = _
    rw [Code.insts_push, hbehind, hfront, List.append_assoc, List.append_assoc]
  rcases r with value | x
  · exact hkept rfl rfl
  rcases x with number | ⟨name, version⟩
  · exact hkept rfl rfl
  have hwrites := Code.writesSince_of_insts hbehind name
  cases hany : writesAny name behind with
  | false =>
      rw [hany] at hwrites
      refine hkept ?_ (if_neg (by rw [hwrites]; exact Bool.false_ne_true))
      rw [Operand.keptBy, hany]
      rfl
  | true =>
      rw [hany] at hwrites
      simp only [pin, if_pos hwrites] at hlast
      cases hlast
      refine ⟨_, ?_, .pinned hnode hfirst hsecond⟩
      show ((e₂.code.insertTemp e₁.code.insts.length _ _).push _).insts = _
      rw [Code.insts_push, Code.insts_insertTemp hbehind, hfront, List.append_assoc,
        List.append_assoc, List.cons_append]

/-- The code of an assignment that is no choice. -/
theorem lowers_copy {value : ExprId} {var : VarId} {s : Symbol} {e₁ : Emission}
    (hnode : p.expr? id = some (.assign (.scalar var) value))
    (hvar : p.symbols.get? var = some s) (h : Lowers p value e e₁)
    (hdo : e₁.copy value (.user s.name none) = .ok e') : Lowers p id e e' := by
  obtain ⟨o, ho, hlast⟩ := bind_eq_ok.mp hdo
  cases hlast
  obtain ⟨code, hcode, hlowered⟩ := h
  rw [operand_eq_ok ho] at hlowered
  refine ⟨_, ?_, .assign hnode hvar hlowered⟩
  show (e₁.code.push _).insts = _
  rw [Code.insts_push, hcode, List.append_assoc]

/-- The code of an increment. -/
theorem lowers_step {op : StepOp} {var : VarId} {s : Symbol}
    (hnode : p.expr? id = some (.step op (.scalar var))) (hvar : p.symbols.get? var = some s) :
    Lowers p id e (e.step op (.user s.name none)) := by
  unfold step
  cases hold : op.yieldsOld with
  | false =>
      refine ⟨_, ?_, .stepped hnode hvar hold⟩
      show (e.code.push _).insts = _
      rw [Code.insts_push]
  | true =>
      refine ⟨_, ?_, .kept hnode hvar hold⟩
      show ((e.code.push _).push _).insts = _
      rw [Code.insts_push, Code.insts_push, List.append_assoc]
      rfl

-- ================================================================= choices

/-- Closing an arm that has to have a value seals it. -/
theorem sealed_of_closeArm {merge : Merge} {arm : Arm} (hmerge : merge ≠ .drop)
    (h : e.closeArm merge id = .ok (arm, e')) :
    ∃ o temp, e.value = some o ∧ arm.value = some (.temp temp)
      ∧ Sealed e.code.insts e.temps o temp arm.code.insts e'.temps := by
  -- where the value is merged to makes no difference to the arm
  have hclose : e.closeArm .fresh id = .ok (arm, e') := by
    cases merge with
    | drop => exact absurd rfl hmerge
    | into dest => exact h
    | fresh => exact h
  obtain ⟨o, ho, hlast⟩ := bind_eq_ok.mp hclose
  refine ⟨o, ?_⟩
  rw [operand_eq_ok ho]
  rcases o with value | x
  · cases hlast
    exact ⟨_, rfl, rfl, (Code.insts_push _ _).symm ▸ .copied _⟩
  rcases x with number | ⟨name, version⟩
  · cases hlast
    exact ⟨_, rfl, rfl, .kept number⟩
  · cases hlast
    exact ⟨_, rfl, rfl, (Code.insts_push _ _).symm ▸ .copied _⟩

/-- An arm is a block of its own, so its code is all there is. -/
theorem lowered_of_openArm {e₀ : Emission} (h : Lowers p id e₀.openArm e) :
    Lowered p id e₀.temps e.temps e.code.insts e.value := by
  obtain ⟨code, hcode, hlowered⟩ := h
  rw [hcode]
  exact hlowered

variable {lower : ExprId → Emission → Except Stop Emission} {cond thenArm elseArm : ExprId}

/-- The stations of lowering a choice: the condition, each arm opened and
closed, and the branch put together. -/
theorem lowerChoice_eq_ok {merge : Merge}
    (h : lowerChoice lower merge cond thenArm elseArm e = .ok e') :
    ∃ e₁ c e₂ arm₁ e₃ e₄ arm₂ e₅,
      lower cond e = .ok e₁ ∧ e₁.operand cond = .ok c
      ∧ lower thenArm e₁.openArm = .ok e₂ ∧ e₂.closeArm merge thenArm = .ok (arm₁, e₃)
      ∧ lower elseArm e₃.openArm = .ok e₄ ∧ e₄.closeArm merge elseArm = .ok (arm₂, e₅)
      ∧ e' = e₅.branch merge e₁.code c arm₁ arm₂ := by
  obtain ⟨e₁, hcond, h⟩ := bind_eq_ok.mp h
  obtain ⟨c, hc, h⟩ := bind_eq_ok.mp h
  obtain ⟨e₂, hthen, h⟩ := bind_eq_ok.mp h
  obtain ⟨⟨arm₁, e₃⟩, hclose₁, h⟩ := bind_eq_ok.mp h
  obtain ⟨e₄, helse, h⟩ := bind_eq_ok.mp h
  obtain ⟨⟨arm₂, e₅⟩, hclose₂, h⟩ := bind_eq_ok.mp h
  cases h
  exact ⟨e₁, c, e₂, arm₁, e₃, e₄, arm₂, e₅, hcond, hc, hthen, hclose₁, helse, hclose₂, rfl⟩

/-- A choice whose arms meet. -/
theorem lowers_choice {merge : Merge} (hmerge : merge ≠ .drop)
    (hlower : ∀ {id e e'}, lower id e = .ok e' → Lowers p id e e')
    (hmeets : ∀ (e : Emission) (dest : Var), (e.mergeTarget merge).1 = some dest →
      Meets p cond thenArm elseArm e.temps id dest (e.mergeTarget merge).2.temps)
    (h : lowerChoice lower merge cond thenArm elseArm e = .ok e') : Lowers p id e e' := by
  obtain ⟨e₁, c, e₂, arm₁, e₃, e₄, arm₂, e₅, hcond, hc, hthen, hclose₁, helse, hclose₂, rfl⟩ :=
    lowerChoice_eq_ok h
  obtain ⟨code, hcode, hfirst⟩ := hlower hcond
  rw [operand_eq_ok hc] at hfirst
  have hsecond := lowered_of_openArm (hlower hthen)
  have hthird := lowered_of_openArm (hlower helse)
  obtain ⟨o₁, temp₁, ho₁, harm₁, hsealed₁⟩ := sealed_of_closeArm hmerge hclose₁
  obtain ⟨o₂, temp₂, ho₂, harm₂, hsealed₂⟩ := sealed_of_closeArm hmerge hclose₂
  rw [ho₁] at hsecond
  rw [ho₂] at hthird
  cases merge with
  | drop => exact absurd rfl hmerge
  | into dest =>
      refine ⟨_, ?_, .choice hfirst hsecond hsealed₁ hthird hsealed₂ (hmeets e₅ dest rfl)⟩
      show ((e₁.code.push _).push _).insts = _
      rw [Code.insts_push, Code.insts_push, hcode, harm₁, harm₂, List.append_assoc,
        List.append_assoc]
      rfl
  | fresh =>
      refine ⟨_, ?_, .choice hfirst hsecond hsealed₁ hthird hsealed₂ (hmeets e₅ _ rfl)⟩
      show ((e₁.code.push _).push _).insts = _
      rw [Code.insts_push, Code.insts_push, hcode, harm₁, harm₂, List.append_assoc,
        List.append_assoc]
      rfl

/-- The code of a branch, whose arms drop their values. -/
theorem lowers_branch (hnode : p.expr? id = some (.branch cond thenArm elseArm))
    (hlower : ∀ {id e e'}, lower id e = .ok e' → Lowers p id e e')
    (h : lowerChoice lower .drop cond thenArm elseArm e = .ok e') : Lowers p id e e' := by
  obtain ⟨e₁, c, e₂, arm₁, e₃, e₄, arm₂, e₅, hcond, hc, hthen, hclose₁, helse, hclose₂, rfl⟩ :=
    lowerChoice_eq_ok h
  cases hclose₁
  cases hclose₂
  obtain ⟨code, hcode, hfirst⟩ := hlower hcond
  rw [operand_eq_ok hc] at hfirst
  have hsecond := lowered_of_openArm (hlower hthen)
  have hthird := lowered_of_openArm (hlower helse)
  refine ⟨_, ?_, .branch hnode hfirst hsecond hthird⟩
  show (e₁.code.push _).insts = _
  rw [Code.insts_push, hcode, List.append_assoc]

/-- The code of an assignment, whose value may be a choice that is made into
the target. -/
theorem lowers_into {value : ExprId} {var : VarId} {s : Symbol}
    (hnode : p.expr? id = some (.assign (.scalar var) value))
    (hvar : p.symbols.get? var = some s)
    (hlower : ∀ {id e e'}, lower id e = .ok e' → Lowers p id e e')
    (h : lowerInto p lower value (.user s.name none) e = .ok e') : Lowers p id e e' := by
  have hcopy : (do (← lower value e).copy value (.user s.name none)) = .ok e' →
      Lowers p id e e' := by
    intro hdo
    obtain ⟨e₁, hfirst, hlast⟩ := bind_eq_ok.mp hdo
    exact lowers_copy hnode hvar (hlower hfirst) hlast
  unfold lowerInto at h
  cases hvalue : p.expr? value with
  | none => rw [hvalue] at h; exact hcopy h
  | some node =>
      rw [hvalue] at h
      cases node with
      | ternary cond thenArm elseArm =>
          refine lowers_choice (by nofun) hlower ?_ h
          intro e₁ dest hdest
          cases hdest
          exact .into hnode hvalue hvar
      | _ => exact hcopy h

end Emission

-- ============================================================ every node

open Emission

/-- What lowering emits for a node is code of the node. -/
theorem lowered_of_lower {p : Program} (depth : Nat) :
    ∀ {id e e'}, lower p depth id e = .ok e' → Lowers p id e e' := by
  induction depth with
  | zero => intro id e e' h; cases h
  | succ depth ih =>
      intro id e e' h
      rw [lower] at h
      cases hnode : p.expr? id with
      | none => rw [hnode] at h; cases h
      | some node =>
          rw [hnode] at h
          cases node with
          | number value => cases h; exact ⟨[], (List.append_nil _).symm, .number hnode⟩
          | var var =>
              obtain ⟨x, hx, hlast⟩ := bind_eq_ok.mp h
              cases hlast
              obtain ⟨s, hvar, rfl⟩ := scalar_eq_ok hx
              exact ⟨[], (List.append_nil _).symm, .var hnode hvar⟩
          | empty => cases h; exact ⟨[], (List.append_nil _).symm, .empty hnode⟩
          | unary op operand =>
              obtain ⟨e₁, hfirst, hlast⟩ := bind_eq_ok.mp h
              exact lowers_unary hnode (ih hfirst) hlast
          | binary op left right =>
              obtain ⟨e₁, hright, h⟩ := bind_eq_ok.mp h
              obtain ⟨r, hr, h⟩ := bind_eq_ok.mp h
              obtain ⟨e₂, hleft, hlast⟩ := bind_eq_ok.mp h
              exact lowers_binary hnode (ih hright) (operand_eq_ok hr) (ih hleft) hlast
          | assign target value =>
              cases target with
              | element array index => cases h
              | scalar var =>
                  obtain ⟨x, hx, hlast⟩ := bind_eq_ok.mp h
                  obtain ⟨s, hvar, rfl⟩ := scalar_eq_ok hx
                  exact lowers_into hnode hvar ih hlast
          | step op target =>
              cases target with
              | element array index => cases h
              | scalar var =>
                  obtain ⟨x, hx, hlast⟩ := bind_eq_ok.mp h
                  cases hlast
                  obtain ⟨s, hvar, rfl⟩ := scalar_eq_ok hx
                  exact lowers_step hnode hvar
          | ternary cond thenArm elseArm =>
              refine lowers_choice (fun hdrop => by cases hdrop) ih ?_ h
              intro e₁ dest hdest
              cases hdest
              exact .fresh hnode
          | branch cond thenArm elseArm => exact lowers_branch hnode ih h
          | seq first second =>
              obtain ⟨e₁, hfirst, hlast⟩ := bind_eq_ok.mp h
              obtain ⟨front, hfront, hlowered⟩ := ih hfirst
              obtain ⟨behind, hbehind, hlowered'⟩ := ih hlast
              refine ⟨_, ?_, .seq hnode hlowered hlowered'⟩
              rw [hbehind, hfront, List.append_assoc]
          | index array index => cases h
          | loop cond body => cases h
          | call callee args => cases h

/-- The code a function's body is lowered to. -/
theorem lowered_of_lowerBody {p : Program} {id : ExprId} {temps : Nat} {e : Emission}
    (h : lowerBody p id ⟨.empty, none, temps⟩ = .ok e) :
    Lowered p id temps e.temps e.code.insts e.value := by
  rw [lowerBody_eq_lower] at h
  obtain ⟨code, hcode, hlowered⟩ := lowered_of_lower _ h
  rw [hcode]
  exact hlowered

end ExprGraph.SSA
