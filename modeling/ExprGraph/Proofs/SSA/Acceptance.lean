/-
Which functions have an SSA form.

A node may be asked for a value or may stand as a statement (`Role`), and
whether it can is a matter of its kind and of the roles its parts have in
it: a grammar of two sorts (`Supported`). A function without a cycle has
an SSA form iff its parameters are declared scalars and its body is a
statement of the grammar. If it is not, the refusal names a node that
cannot stand where it occurs (`build_accepts`).

# The argument

What lowering a node comes to is judged in one way whatever the node
(`Verdict`): if it succeeds the node is a statement of the grammar, and it
leaves a value iff it is a value of it; if it is refused, some node below
is a misfit in the role that it has there. Each move that follows on a
child passes the verdict on: a refusal in a part is a refusal in the whole
(`Refuses.part`), and to ask for a value that is not there makes the child
itself the misfit.

Lowering a node does not depend on the role it is asked for, so a refusal
is one in either role.
-/
import ExprGraph.Proofs.Paths
import ExprGraph.SSA.Build

namespace ExprGraph

-- =================================================================== grammar

namespace SSA

/-- What a node is there for. -/
inductive Role where
  | value
  | statement
deriving DecidableEq, Repr

end SSA

open SSA

/-- The parts of a node that lowering goes down to, in the roles they have
if the node is in the given one. -/
def Expr.roles (role : Role) : Expr → List (Role × ExprId)
  | .unary _ operand => [(.value, operand)]
  | .binary _ left right => [(.value, left), (.value, right)]
  | .assign (.scalar _) value => [(.value, value)]
  | .ternary cond thenArm elseArm => [(.value, cond), (.value, thenArm), (.value, elseArm)]
  | .branch cond thenArm elseArm =>
    [(.value, cond), (.statement, thenArm), (.statement, elseArm)]
  | .seq first second => [(.statement, first), (role, second)]
  | .number _ | .var _ | .empty | .step .. | .assign (.element ..) _ | .index .. | .loop ..
  | .call .. => []

/-- The scalar that a node reads or writes itself. -/
def Expr.scalar? : Expr → Option VarId
  | .var v => some v
  | .assign (.scalar v) _ => some v
  | .step _ (.scalar v) => some v
  | _ => none

/-- Loops, calls and what is done to elements of arrays. -/
def Expr.foreign : Expr → Bool
  | .loop .. | .call .. | .index .. | .assign (.element ..) _ | .step _ (.element ..) => true
  | _ => false

namespace SSA

variable (p : Program)

/-- A declared variable of at most one element. -/
def IsScalar (var : VarId) : Prop :=
  ∃ s, p.symbols.get? var = some s ∧ s.size ≤ 1

/-- The grammar: which nodes have a value, and which are statements. -/
inductive Supported : Role → ExprId → Prop where
  | number {id : ExprId} {value : Float} :
      p.expr? id = some (.number value) → Supported .value id
  | var {id : ExprId} {var : VarId} :
      p.expr? id = some (.var var) → IsScalar p var → Supported .value id
  | unary {id operand : ExprId} {op : UnaryOp} :
      p.expr? id = some (.unary op operand) → Supported .value operand → Supported .value id
  | binary {id left right : ExprId} {op : BinaryOp} :
      p.expr? id = some (.binary op left right) → Supported .value left →
      Supported .value right → Supported .value id
  | assign {id value : ExprId} {var : VarId} :
      p.expr? id = some (.assign (.scalar var) value) → IsScalar p var →
      Supported .value value → Supported .value id
  | step {id : ExprId} {op : StepOp} {var : VarId} :
      p.expr? id = some (.step op (.scalar var)) → IsScalar p var → Supported .value id
  | ternary {id cond thenArm elseArm : ExprId} :
      p.expr? id = some (.ternary cond thenArm elseArm) → Supported .value cond →
      Supported .value thenArm → Supported .value elseArm → Supported .value id
  | seq {id first second : ExprId} {role : Role} :
      p.expr? id = some (.seq first second) → Supported .statement first →
      Supported role second → Supported role id
  | empty {id : ExprId} :
      p.expr? id = some .empty → Supported .statement id
  | branch {id cond thenArm elseArm : ExprId} :
      p.expr? id = some (.branch cond thenArm elseArm) → Supported .value cond →
      Supported .statement thenArm → Supported .statement elseArm → Supported .statement id
  | statement {id : ExprId} : Supported .value id → Supported .statement id

/-- A node occurs below another, or is it, in the role that the parts on the
way down give it. -/
inductive Occurs (role : Role) (id : ExprId) : Role → ExprId → Prop where
  | refl : Occurs role id role id
  | part {node : Expr} {above below : Role} {high low : ExprId} :
      Occurs role id above high → p.expr? high = some node → (below, low) ∈ node.roles above →
      Occurs role id below low

/-- A node cannot stand in a role, through no fault of its parts, for this
reason. -/
inductive Misfit : Role → ExprId → Obstacle → Prop where
  /-- There is no such node. -/
  | dangling {role : Role} {id : ExprId} :
      p.expr? id = none → Misfit role id (.malformed .dangling)
  /-- A loop, a call or something done to an array has no code. -/
  | foreign {role : Role} {id : ExprId} {node : Expr} :
      p.expr? id = some node → node.foreign = true →
      Misfit role id (.unsupported node.describe)
  /-- The variable was not declared. -/
  | undeclared {role : Role} {id : ExprId} {node : Expr} {var : VarId} :
      p.expr? id = some node → node.scalar? = some var → p.symbols.get? var = none →
      Misfit role id (.unknownVariable var)
  /-- The variable is an array. -/
  | array {role : Role} {id : ExprId} {node : Expr} {var : VarId} {s : Symbol} :
      p.expr? id = some node → node.scalar? = some var → p.symbols.get? var = some s →
      1 < s.size → Misfit role id (.unsupported "array variable")
  /-- A statement stands where a value is needed. -/
  | noValue {id : ExprId} :
      Supported p .statement id → ¬Supported p .value id →
      Misfit .value id (.malformed .noValue)

variable {p}

-- ================================================================= inversion

variable (p) in
/-- Whether a node can have a role, if its parts have theirs. -/
def Suits (role : Role) : Expr → Prop
  | .number _ | .unary .. | .binary .. | .ternary .. | .seq .. => True
  | .var var => IsScalar p var
  | .assign (.scalar var) _ => IsScalar p var
  | .step _ (.scalar var) => IsScalar p var
  | .empty | .branch .. => role = .statement
  | .index .. | .loop .. | .call .. | .assign (.element ..) _ | .step _ (.element ..) => False

variable {role below : Role} {id low child : ExprId} {node : Expr} {obstacle : Obstacle}

/-- What can be a value can be anything. -/
theorem Supported.of_value (h : Supported p .value id) : ∀ role, Supported p role id
  | .value => h
  | .statement => .statement h

/-- A node that suits as a value suits as a statement. -/
theorem Suits.statement (h : Suits p .value node) : Suits p .statement node := by
  cases node with
  | empty => cases h
  | branch cond thenArm elseArm => cases h
  | assign target value => cases target <;> exact h
  | step op target => cases target <;> exact h
  | _ => exact h

/-- The variable of a node that suits is a scalar. -/
theorem Suits.isScalar {var : VarId} (h : Suits p role node) (hvar : node.scalar? = some var) :
    IsScalar p var := by
  cases node with
  | var => cases hvar; exact h
  | assign target value => cases target <;> cases hvar; exact h
  | step op target => cases target <;> cases hvar; exact h
  | _ => cases hvar

theorem Suits.not_foreign (h : Suits p role node) : node.foreign = false := by
  cases node with
  | assign target value =>
      cases target with
      | scalar var => rfl
      | element array index => cases h
  | step op target =>
      cases target with
      | scalar var => rfl
      | element array index => cases h
  | index | loop | call => cases h
  | _ => rfl

/-- What has a value has the parts of a statement. -/
theorem roles_statement (h : ∀ part ∈ node.roles .value, Supported p part.1 part.2) :
    ∀ part ∈ node.roles .statement, Supported p part.1 part.2 := by
  cases node with
  | seq first second =>
      obtain ⟨hfirst, hsecond⟩ := List.forall_mem_cons.mp h
      rw [List.forall_mem_singleton] at hsecond
      exact List.forall_mem_cons.mpr ⟨hfirst, List.forall_mem_singleton.mpr (.statement hsecond)⟩
  | assign target value => cases target <;> exact h
  | _ => exact h

/-- What is supported exists. -/
theorem Supported.exists_node (h : Supported p role id) : ∃ node, p.expr? id = some node := by
  induction h with
  | statement _ ih => exact ih
  | number hnode | var hnode | unary hnode | binary hnode | assign hnode | step hnode
  | ternary hnode | seq hnode | empty hnode | branch hnode => exact ⟨_, hnode⟩

/-- A node that is supported suits, and its parts are supported in their
roles. -/
theorem Supported.suits (h : Supported p role id) (hnode : p.expr? id = some node) :
    Suits p role node ∧ ∀ part ∈ node.roles role, Supported p part.1 part.2 := by
  induction h with
  | statement _ ih =>
      obtain ⟨hsuits, hparts⟩ := ih hnode
      exact ⟨hsuits.statement, roles_statement hparts⟩
  | number hnode' => cases hnode.symm.trans hnode'; exact ⟨trivial, nofun⟩
  | var hnode' hvar => cases hnode.symm.trans hnode'; exact ⟨hvar, nofun⟩
  | unary hnode' h =>
      cases hnode.symm.trans hnode'
      exact ⟨trivial, List.forall_mem_singleton.mpr h⟩
  | binary hnode' hl hr =>
      cases hnode.symm.trans hnode'
      exact ⟨trivial, List.forall_mem_cons.mpr ⟨hl, List.forall_mem_singleton.mpr hr⟩⟩
  | assign hnode' hvar h =>
      cases hnode.symm.trans hnode'
      exact ⟨hvar, List.forall_mem_singleton.mpr h⟩
  | step hnode' hvar => cases hnode.symm.trans hnode'; exact ⟨hvar, nofun⟩
  | ternary hnode' hc ht he =>
      cases hnode.symm.trans hnode'
      exact ⟨trivial, List.forall_mem_cons.mpr
        ⟨hc, List.forall_mem_cons.mpr ⟨ht, List.forall_mem_singleton.mpr he⟩⟩⟩
  | seq hnode' h h' =>
      cases hnode.symm.trans hnode'
      exact ⟨trivial, List.forall_mem_cons.mpr ⟨h, List.forall_mem_singleton.mpr h'⟩⟩
  | empty hnode' => cases hnode.symm.trans hnode'; exact ⟨rfl, nofun⟩
  | branch hnode' hc ht he =>
      cases hnode.symm.trans hnode'
      exact ⟨rfl, List.forall_mem_cons.mpr
        ⟨hc, List.forall_mem_cons.mpr ⟨ht, List.forall_mem_singleton.mpr he⟩⟩⟩

/-- And the other way round. -/
theorem supported_of_suits (hnode : p.expr? id = some node) (hsuits : Suits p role node)
    (hparts : ∀ part ∈ node.roles role, Supported p part.1 part.2) : Supported p role id := by
  cases node with
  | number value => exact (Supported.number hnode).of_value role
  | var var => exact (Supported.var hnode hsuits).of_value role
  | unary op operand =>
      exact (Supported.unary hnode (hparts _ List.mem_cons_self)).of_value role
  | binary op left right =>
      obtain ⟨hleft, hright⟩ := List.forall_mem_cons.mp hparts
      exact (Supported.binary hnode hleft (hright _ List.mem_cons_self)).of_value role
  | assign target value =>
      cases target with
      | element array index => cases hsuits
      | scalar var =>
          exact (Supported.assign hnode hsuits (hparts _ List.mem_cons_self)).of_value role
  | index array index => cases hsuits
  | ternary cond thenArm elseArm =>
      obtain ⟨hcond, harms⟩ := List.forall_mem_cons.mp hparts
      obtain ⟨hthen, helse⟩ := List.forall_mem_cons.mp harms
      exact (Supported.ternary hnode hcond hthen (helse _ List.mem_cons_self)).of_value role
  | step op target =>
      cases target with
      | element array index => cases hsuits
      | scalar var => exact (Supported.step hnode hsuits).of_value role
  | seq first second =>
      obtain ⟨hfirst, hsecond⟩ := List.forall_mem_cons.mp hparts
      exact .seq hnode hfirst (hsecond _ List.mem_cons_self)
  | loop cond body => cases hsuits
  | branch cond thenArm elseArm =>
      cases hsuits
      obtain ⟨hcond, harms⟩ := List.forall_mem_cons.mp hparts
      obtain ⟨hthen, helse⟩ := List.forall_mem_cons.mp harms
      exact .branch hnode hcond hthen (helse _ List.mem_cons_self)
  | call callee args => cases hsuits
  | empty =>
      cases hsuits
      exact .empty hnode

/-- What occurs in a node of the grammar is of the grammar. -/
theorem Supported.occurs (h : Supported p role id) (hoccurs : Occurs p role id below low) :
    Supported p below low := by
  induction hoccurs with
  | refl => exact h
  | part _ hnode hmem ih => exact (ih.suits hnode).2 _ hmem

/-- A misfit is not of the grammar. -/
theorem Misfit.not_supported (h : Misfit p role id obstacle) : ¬Supported p role id := by
  intro hsupported
  cases h with
  | dangling hnone =>
      obtain ⟨node, hnode⟩ := hsupported.exists_node
      rw [hnone] at hnode
      cases hnode
  | foreign hnode hforeign =>
      rw [(hsupported.suits hnode).1.not_foreign] at hforeign
      cases hforeign
  | undeclared hnode hvar hnone =>
      obtain ⟨s, hget, -⟩ := (hsupported.suits hnode).1.isScalar hvar
      rw [hnone] at hget
      cases hget
  | array hnode hvar hget hlen =>
      obtain ⟨s, hget', hle⟩ := (hsupported.suits hnode).1.isScalar hvar
      cases hget.symm.trans hget'
      exact absurd hlen (Nat.not_lt.mpr hle)
  | noValue _ hnot => exact hnot hsupported

-- ================================================================ positions

/-- The parts are among the children; those of what does not suit are left
out. -/
theorem parts_subset (p : Program) (role : Role) (node : Expr) :
    (node.roles role).map Prod.snd ⊆ p.children node := by
  cases node with
  | assign target value =>
      cases target with
      | scalar var => exact List.Subset.refl _
      | element array index => exact List.nil_subset _
  | step | index | loop | call => exact List.nil_subset _
  | _ => exact List.Subset.refl _

theorem isChild_of_part (role : Role) {part : Role × ExprId} (hnode : p.expr? id = some node)
    (h : part ∈ node.roles role) : p.IsChild part.2 id :=
  ⟨node, hnode, parts_subset p role node (List.mem_map_of_mem h)⟩

/-- What occurs below a node can be reached from it. -/
theorem Occurs.reachable (h : Occurs p role id below low) : p.Reachable id low := by
  induction h with
  | refl => exact .refl id
  | part _ hnode hmem ih => exact ih.child (isChild_of_part _ hnode hmem)

/-- What occurs below a part occurs below the whole. -/
theorem Occurs.of_part {inner : Role} (hnode : p.expr? id = some node)
    (hmem : (inner, child) ∈ node.roles role) (h : Occurs p inner child below low) :
    Occurs p role id below low := by
  induction h with
  | refl => exact .part .refl hnode hmem
  | part _ hnode' hmem' ih => exact .part ih hnode' hmem'

-- ================================================================= verdicts

variable (p) in
/-- A refusal for a misfit at or below a node. -/
def Refuses (role : Role) (id : ExprId) (stop : Stop) : Prop :=
  ∃ obstacle below low, stop.refusal = ⟨obstacle, some low⟩ ∧ Occurs p role id below low
    ∧ Misfit p below low obstacle

/-- A misfit is a reason to refuse. -/
theorem Misfit.refuses (h : Misfit p role id obstacle) (temps : Nat) :
    Refuses p role id ⟨⟨obstacle, some id⟩, temps⟩ :=
  ⟨obstacle, role, id, rfl, .refl, h⟩

/-- A refusal in a part is one in the whole. -/
theorem Refuses.part {inner : Role} {stop : Stop} (hnode : p.expr? id = some node)
    (hmem : (inner, child) ∈ node.roles role) (h : Refuses p inner child stop) :
    Refuses p role id stop := by
  obtain ⟨obstacle, below, low, hstop, hoccurs, hmisfit⟩ := h
  exact ⟨obstacle, below, low, hstop, hoccurs.of_part hnode hmem, hmisfit⟩

/-- What a computation comes to is such, or its refusal is. -/
def Judges {α : Type} (good : α → Prop) (bad : Stop → Prop) : Except Stop α → Prop
  | .ok a => good a
  | .error stop => bad stop

section Judges

variable {α β : Type} {good good' : α → Prop} {next : β → Prop} {bad bad' : Stop → Prop}
  {x : Except Stop α}

/-- Judgements are made one after the other. -/
theorem Judges.bind (hx : Judges good bad x) {f : α → Except Stop β}
    (h : ∀ a, good a → Judges next bad (f a)) : Judges next bad (x >>= f) := by
  cases x with
  | error stop => exact hx
  | ok a => exact h a hx

/-- Judgements may be weakened on both sides. -/
theorem Judges.mono (hgood : ∀ a, good a → good' a) (hbad : ∀ stop, bad stop → bad' stop)
    (hx : Judges good bad x) : Judges good' bad' x := by
  cases x with
  | error stop => exact hbad stop hx
  | ok a => exact hgood a hx

end Judges

variable (p) in
/-- The node just lowered is a statement of the grammar, and it left a value
iff it is a value. -/
structure Judged (id : ExprId) (e : Emission) : Prop where
  statement : Supported p .statement id
  value : e.value.isSome = true ↔ Supported p .value id

variable (p) in
/-- Lowering a node comes to what the grammar says, whatever the role it is
lowered for. -/
def Verdict (lower : ExprId → Emission → Except Stop Emission) (id : ExprId) : Prop :=
  ∀ role e, Judges (Judged p id) (Refuses p role id) (lower id e)

/-- Leaving a value is right for what is supported as one. -/
theorem judged_of_value {e : Emission} (hsome : e.value.isSome = true)
    (h : Supported p .value id) : Judged p id e :=
  ⟨.statement h, iff_of_true hsome h⟩

/-- What leaves no value is only a statement. -/
theorem judged_of_statement {e : Emission} (hnone : e.value.isSome = false)
    (hnode : p.expr? id = some node) (hsuits : ¬Suits p .value node)
    (h : Supported p .statement id) : Judged p id e := by
  refine ⟨h, iff_of_false ?_ fun hvalue => hsuits (hvalue.suits hnode).1⟩
  rw [hnone]
  exact Bool.false_ne_true

variable {e : Emission} {bad : Stop → Prop}

/-- To ask for a value that is not there makes the child the misfit. -/
theorem judges_operand (h : Judged p child e)
    (hbad : ∀ stop, Refuses p .value child stop → bad stop) :
    Judges (fun _ => Supported p .value child) bad (e.operand child) := by
  unfold Emission.operand
  cases hvalue : e.value with
  | none =>
      refine hbad _ (Misfit.refuses (.noValue h.statement fun hsupported => ?_) _)
      have hsome := h.value.mpr hsupported
      rw [hvalue] at hsome
      cases hsome
  | some o =>
      refine h.value.mp ?_
      rw [hvalue]
      rfl

/-- A variable is refused if it is no declared scalar. -/
theorem judges_scalar {var : VarId} (hnode : p.expr? id = some node)
    (hvar : node.scalar? = some var) (role : Role) :
    Judges (fun _ => IsScalar p var) (Refuses p role id) (e.scalar p id var) := by
  unfold Emission.scalar
  cases hget : p.symbols.get? var with
  | none => exact Misfit.refuses (.undeclared hnode hvar hget) _
  | some s =>
      dsimp only
      split
      · rename_i harray
        exact Misfit.refuses (.array hnode hvar hget (s.isArray_iff.mp harray)) _
      · rename_i hscalar
        exact ⟨s, hget, Nat.not_lt.mp fun hlt => hscalar (s.isArray_iff.mpr hlt)⟩

-- ================================================================== choices

/-- The role of the arms of a choice. -/
def armRole : Emission.Merge → Role
  | .drop => .statement
  | .into _ | .fresh => .value

/-- The parts of a choice in their roles. -/
def choiceRoles (merge : Emission.Merge) (cond thenArm elseArm : ExprId) : List (Role × ExprId) :=
  [(.value, cond), (armRole merge, thenArm), (armRole merge, elseArm)]

/-- Closing an arm refuses it if a value is asked for and there is none. -/
theorem judges_closeArm (h : Judged p child e) (merge : Emission.Merge)
    (hbad : ∀ stop, Refuses p (armRole merge) child stop → bad stop) :
    Judges (fun _ => Supported p (armRole merge) child) bad (e.closeArm merge child) := by
  have hvalue : (∀ stop, Refuses p .value child stop → bad stop) →
      Judges (fun _ => Supported p .value child) bad (e.closeArm .fresh child) := by
    intro hbad
    refine (judges_operand h hbad).bind fun o hsupported => ?_
    rcases o with value | x
    · exact hsupported
    · cases x <;> exact hsupported
  cases merge with
  | drop => exact h.statement
  | into dest => exact hvalue hbad
  | fresh => exact hvalue hbad

/-- A choice leaves a value iff one was asked of its arms. -/
theorem value_branch (e : Emission) (merge : Emission.Merge) (outer : Code) (c : Operand)
    (t f : Emission.Arm) :
    (e.branch merge outer c t f).value.isSome = true ↔ armRole merge = .value := by
  cases merge with
  | drop => exact iff_of_false Bool.false_ne_true nofun
  | into dest => exact iff_of_true rfl rfl
  | fresh => exact iff_of_true rfl rfl

section Given

variable {lower : ExprId → Emission → Except Stop Emission}

/-- A part lowered for its role, and what refuses it refuses the whole. -/
theorem judges_part (hnode : p.expr? id = some node)
    (hparts : ∀ part ∈ node.roles role, Verdict p lower part.2) {part : Role × ExprId}
    (hmem : part ∈ node.roles role) (e : Emission) :
    Judges (Judged p part.2) (Refuses p role id) (lower part.2 e) :=
  (hparts part hmem part.1 e).mono (fun _ h => h) fun _ => .part hnode hmem

/-- A part that is asked for its value. -/
theorem judges_value (hnode : p.expr? id = some node) (hmem : (.value, child) ∈ node.roles role)
    {e : Emission} (h : Judged p child e) :
    Judges (fun _ => Supported p .value child) (Refuses p role id) (e.operand child) :=
  judges_operand h fun _ => .part hnode hmem

/-- A choice needs a value for its condition, and arms in their role. -/
theorem judges_choice {cond thenArm elseArm : ExprId} (merge : Emission.Merge)
    (hroles : node.roles role = choiceRoles merge cond thenArm elseArm)
    (hnode : p.expr? id = some node)
    (hparts : ∀ part ∈ node.roles role, Verdict p lower part.2) (e : Emission) :
    Judges (fun e' => (∀ part ∈ node.roles role, Supported p part.1 part.2)
        ∧ (e'.value.isSome = true ↔ armRole merge = .value))
      (Refuses p role id) (lowerChoice lower merge cond thenArm elseArm e) := by
  have hcond : (Role.value, cond) ∈ node.roles role := by simp [hroles, choiceRoles]
  have hthen : (armRole merge, thenArm) ∈ node.roles role := by simp [hroles, choiceRoles]
  have helse : (armRole merge, elseArm) ∈ node.roles role := by simp [hroles, choiceRoles]
  refine (judges_part hnode hparts hcond e).bind fun e hjudged => ?_
  refine (judges_value hnode hcond hjudged).bind fun c hc => ?_
  refine (judges_part hnode hparts hthen e.openArm).bind fun e₁ hjudged => ?_
  refine (judges_closeArm hjudged merge fun _ => .part hnode hthen).bind fun (t, e₁) ht => ?_
  refine (judges_part hnode hparts helse e₁.openArm).bind fun e₂ hjudged => ?_
  refine (judges_closeArm hjudged merge fun _ => .part hnode helse).bind fun (f, e₂) hf => ?_
  refine ⟨?_, value_branch e₂ merge e.code c t f⟩
  rw [hroles]
  exact List.forall_mem_cons.mpr ⟨hc, List.forall_mem_cons.mpr
    ⟨ht, List.forall_mem_singleton.mpr hf⟩⟩

/-- A choice that is assigned is lowered with the assignment, not by
itself. -/
theorem judges_into (hid : Verdict p lower id)
    (hparts : ∀ part, p.IsChild part id → Verdict p lower part) (dest : Var) (e : Emission) :
    Judges (fun e' => Supported p .value id ∧ e'.value.isSome = true) (Refuses p .value id)
      (lowerInto p lower id dest e) := by
  have hplain : Judges (fun e' => Supported p .value id ∧ e'.value.isSome = true)
      (Refuses p .value id) (do (← lower id e).copy id dest) := by
    refine (hid .value e).bind fun e hjudged => ?_
    exact (judges_operand hjudged fun _ h => h).bind fun o ho => ⟨ho, rfl⟩
  unfold lowerInto
  cases hnode : p.expr? id with
  | none => exact hplain
  | some node =>
      cases node with
      | ternary cond thenArm elseArm =>
          have hroles : ∀ part ∈ (Expr.ternary cond thenArm elseArm).roles .value,
              Verdict p lower part.2 :=
            fun part hmem => hparts part.2 (isChild_of_part .value hnode hmem)
          refine (judges_choice (.into dest) rfl hnode hroles e).mono (fun e' h => ?_) fun _ h => h
          exact ⟨supported_of_suits hnode trivial h.1, h.2.mpr rfl⟩
      | _ => exact hplain

/-- The operand has to be a value. -/
theorem judges_unary {op : UnaryOp} {operand : ExprId}
    (hnode : p.expr? id = some (.unary op operand))
    (hparts : ∀ part ∈ (Expr.unary op operand).roles role, Verdict p lower part.2) (e : Emission) :
    Judges (Judged p id) (Refuses p role id) (do (← lower operand e).unary op operand) := by
  have hmem : (Role.value, operand) ∈ (Expr.unary op operand).roles role := List.mem_cons_self
  refine (judges_part hnode hparts hmem e).bind fun e hjudged => ?_
  refine (judges_value hnode hmem hjudged).bind fun o ho => ?_
  exact judged_of_value rfl (.unary hnode ho)

/-- Both operands have to be values. -/
theorem judges_binary {op : BinaryOp} {left right : ExprId}
    (hnode : p.expr? id = some (.binary op left right))
    (hparts : ∀ part ∈ (Expr.binary op left right).roles role, Verdict p lower part.2)
    (e : Emission) :
    Judges (Judged p id) (Refuses p role id) (do
      let e ← lower right e
      let r ← e.operand right
      (← lower left e).binary op left r e.code.size) := by
  have hleft : (Role.value, left) ∈ (Expr.binary op left right).roles role := List.mem_cons_self
  have hright : (Role.value, right) ∈ (Expr.binary op left right).roles role :=
    List.mem_cons_of_mem _ List.mem_cons_self
  refine (judges_part hnode hparts hright e).bind fun e hjudged => ?_
  refine (judges_value hnode hright hjudged).bind fun r hr => ?_
  refine (judges_part hnode hparts hleft e).bind fun e' hjudged' => ?_
  refine (judges_value hnode hleft hjudged').bind fun l hl => ?_
  exact judged_of_value rfl (.binary hnode hl hr)

/-- The target has to be a scalar, and what is assigned a value; a choice is
made into the target. -/
theorem judges_assign {var : VarId} {value : ExprId}
    (hnode : p.expr? id = some (.assign (.scalar var) value)) (hvalue : Verdict p lower value)
    (hparts : ∀ part, p.IsChild part value → Verdict p lower part) (e : Emission) :
    Judges (Judged p id) (Refuses p role id) (do
      let dest ← e.scalar p id var
      lowerInto p lower value dest e) := by
  have hmem : (Role.value, value) ∈ (Expr.assign (.scalar var) value).roles role :=
    List.mem_cons_self
  refine (judges_scalar hnode rfl role).bind fun dest hvar => ?_
  refine (judges_into hvalue hparts dest e).mono (fun e' h => ?_) fun _ => .part hnode hmem
  exact judged_of_value h.2 (.assign hnode hvar h.1)

/-- The target has to be a scalar. -/
theorem judges_step {op : StepOp} {var : VarId} (hnode : p.expr? id = some (.step op (.scalar var)))
    (e : Emission) :
    Judges (Judged p id) (Refuses p role id) (do return e.step op (← e.scalar p id var)) := by
  refine (judges_scalar hnode rfl role).bind fun dest hvar => ?_
  refine judged_of_value ?_ (.step hnode hvar)
  show (e.step op dest).value.isSome = true
  unfold Emission.step
  split <;> rfl

/-- The condition and both arms have to be values. -/
theorem judges_ternary {cond thenArm elseArm : ExprId}
    (hnode : p.expr? id = some (.ternary cond thenArm elseArm))
    (hparts : ∀ part ∈ (Expr.ternary cond thenArm elseArm).roles role, Verdict p lower part.2)
    (e : Emission) :
    Judges (Judged p id) (Refuses p role id)
      (lowerChoice lower .fresh cond thenArm elseArm e) := by
  refine (judges_choice .fresh rfl hnode hparts e).mono (fun e' h => ?_) fun _ h => h
  exact judged_of_value (h.2.mpr rfl) (supported_of_suits hnode trivial h.1)

/-- The condition has to be a value, the arms may be anything. -/
theorem judges_branch {cond thenArm elseArm : ExprId}
    (hnode : p.expr? id = some (.branch cond thenArm elseArm))
    (hparts : ∀ part ∈ (Expr.branch cond thenArm elseArm).roles role, Verdict p lower part.2)
    (e : Emission) :
    Judges (Judged p id) (Refuses p role id) (lowerChoice lower .drop cond thenArm elseArm e) := by
  refine (judges_choice .drop rfl hnode hparts e).mono (fun e' h => ?_) fun _ h => h
  refine judged_of_statement ?_ hnode Role.noConfusion (supported_of_suits hnode rfl h.1)
  exact Bool.eq_false_iff.mpr fun hsome => Role.noConfusion (h.2.mp hsome)

/-- A sequence is what its second part is. -/
theorem judges_seq {first second : ExprId} (hnode : p.expr? id = some (.seq first second))
    (hparts : ∀ part ∈ (Expr.seq first second).roles role, Verdict p lower part.2)
    (e : Emission) :
    Judges (Judged p id) (Refuses p role id) (do lower second (← lower first e)) := by
  have hfirst : (Role.statement, first) ∈ (Expr.seq first second).roles role := List.mem_cons_self
  have hsecond : (role, second) ∈ (Expr.seq first second).roles role :=
    List.mem_cons_of_mem _ List.mem_cons_self
  refine (judges_part hnode hparts hfirst e).bind fun e hjudged => ?_
  refine (judges_part hnode hparts hsecond e).mono (fun e' hjudged' => ?_) fun _ h => h
  refine ⟨.seq hnode hjudged.statement hjudged'.statement, hjudged'.value.trans ?_⟩
  refine ⟨fun h => .seq hnode hjudged.statement h, fun h => ?_⟩
  exact (h.suits hnode).2 (.value, second) (List.mem_cons_of_mem _ List.mem_cons_self)

end Given

/-- One level of lowering. -/
theorem verdict_node {depth : Nat}
    (hchildren : ∀ child, p.IsChild child id → Verdict p (lower p depth) child)
    (hparts : ∀ child part, p.IsChild child id → p.IsChild part child →
      Verdict p (lower p depth) part) :
    Verdict p (lower p (depth + 1)) id := by
  intro role e
  unfold lower
  cases hnode : p.expr? id with
  | none => exact Misfit.refuses (.dangling hnode) _
  | some node =>
      have hroles : ∀ part ∈ node.roles role, Verdict p (lower p depth) part.2 :=
        fun part hmem => hchildren part.2 (isChild_of_part role hnode hmem)
      cases node with
      | number value => exact judged_of_value rfl (.number hnode)
      | var var =>
          exact (judges_scalar hnode rfl role).bind fun x hx => judged_of_value rfl (.var hnode hx)
      | empty => exact judged_of_statement rfl hnode Role.noConfusion (.empty hnode)
      | unary op operand => exact judges_unary hnode hroles e
      | binary op left right => exact judges_binary hnode hroles e
      | assign target value =>
          cases target with
          | element array index => exact Misfit.refuses (.foreign hnode rfl) _
          | scalar var =>
              have hchild := isChild_of_part role hnode
                (show (Role.value, value) ∈ _ from List.mem_cons_self)
              exact judges_assign hnode (hchildren value hchild)
                (fun part hpart => hparts value part hchild hpart) e
      | index array index => exact Misfit.refuses (.foreign hnode rfl) _
      | step op target =>
          cases target with
          | element array index => exact Misfit.refuses (.foreign hnode rfl) _
          | scalar var => exact judges_step hnode e
      | ternary cond thenArm elseArm => exact judges_ternary hnode hroles e
      | branch cond thenArm elseArm => exact judges_branch hnode hroles e
      | seq first second => exact judges_seq hnode hroles e
      | loop cond body => exact Misfit.refuses (.foreign hnode rfl) _
      | call callee args => exact Misfit.refuses (.foreign hnode rfl) _

/-- Lowering that goes as deep as a node is high. -/
theorem verdict_lower (height : Nat) : ∀ {depth : Nat} {id : ExprId},
    p.HeightAtMost id height → height < depth → Verdict p (lower p depth) id := by
  induction height using Nat.strongRecOn with
  | ind height ih =>
      intro depth id hheight hdepth
      obtain ⟨depth, rfl⟩ := Nat.exists_eq_add_of_lt (Nat.zero_lt_of_lt hdepth)
      refine verdict_node (fun child hchild => ?_) fun child part hchild hpart => ?_
      · obtain ⟨less, rfl, hless⟩ := hheight.child hchild
        exact ih less (by omega) hless (by omega)
      · obtain ⟨less, rfl, hless⟩ := hheight.child hchild
        obtain ⟨least, rfl, hleast⟩ := hless.child hpart
        exact ih least (by omega) hleast (by omega)

-- =================================================================== builds

/-- All parameters are declared scalars. -/
def ScalarParams (p : Program) (params : List Param) : Prop :=
  ∀ param ∈ params, ∃ var s, param = .scalar var ∧ p.symbols.get? var = some s

/-- The parameters are accepted iff all of them are declared scalars. -/
theorem paramNames_eq_ok_iff (p : Program) (body : ExprId) (params : List Param) :
    (∃ liveIn, paramNames p body params = .ok liveIn) ↔ ScalarParams p params := by
  induction params with
  | nil => exact iff_of_true ⟨[], rfl⟩ nofun
  | cons param params ih =>
      unfold ScalarParams at ih ⊢
      rw [List.forall_mem_cons, ← ih]
      cases param with
      | array var =>
          refine iff_of_false (fun ⟨liveIn, h⟩ => ?_) fun ⟨⟨v, s, h, _⟩, _⟩ => ?_
          · cases h
          · cases h
      | scalar var =>
          rw [paramNames, Symbols.name?]
          cases hget : p.symbols.get? var with
          | none =>
              refine iff_of_false (fun ⟨liveIn, h⟩ => ?_) fun ⟨⟨v, s, hv, hs⟩, _⟩ => ?_
              · cases h
              · cases hv
                rw [hget] at hs
                cases hs
          | some s =>
              refine ⟨fun ⟨liveIn, h⟩ => ?_, fun ⟨_, names, hnames⟩ => ⟨s.name :: names, ?_⟩⟩
              · obtain ⟨names, hnames, -⟩ := bind_eq_ok.mp h
                exact ⟨⟨var, s, rfl, hget⟩, names, hnames⟩
              · exact bind_eq_ok.mpr ⟨names, hnames, rfl⟩

/-- A body without a cycle is judged as it stands. -/
theorem verdict_lowerBody (hacyclic : p.Acyclic id) (role : Role) (e : Emission) :
    Judges (Judged p id) (Refuses p role id) (lowerBody p id e) := by
  rw [lowerBody_eq_lower]
  exact verdict_lower _ hacyclic.heightAtMost (Nat.lt_succ_self _) role e

/-- A function without a cycle has an SSA form iff its parameters are
declared scalars and its body is a statement of the grammar. If only the
body is not, a node in it is named that cannot stand where it occurs. -/
theorem build_accepts {f : Function} (hacyclic : p.Acyclic f.body) (b : Builder) :
    ((∃ code, (b.build p f).1 = .ok code) ↔
      ScalarParams p f.params ∧ Supported p .statement f.body)
    ∧ (ScalarParams p f.params → ¬Supported p .statement f.body →
      ∃ obstacle role id, (b.build p f).1 = .error ⟨obstacle, some id⟩
        ∧ p.Reachable f.body id ∧ Occurs p .statement f.body role id
        ∧ Misfit p role id obstacle ∧ ¬Supported p role id) := by
  have hverdict := verdict_lowerBody hacyclic .statement ⟨.empty, none, b.temps⟩
  have hparams := paramNames_eq_ok_iff p f.body f.params
  unfold Builder.build
  cases hnames : paramNames p f.body f.params with
  | error refusal =>
      have hnot : ¬ScalarParams p f.params := by
        rw [← hparams, hnames]
        rintro ⟨liveIn, h⟩
        cases h
      exact ⟨iff_of_false (fun ⟨code, h⟩ => by cases h) fun h => hnot h.1,
        fun h => absurd h hnot⟩
  | ok liveIn =>
      have hscalars : ScalarParams p f.params := hparams.mp ⟨liveIn, hnames⟩
      dsimp only
      cases hlower : lowerBody p f.body ⟨.empty, none, b.temps⟩ with
      | ok e =>
          rw [hlower] at hverdict
          exact ⟨iff_of_true ⟨_, rfl⟩ ⟨hscalars, hverdict.statement⟩,
            fun _ h => absurd hverdict.statement h⟩
      | error stop =>
          rw [hlower] at hverdict
          obtain ⟨obstacle, below, low, hstop, hoccurs, hmisfit⟩ := hverdict
          have hnot : ¬Supported p .statement f.body := fun h =>
            hmisfit.not_supported (h.occurs hoccurs)
          refine ⟨iff_of_false (fun ⟨code, h⟩ => by cases h) fun h => hnot h.2, fun _ _ => ?_⟩
          exact ⟨obstacle, below, low, congrArg Except.error hstop, hoccurs.reachable, hoccurs,
            hmisfit, hmisfit.not_supported⟩

/-- `result = -(; x)`, and behind it `-(;)`, which asks an empty statement
for a value. -/
def negating : Program where
  arena := { nodes := #[.var ⟨0⟩, .empty, .seq ⟨1⟩ ⟨0⟩, .unary .neg ⟨2⟩,
    .assign (.scalar ⟨1⟩) ⟨3⟩, .unary .neg ⟨1⟩, .seq ⟨4⟩ ⟨5⟩] }
  symbols := { entries := #[⟨"x", 1⟩, ⟨"result", 1⟩] }

theorem build_accepts_negating :
    (∃ code, (Builder.build {} negating ⟨"f", [.scalar ⟨0⟩], ⟨4⟩⟩).1 = .ok code)
    ∧ (Builder.build {} negating ⟨"g", [.scalar ⟨0⟩], ⟨6⟩⟩).1 =
      .error ⟨.malformed .noValue, some ⟨1⟩⟩
    ∧ ∃ role, Occurs negating .statement ⟨6⟩ role ⟨1⟩
      ∧ Misfit negating role ⟨1⟩ (.malformed .noValue) := by
  have hempty : negating.HeightAtMost ⟨1⟩ 0 := .of_children rfl nofun
  have hseq : negating.HeightAtMost ⟨2⟩ 1 := .of_children rfl (List.forall_mem_cons.mpr
    ⟨⟨0, rfl, hempty⟩, List.forall_mem_singleton.mpr ⟨0, rfl, .of_children rfl nofun⟩⟩)
  have hneg : negating.HeightAtMost ⟨3⟩ 2 :=
    .of_children rfl (List.forall_mem_singleton.mpr ⟨1, rfl, hseq⟩)
  have hassign : negating.HeightAtMost ⟨4⟩ 3 :=
    .of_children rfl (List.forall_mem_singleton.mpr ⟨2, rfl, hneg⟩)
  have hother : negating.HeightAtMost ⟨5⟩ 3 :=
    .of_children rfl (List.forall_mem_singleton.mpr ⟨2, rfl, .of_children rfl nofun⟩)
  have hboth : negating.HeightAtMost ⟨6⟩ 4 := .of_children rfl (List.forall_mem_cons.mpr
    ⟨⟨3, rfl, hassign⟩, List.forall_mem_singleton.mpr ⟨3, rfl, hother⟩⟩)
  have hx : IsScalar negating ⟨0⟩ := ⟨⟨"x", 1⟩, rfl, Nat.le_refl 1⟩
  have hresult : IsScalar negating ⟨1⟩ := ⟨⟨"result", 1⟩, rfl, Nat.le_refl 1⟩
  have hparams : ScalarParams negating [.scalar ⟨0⟩] :=
    List.forall_mem_singleton.mpr ⟨⟨0⟩, ⟨"x", 1⟩, rfl, rfl⟩
  constructor
  · have hvalue : Supported negating .value ⟨2⟩ := .seq rfl (.empty rfl) (.var rfl hx)
    have hbody : Supported negating .value ⟨4⟩ := .assign rfl hresult (.unary rfl hvalue)
    exact (build_accepts (f := ⟨"f", [.scalar ⟨0⟩], ⟨4⟩⟩) hassign.acyclic {}).1.mpr
      ⟨hparams, .statement hbody⟩
  · have hstand : Occurs negating .statement ⟨6⟩ .value ⟨1⟩ :=
      .part (.part .refl rfl (List.mem_cons_of_mem _ List.mem_cons_self)) rfl List.mem_cons_self
    have hempty : Misfit negating .value ⟨1⟩ (.malformed .noValue) :=
      .noValue (.empty rfl) fun h => nomatch (h.suits rfl).1
    obtain ⟨obstacle, role, id, hrefused, -, hoccurs, hmisfit, -⟩ :=
      (build_accepts (f := ⟨"g", [.scalar ⟨0⟩], ⟨6⟩⟩) hboth.acyclic {}).2 hparams
        fun h => hempty.not_supported (h.occurs hstand)
    have hcode : (Builder.build {} negating ⟨"g", [.scalar ⟨0⟩], ⟨6⟩⟩).1 =
        .error ⟨.malformed .noValue, some ⟨1⟩⟩ := by
      unfold Builder.build
      rw [lowerBody_eq_lower]
      rfl
    cases hcode.symm.trans hrefused
    exact ⟨hcode, role, hoccurs, hmisfit⟩

end SSA

end ExprGraph
