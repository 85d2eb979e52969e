/-
Code of programs of one shape.

Code has no numbers of nodes in it; only a refusal names a node. So a
program that mirrors another has the same code for its functions, and is
refused at the images of nodes (`build_rename`). How deep lowering may go
depends on the size of the arena, which need not be the same; as long as
the body has no cycle, both go as deep as it is high.
-/
import ExprGraph.Proofs.Renaming
import ExprGraph.SSA.Build

namespace ExprGraph.SSA

open Emission Program

variable (φ : ExprId → ExprId)

/-- The refusal at the image of the node. -/
def Refusal.rename (r : Refusal) : Refusal :=
  { r with expr := r.expr.map φ }

/-- The stop at the image of the node. -/
def Stop.rename (stop : Stop) : Stop :=
  { stop with refusal := stop.refusal.rename φ }

/-- The one comes to the same as the other, or is refused at the image of
the node. -/
def Mirrored {α : Type} (x' x : Except Stop α) : Prop :=
  x' = x.mapError (Stop.rename φ)

variable {φ} {p q : Program}

namespace Mirrored

variable {α β : Type}

theorem ok (a : α) : Mirrored φ (.ok a) (.ok a) := rfl

/-- Mirrored computations one behind the other are mirrored. -/
theorem bind {x x' : Except Stop α} {f g : α → Except Stop β} (hx : Mirrored φ x' x)
    (h : ∀ a, Mirrored φ (g a) (f a)) : Mirrored φ (x' >>= g) (x >>= f) := by
  cases hx
  cases x with
  | error stop => rfl
  | ok a => exact h a

end Mirrored

-- =================================================================== moves

/-- A refusal names the image. -/
theorem mirrored_refuse {α : Type} (e : Emission) (id : ExprId) (obstacle : Obstacle) :
    Mirrored φ (e.refuse (φ id) obstacle : Except Stop α) (e.refuse id obstacle) := rfl

/-- The value that a node left is looked at, not its number. -/
theorem mirrored_operand (e : Emission) (id : ExprId) :
    Mirrored φ (e.operand (φ id)) (e.operand id) := by
  unfold operand
  cases e.value <;> rfl

/-- The same declaration is looked up. -/
theorem mirrored_scalar (h : p.Mirrors q φ) (e : Emission) (id : ExprId) (var : VarId) :
    Mirrored φ (e.scalar q (φ id) var) (e.scalar p id var) := by
  unfold scalar
  rw [h.symbols]
  cases p.symbols.get? var with
  | none => rfl
  | some sym =>
      dsimp only
      split <;> rfl

theorem mirrored_unary (e : Emission) (op : UnaryOp) (operand : ExprId) :
    Mirrored φ (e.unary op (φ operand)) (e.unary op operand) :=
  .bind (mirrored_operand e operand) fun _ => .ok _

theorem mirrored_binary (e : Emission) (op : BinaryOp) (left : ExprId) (right : Operand)
    (mark : Nat) : Mirrored φ (e.binary op (φ left) right mark) (e.binary op left right mark) :=
  .bind (mirrored_operand e left) fun _ => .ok _

/-- The value of the node is copied to the same variable. -/
theorem mirrored_copy (e : Emission) (value : ExprId) (dest : Var) :
    Mirrored φ (e.copy (φ value) dest) (e.copy value dest) :=
  .bind (mirrored_operand e value) fun _ => .ok _

/-- An arm is closed in the same way, or refused at the image of its
node. -/
theorem mirrored_closeArm (e : Emission) (merge : Merge) (id : ExprId) :
    Mirrored φ (e.closeArm merge (φ id)) (e.closeArm merge id) := by
  cases merge with
  | drop => exact .ok _
  | _ =>
      refine .bind (mirrored_operand e id) fun value => ?_
      cases value with
      | const value => exact .ok _
      | var x => cases x <;> exact .ok _

-- ================================================================= choices

/-- Lowering, given for nodes and for their images. -/
def MirroredAt (φ : ExprId → ExprId) (lower' lower : ExprId → Emission → Except Stop Emission)
    (id : ExprId) : Prop :=
  ∀ e, Mirrored φ (lower' (φ id) e) (lower id e)

/-- A choice is lowered as its three children are. -/
theorem mirrored_choice {lower' lower : ExprId → Emission → Except Stop Emission}
    {cond thenArm elseArm : ExprId} (hcond : MirroredAt φ lower' lower cond)
    (hthen : MirroredAt φ lower' lower thenArm) (helse : MirroredAt φ lower' lower elseArm)
    (merge : Merge) (e : Emission) :
    Mirrored φ (lowerChoice lower' merge (φ cond) (φ thenArm) (φ elseArm) e)
      (lowerChoice lower merge cond thenArm elseArm e) := by
  refine .bind (hcond e) fun e => .bind (mirrored_operand e cond) fun c => ?_
  refine .bind (hthen e.openArm) fun e' => .bind (mirrored_closeArm e' merge thenArm) ?_
  intro (t, e')
  refine .bind (helse e'.openArm) fun e'' => .bind (mirrored_closeArm e'' merge elseArm) ?_
  intro (f, e'')
  exact .ok _

/-- A node that is a choice passes the destination on, and its image is one
too. -/
theorem mirrored_into (h : p.Mirrors q φ) {lower' lower : ExprId → Emission → Except Stop Emission}
    {id : ExprId} (hused : p.Used id) (hid : MirroredAt φ lower' lower id)
    (hchildren : ∀ child, p.IsChild child id → MirroredAt φ lower' lower child) (dest : Var)
    (e : Emission) :
    Mirrored φ (lowerInto q lower' (φ id) dest e) (lowerInto p lower id dest e) := by
  obtain ⟨node, node', hnode, hnode', hresembles⟩ := h.node hused
  have hplain : Mirrored φ (do (← lower' (φ id) e).copy (φ id) dest)
      (do (← lower id e).copy id dest) := .bind (hid e) fun e => mirrored_copy e id dest
  unfold lowerInto
  simp only [hnode, hnode']
  cases hresembles with
  | call => exact hplain
  | plain hcall =>
      cases node with
      | ternary cond thenArm elseArm =>
          have hchild : ∀ child ∈ [cond, thenArm, elseArm], MirroredAt φ lower' lower child :=
            fun child hmem => hchildren child ⟨_, hnode, hmem⟩
          exact mirrored_choice (hchild cond (by simp)) (hchild thenArm (by simp))
            (hchild elseArm (by simp)) _ e
      | _ => exact hplain

-- ================================================================ lowering

/-- One level of lowering. An assigned choice is lowered together with the
assignment, so its parts count as well. -/
theorem mirrored_node (h : p.Mirrors q φ) {depth' depth : Nat} {id : ExprId} (hused : p.Used id)
    (hchildren : ∀ child, p.IsChild child id → MirroredAt φ (lower q depth') (lower p depth) child)
    (hparts : ∀ child part, p.IsChild child id → p.IsChild part child →
      MirroredAt φ (lower q depth') (lower p depth) part) :
    MirroredAt φ (lower q (depth' + 1)) (lower p (depth + 1)) id := by
  intro e
  obtain ⟨node, node', hnode, hnode', hresembles⟩ := h.node hused
  have hchild : ∀ child ∈ p.children node, MirroredAt φ (lower q depth') (lower p depth) child :=
    fun child hmem => hchildren child ⟨node, hnode, hmem⟩
  unfold lower
  simp only [hnode, hnode']
  cases hresembles with
  | call => exact mirrored_refuse e id _
  | plain hcall =>
      cases node with
      | number value => exact .ok _
      | var var => exact .bind (mirrored_scalar h e id var) fun _ => .ok _
      | empty => exact .ok _
      | unary op operand =>
          exact .bind (hchild operand List.mem_cons_self e) fun e => mirrored_unary e op operand
      | binary op left right =>
          refine .bind (hchild right (by simp) e) fun e => ?_
          refine .bind (mirrored_operand e right) fun r => ?_
          refine .bind (hchild left List.mem_cons_self e) fun e' => ?_
          exact mirrored_binary e' op left r e.code.size
      | assign target value =>
          cases target with
          | element array index => exact mirrored_refuse e id _
          | scalar var =>
              refine .bind (mirrored_scalar h e id var) fun dest => ?_
              have hvalue : p.IsChild value id := ⟨_, hnode, List.mem_cons_self⟩
              exact mirrored_into h (hused.child hvalue) (hchildren value hvalue)
                (fun part hpart => hparts value part hvalue hpart) dest e
      | index array index => exact mirrored_refuse e id _
      | step op target =>
          cases target with
          | element array index => exact mirrored_refuse e id _
          | scalar var => exact .bind (mirrored_scalar h e id var) fun _ => .ok _
      | ternary cond thenArm elseArm =>
          exact mirrored_choice (hchild cond (by simp))
            (hchild thenArm (by simp))
            (hchild elseArm (by simp)) _ e
      | branch cond thenArm elseArm =>
          exact mirrored_choice (hchild cond (by simp))
            (hchild thenArm (by simp))
            (hchild elseArm (by simp)) _ e
      | seq first second =>
          refine .bind (hchild first List.mem_cons_self e) fun e => ?_
          exact hchild second (by simp) e
      | loop cond body => exact mirrored_refuse e id _
      | call callee args => exact absurd rfl (hcall callee args)

/-- Lowering an image is lowering the node, if both go as deep as the node
is high. -/
theorem mirrored_lower (h : p.Mirrors q φ) (height : Nat) : ∀ {depth' depth : Nat} {id : ExprId},
    p.Used id → p.HeightAtMost id height → height < depth' → height < depth →
    MirroredAt φ (lower q depth') (lower p depth) id := by
  induction height using Nat.strongRecOn with
  | ind height ih =>
      intro depth' depth id hused hheight hdepth' hdepth
      obtain ⟨depth', rfl⟩ := Nat.exists_eq_add_of_lt (Nat.zero_lt_of_lt hdepth')
      obtain ⟨depth, rfl⟩ := Nat.exists_eq_add_of_lt (Nat.zero_lt_of_lt hdepth)
      refine mirrored_node h hused (fun child hchild => ?_) fun child part hchild hpart => ?_
      · obtain ⟨less, rfl, hless⟩ := hheight.child hchild
        exact ih less (by omega) (hused.child hchild) hless (by omega) (by omega)
      · obtain ⟨less, rfl, hless⟩ := hheight.child hchild
        obtain ⟨least, rfl, hleast⟩ := hless.child hpart
        exact ih least (by omega) ((hused.child hchild).child hpart) hleast (by omega) (by omega)

-- ================================================================= builds

/-- Parameters are named alike, or refused at the image of the body. -/
theorem paramNames_rename (h : p.Mirrors q φ) (body : ExprId) (params : List Param) :
    paramNames q (φ body) params = (paramNames p body params).mapError (Refusal.rename φ) := by
  induction params with
  | nil => rfl
  | cons param params ih =>
      cases param with
      | array var => rfl
      | scalar var =>
          unfold paramNames
          rw [h.symbols, ih]
          cases p.symbols.name? var with
          | none => rfl
          | some name => cases paramNames p body params <;> rfl

/-- A body without a cycle is lowered alike. -/
theorem mirrored_lowerBody (h : p.Mirrors q φ) {id : ExprId} (hused : p.Used id)
    (hacyclic : p.Acyclic id) (e : Emission) :
    Mirrored φ (lowerBody q (φ id) e) (lowerBody p id e) := by
  rw [lowerBody_eq_lower, lowerBody_eq_lower]
  have hheight' : p.HeightAtMost id q.arena.size :=
    (h.heightAtMost_iff hused).mp (h.acyclic hused hacyclic).heightAtMost
  -- the lower of both bounds
  have hheight : p.HeightAtMost id (min p.arena.size q.arena.size) := fun path low hpath =>
    Nat.le_min.mpr ⟨hacyclic.heightAtMost path low hpath, hheight' path low hpath⟩
  exact mirrored_lower h _ hused hheight (Nat.lt_succ_of_le (Nat.min_le_right _ _))
    (Nat.lt_succ_of_le (Nat.min_le_left _ _)) e

/-- A function without a cycle has the same code, or is refused at the
image of the node. -/
theorem build_rename (h : p.Mirrors q φ) {name : String} {f : Function}
    (hfound : p.function? name = some f) (hacyclic : p.Acyclic f.body) (b : Builder) :
    b.buildNamed q name
      = ((b.buildNamed p name).1.mapError (Refusal.rename φ), (b.buildNamed p name).2) := by
  have hparams : paramNames q (f.rename φ).body (f.rename φ).params
      = (paramNames p f.body f.params).mapError (Refusal.rename φ) :=
    paramNames_rename h f.body f.params
  have hbody : lowerBody q (f.rename φ).body ⟨.empty, none, b.temps⟩
      = (lowerBody p f.body ⟨.empty, none, b.temps⟩).mapError (Stop.rename φ) :=
    mirrored_lowerBody h (used_body hfound) hacyclic _
  unfold Builder.buildNamed Builder.build
  simp only [hfound, h.function hfound, hparams, hbody]
  cases paramNames p f.body f.params with
  | error refusal => rfl
  | ok liveIn => cases lowerBody p f.body ⟨.empty, none, b.temps⟩ <;> rfl

end ExprGraph.SSA
