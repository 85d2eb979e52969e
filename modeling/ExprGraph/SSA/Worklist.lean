/-
Lowering from a work list.

`lower` recurses on the graph, and a deep graph would need a deep stack.
Here the same moves are made from a list of what is left to do: an item
either finishes a node whose operands are lowered, or is replaced by the
items for its parts. The list grows on the heap.

The two agree: draining a list that starts with node `id` is lowering `id`
and draining the rest (`drain_lower`). So `lowerBody` is `lower`
(`lowerBody_eq_lower`), and what holds of the recursion holds of what is
run.
-/
import ExprGraph.SSA.Lowering

namespace ExprGraph.SSA

open Emission

-- ============================================================== work items

/-- Something left to do. -/
inductive Work where
  /-- Lower a node, going down at most `depth` levels. -/
  | lower (depth : Nat) (id : ExprId)
  /-- Lower a node into a variable. -/
  | lowerInto (depth : Nat) (id : ExprId) (dest : Var)
  /-- Assign the value of node `value` to a variable. -/
  | copy (value : ExprId) (dest : Var)
  /-- Apply a unary operator. -/
  | unary (op : UnaryOp) (operand : ExprId)
  /-- The right operand is lowered: mark the place and go on left. -/
  | left (depth : Nat) (op : BinaryOp) (left right : ExprId)
  /-- Apply a binary operator. -/
  | binary (op : BinaryOp) (left : ExprId) (right : Operand) (mark : Nat)
  /-- The condition is lowered: go on with the arms. -/
  | arms (depth : Nat) (merge : Merge) (cond thenArm elseArm : ExprId)
  /-- The first arm is lowered: go on with the second. -/
  | other (depth : Nat) (merge : Merge) (outer : Code) (cond : Operand)
    (thenArm elseArm : ExprId)
  /-- Both arms are lowered: emit the branch. -/
  | branch (merge : Merge) (outer : Code) (cond : Operand) (thenArm : Arm) (elseArm : ExprId)

namespace Work

/-- A bound on the items that come of lowering a node `depth` levels
down. -/
def bound : Nat → Nat
  | 0 => 8
  | depth + 1 => 8 * bound depth

/-- A number that falls with every item done. -/
def weight : Work → Nat
  | .lower depth _ => bound depth
  | .lowerInto depth _ _ => 4 * bound depth
  | .left depth .. => bound depth + 2
  | .arms depth .. => 2 * bound depth + 3
  | .other depth .. => bound depth + 2
  | .copy .. | .unary .. | .binary .. | .branch .. => 1

/-- The weight of a list. -/
def total : List Work → Nat
  | [] => 0
  | w :: rest => w.weight + total rest

theorem total_append (a b : List Work) : total (a ++ b) = total a + total b := by
  induction a with
  | nil => simp [total]
  | cons w a ih => simp [total, ih, Nat.add_assoc]

end Work

-- ================================================================= an item

/-- The items of a choice. -/
def choice (depth : Nat) (merge : Merge) (cond thenArm elseArm : ExprId) : List Work :=
  [.lower depth cond, .arms depth merge cond thenArm elseArm]

variable (p : Program)

/-- Lower the part of a node that is not its children, which become
items. -/
def performLower (depth : Nat) (id : ExprId) (e : Emission) :
    Except Stop (List Work × Emission) :=
  match depth with
  | 0 => e.refuse id (.malformed .cyclic)
  | depth + 1 =>
    match p.expr? id with
    | none => e.refuse id (.malformed .dangling)
    | some node =>
      match node with
      | .number value => .ok ([], e.yield (.const value))
      | .var var => do return ([], e.yield (.var (← e.scalar p id var)))
      | .empty => .ok ([], e.yieldNone)
      | .unary op operand => .ok ([.lower depth operand, .unary op operand], e)
      | .binary op left right => .ok ([.lower depth right, .left depth op left right], e)
      | .assign (.scalar var) value => do
        return ([.lowerInto depth value (← e.scalar p id var)], e)
      | .step op (.scalar var) => do return ([], e.step op (← e.scalar p id var))
      | .ternary cond thenArm elseArm => .ok (choice depth .fresh cond thenArm elseArm, e)
      | .branch cond thenArm elseArm => .ok (choice depth .drop cond thenArm elseArm, e)
      | .seq first second => .ok ([.lower depth first, .lower depth second], e)
      | .assign (.element ..) _ | .step _ (.element ..) | .index .. | .loop .. | .call .. =>
        e.refuse id (.unsupported node.describe)

/-- Do one item: the items that take its place, and the new state. -/
def perform (w : Work) (e : Emission) : Except Stop (List Work × Emission) :=
  match w with
  | .lower depth id => performLower p depth id e
  | .lowerInto depth id dest =>
    match p.expr? id with
    | some (.ternary cond thenArm elseArm) =>
      .ok (choice depth (.into dest) cond thenArm elseArm, e)
    | _ => .ok ([.lower depth id, .copy id dest], e)
  | .copy value dest => do return ([], ← e.copy value dest)
  | .unary op operand => do return ([], ← e.unary op operand)
  | .left depth op left right => do
    return ([.lower depth left, .binary op left (← e.operand right) e.code.size], e)
  | .binary op left right mark => do return ([], ← e.binary op left right mark)
  | .arms depth merge cond thenArm elseArm => do
    let c ← e.operand cond
    return ([.lower depth thenArm, .other depth merge e.code c thenArm elseArm], e.openArm)
  | .other depth merge outer cond thenArm elseArm => do
    let (t, e) ← e.closeArm merge thenArm
    return ([.lower depth elseArm, .branch merge outer cond t elseArm], e.openArm)
  | .branch merge outer cond t elseArm => do
    let (f, e) ← e.closeArm merge elseArm
    return ([], e.branch merge outer cond t f)

-- ====================================================== it comes to an end

theorem bound_ge (depth : Nat) : 8 ≤ Work.bound depth := by
  induction depth with
  | zero => simp [Work.bound]
  | succ depth ih => simp only [Work.bound]; omega

theorem total_performLower {depth : Nat} {id : ExprId} {e e' : Emission} {more : List Work}
    (h : performLower p depth id e = .ok (more, e')) :
    Work.total more < Work.bound depth := by
  have hb : ∀ depth, 8 ≤ Work.bound depth := bound_ge
  cases depth with
  | zero => simp [performLower, refuse] at h
  | succ depth =>
    have hd := hb depth
    simp only [performLower] at h
    split at h
    · simp [refuse] at h
    · split at h <;>
        first
        | (simp only [refuse, reduceCtorEq] at h)
        | (simp only [Except.ok.injEq, Prod.mk.injEq] at h
           obtain ⟨rfl, -⟩ := h
           simp [Work.total, Work.weight, Work.bound, choice]
           try omega)
        | (simp only [bind_eq_ok, pure, Except.pure, Except.ok.injEq, Prod.mk.injEq] at h
           obtain ⟨_, -, rfl, -⟩ := h
           simp [Work.total, Work.weight, Work.bound]
           try omega)

/-- Every item is replaced by lighter ones. -/
theorem total_perform {w : Work} {e e' : Emission} {more : List Work}
    (h : perform p w e = .ok (more, e')) : Work.total more < w.weight := by
  cases w with
  | lower depth id => exact total_performLower p h
  | lowerInto depth id dest =>
    have hd := bound_ge depth
    simp only [perform] at h
    split at h <;>
      (simp only [Except.ok.injEq, Prod.mk.injEq] at h
       obtain ⟨rfl, -⟩ := h
       simp [Work.total, Work.weight, choice]
       omega)
  | copy | unary | binary =>
    simp only [perform, bind_eq_ok, pure, Except.pure, Except.ok.injEq, Prod.mk.injEq] at h
    obtain ⟨_, -, rfl, -⟩ := h
    simp [Work.total, Work.weight]
  | left | arms =>
    simp only [perform, bind_eq_ok, pure, Except.pure, Except.ok.injEq, Prod.mk.injEq] at h
    obtain ⟨_, -, rfl, -⟩ := h
    simp [Work.total, Work.weight]
    try omega
  | other | branch =>
    simp only [perform, bind_eq_ok, pure, Except.pure, Except.ok.injEq, Prod.mk.injEq] at h
    obtain ⟨⟨_, _⟩, -, rfl, -⟩ := h
    simp [Work.total, Work.weight]

-- ========================================================== the whole list

/-- Do all items. -/
def drain (items : List Work) (e : Emission) : Except Stop Emission :=
  match items with
  | [] => .ok e
  | w :: rest =>
    match _done : perform p w e with
    | .error stop => .error stop
    | .ok (more, e) => drain (more ++ rest) e
termination_by Work.total items
decreasing_by
  have lighter := total_perform p _done
  simp only [Work.total_append, Work.total]
  omega

/-- Lower the body of a function. -/
def lowerBody (id : ExprId) (e : Emission) : Except Stop Emission :=
  drain p [.lower (enoughDepth p) id] e

-- ============================================ agreement with the recursion

theorem drain_nil (e : Emission) : drain p [] e = .ok e := by
  simp [drain]

theorem drain_cons (w : Work) (rest : List Work) (e : Emission) :
    drain p (w :: rest) e =
      (perform p w e).bind fun (more, e) => drain p (more ++ rest) e := by
  rw [drain]
  split <;> simp_all [Except.bind]

/-- An item that leaves nothing behind is done in front of the rest. -/
theorem drain_of_perform {w : Work} {rest : List Work} {e : Emission}
    {finish : Except Stop Emission}
    (h : perform p w e = (do return ([], ← finish))) :
    drain p (w :: rest) e = finish.bind (drain p rest) := by
  rw [drain_cons, h]
  cases finish <;> rfl

/-- Draining a list that starts with a node at this depth is lowering the
node and draining the rest. -/
def Agrees (depth : Nat) : Prop :=
  ∀ id rest e, drain p (.lower depth id :: rest) e = (lower p depth id e).bind (drain p rest)

variable {p}

theorem drain_choice {depth : Nat} (agrees : Agrees p depth) (merge : Merge)
    (cond thenArm elseArm : ExprId) (rest : List Work) (e : Emission) :
    drain p (choice depth merge cond thenArm elseArm ++ rest) e =
      (lowerChoice (lower p depth) merge cond thenArm elseArm e).bind (drain p rest) := by
  simp only [choice, List.cons_append, List.nil_append, lowerChoice]
  rw [agrees]
  cases lower p depth cond e with
  | error stop => rfl
  | ok e =>
    simp only [Except.bind, bind, drain_cons, perform]
    cases e.operand cond with
    | error stop => rfl
    | ok c =>
      simp only [pure, Except.pure, List.cons_append, List.nil_append]
      rw [agrees]
      cases lower p depth thenArm e.openArm with
      | error stop => rfl
      | ok t =>
        simp only [Except.bind, bind, drain_cons, perform]
        cases t.closeArm merge thenArm with
        | error stop => rfl
        | ok closed =>
          simp only [pure, Except.pure, List.cons_append, List.nil_append]
          rw [agrees]
          cases lower p depth elseArm closed.2.openArm with
          | error stop => rfl
          | ok f =>
            simp only [Except.bind, bind, drain_cons, perform]
            cases f.closeArm merge elseArm <;> rfl

theorem drain_lowerInto {depth : Nat} (agrees : Agrees p depth) (id : ExprId) (dest : Var)
    (rest : List Work) (e : Emission) :
    drain p (.lowerInto depth id dest :: rest) e =
      (lowerInto p (lower p depth) id dest e).bind (drain p rest) := by
  have plain : drain p ([.lower depth id, .copy id dest] ++ rest) e =
      ((lower p depth id e).bind fun e => e.copy id dest).bind (drain p rest) := by
    rw [List.cons_append, agrees]
    cases lower p depth id e with
    | error stop => rfl
    | ok e => exact drain_of_perform p rfl
  rw [drain_cons]
  simp only [perform, lowerInto]
  cases p.expr? id with
  | none => exact plain
  | some node =>
    cases node with
    | ternary => exact drain_choice agrees _ _ _ _ rest e
    | _ => exact plain

/-- Draining a list that starts with node `id` is lowering `id` and
draining the rest. -/
theorem drain_lower (depth : Nat) : Agrees p depth := by
  induction depth with
  | zero => intro id rest e; rw [drain_cons]; rfl
  | succ depth agrees =>
    intro id rest e
    rw [drain_cons]
    simp only [perform, performLower, lower]
    cases p.expr? id with
    | none => rfl
    | some node =>
      cases node with
      | number | empty | index | loop | call => rfl
      | var v => dsimp only; cases e.scalar p id _ <;> rfl
      | unary op operand =>
        simp only [Except.bind, List.cons_append, List.nil_append]
        rw [agrees]
        cases lower p depth operand e with
        | error stop => rfl
        | ok e => exact drain_of_perform p rfl
      | binary op left right =>
        simp only [Except.bind, List.cons_append, List.nil_append]
        rw [agrees]
        cases lower p depth right e with
        | error stop => rfl
        | ok e =>
          simp only [Except.bind, bind, drain_cons, perform]
          cases e.operand right with
          | error stop => rfl
          | ok r =>
            simp only [pure, Except.pure, List.cons_append, List.nil_append]
            rw [agrees]
            cases lower p depth left e with
            | error stop => rfl
            | ok l => exact drain_of_perform p rfl
      | assign target value =>
        cases target with
        | element => rfl
        | scalar var =>
          simp only [bind, Except.bind]
          cases e.scalar p id var with
          | error stop => rfl
          | ok dest => exact drain_lowerInto agrees value dest rest e
      | step op target =>
        cases target with
        | element => rfl
        | scalar var => dsimp only; cases e.scalar p id _ <;> rfl
      | ternary cond thenArm elseArm => exact drain_choice agrees _ _ _ _ rest e
      | branch cond thenArm elseArm => exact drain_choice agrees _ _ _ _ rest e
      | seq first second =>
        simp only [Except.bind, List.cons_append, List.nil_append]
        rw [agrees]
        cases lower p depth first e with
        | error stop => rfl
        | ok e => exact agrees second rest e

/-- The work list lowers a body as the recursion does. -/
theorem lowerBody_eq_lower (id : ExprId) (e : Emission) :
    lowerBody p id e = lower p (enoughDepth p) id e := by
  rw [lowerBody, drain_lower]
  cases lower p (enoughDepth p) id e with
  | error stop => rfl
  | ok e => exact drain_nil p e

end ExprGraph.SSA
