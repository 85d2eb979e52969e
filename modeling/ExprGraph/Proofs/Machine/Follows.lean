/-
The simulation of the recursive evaluator by the machine: without a bound
on pending work, a run ends with a result after a list of stores iff the
evaluator has a derivation of both. `Nodes.lean` and `Refinement.lean`
carry it through the kinds of nodes and to whole runs.

# The relation

`Follows n m stores r next` ties a state to the result of a computation:
if the computation goes on with a value, the run gets to the state `next`
of that value; if it ends the run, the run ends so; and if the run ends
within `n` steps, the computation has an answer. The three are proved
together, by one induction on `n` over all kinds of nodes, because a
machine that is to evaluate a node makes at least one step before it
starts on a child: a run that ends within `n + 1` steps from the node ends
within `n` steps from the child, and `n` levels of recursion are enough.

Computations are put together by `Follows.bind`, so the case of a node
reads like its evaluation: a child, a child, the last step. Pending work
shows only in the state a child is entered in, and is back when the child
is done: no invariant on the agenda is needed beyond that.
-/
import ExprGraph.Proofs.Evaluator
import ExprGraph.Proofs.Machine.Steps

namespace ExprGraph

-- ============================================== equations of computations

namespace Evaluation

variable {α β γ : Type}

@[simp] theorem pure_bind (a : α) (f : α → Evaluation β) : (pure a >>= f) = f a := rfl

@[simp] theorem attempt_ok (a : α) : attempt (.ok a) = pure a := rfl

@[simp] theorem getVars_bind (f : Frame → Evaluation β) (w : World) :
    (getVars >>= f) w = f w.vars w := rfl

/-- What comes behind sees the new variables. -/
@[simp] theorem setVars_bind (vars : Frame) (f : Unit → Evaluation β) (w : World) :
    (setVars vars >>= f) w = f () ⟨vars, w.stores⟩ := rfl

/-- Without an answer there is none to what comes behind. -/
theorem bind_of_none {x : Evaluation α} {w : World} (h : x w = none)
    (f : α → Evaluation β) : (x >>= f) w = none := by
  simp only [bind, h]

/-- A run that has ended is not gone on with. -/
theorem bind_of_ended {x : Evaluation α} {o : Except Cause Float} {w w' : World}
    (h : x w = some (.ended o, w')) (f : α → Evaluation β) :
    (x >>= f) w = some (.ended o, w') := by
  simp only [bind, h]

/-- What comes behind a value starts from it, in the world it left. -/
theorem bind_of_value {x : Evaluation α} {a : α} {w w' : World}
    (h : x w = some (.value a, w')) (f : α → Evaluation β) :
    (x >>= f) w = f a w' := by
  simp only [bind, h]

/-- A computation that goes on behind another has a value of both. -/
theorem bind_eq_value {x : Evaluation α} {f : α → Evaluation β} {b : β} {w w' : World} :
    (x >>= f) w = some (.value b, w') ↔
      ∃ a w₁, x w = some (.value a, w₁) ∧ f a w₁ = some (.value b, w') := by
  constructor
  · intro h
    cases hx : x w with
    | none => rw [bind_of_none hx] at h; cases h
    | some pair =>
        obtain ⟨answer, w₁⟩ := pair
        cases answer with
        | ended o => rw [bind_of_ended hx] at h; cases h
        | value a => rw [bind_of_value hx] at h; exact ⟨a, w₁, rfl, h⟩
  · rintro ⟨a, w₁, hx, h⟩
    rw [bind_of_value hx, h]

/-- An attempt has a value iff the computation succeeds, and leaves the
world alone. -/
theorem attempt_eq_value {x : Except Cause α} {a : α} {w w' : World} :
    attempt x w = some (.value a, w') ↔ x = .ok a ∧ w' = w := by
  cases x with
  | error cause =>
      constructor
      · intro h
        cases h
      · rintro ⟨h, -⟩
        cases h
  | ok b =>
      constructor
      · intro h
        cases h
        exact ⟨rfl, rfl⟩
      · rintro ⟨h, rfl⟩
        cases h
        rfl

/-- Three computations, one behind the other. -/
theorem bind_assoc (x : Evaluation α) (f : α → Evaluation β) (g : β → Evaluation γ) :
    (x >>= f) >>= g = x >>= fun a => f a >>= g := by
  funext w
  cases hx : x w with
  | none => rw [bind_of_none hx, bind_of_none (bind_of_none hx f)]
  | some pair =>
      obtain ⟨answer, w'⟩ := pair
      cases answer with
      | ended o => rw [bind_of_ended hx, bind_of_ended (bind_of_ended hx f)]
      | value a =>
          rw [bind_of_value hx]
          simp only [bind, hx]

/-- An access that succeeds leaves its store behind those before. -/
theorem storing_bind_ok {act : Frame → Except Cause (Store × Frame)} {w : World}
    {store : Store} {vars : Frame} (h : act w.vars = .ok (store, vars))
    (f : Unit → Evaluation β) :
    (storing act >>= f) w = f () ⟨vars, w.stores ++ [store]⟩ := by
  simp only [storing, bind, getVars, h]
  rfl

/-- An access that fails ends the run, and leaves no store. -/
theorem storing_bind_error {act : Frame → Except Cause (Store × Frame)} {w : World}
    {cause : Cause} (h : act w.vars = .error cause) (f : Unit → Evaluation β) :
    (storing act >>= f) w = finish (.error cause) w := by
  simp only [storing, bind, getVars, h]
  rfl

/-- An access without a report changes the variables only. -/
theorem updating_bind_ok {act : Frame → Except Cause (α × Frame)} {w : World}
    {a : α} {vars : Frame} (h : act w.vars = .ok (a, vars)) (f : α → Evaluation β) :
    (updating act >>= f) w = f a ⟨vars, w.stores⟩ := by
  simp only [updating, bind, getVars, h]
  rfl

/-- An access without a report that fails ends the run. -/
theorem updating_bind_error {act : Frame → Except Cause (α × Frame)} {w : World}
    {cause : Cause} (h : act w.vars = .error cause) (f : α → Evaluation β) :
    (updating act >>= f) w = finish (.error cause) w := by
  simp only [updating, bind, getVars, h]
  rfl

end Evaluation

-- ======================================================= the simulation

namespace Machine

open Evaluation

variable {s : Setting} {α β : Type}

/-- The run from `m`, which has made `stores` so far, does what a
computation with the result `r` does. -/
structure Follows (s : Setting) (n : Nat) (m : Machine) (stores : List Store)
    (r : Option (Answer α × World)) (next : α → Frame → Machine) : Prop where
  value : ∀ {a w}, r = some (.value a, w) →
    ∃ t, w.stores = stores ++ t ∧ Steps s m t (next a w.vars)
  ended : ∀ {o w}, r = some (.ended o, w) →
    ∃ t m', w.stores = stores ++ t ∧ Steps s m t m' ∧ Halts s m' o
  answered : EndsWithin s n m → r ≠ none

namespace Follows

variable {n : Nat} {m : Machine} {stores : List Store} {next : α → Frame → Machine}

/-- What is so for many steps is so for fewer. -/
theorem mono {few many : Nat} {r : Option (Answer α × World)} (hle : few ≤ many)
    (h : Follows s many m stores r next) : Follows s few m stores r next :=
  ⟨h.value, h.ended, fun hends => h.answered (hends.mono hle)⟩

/-- There is nothing left to do. -/
theorem done {a : α} {w : World} (hm : m = next a w.vars) :
    Follows s n m w.stores ((pure a : Evaluation α) w) next where
  value h := by
    cases h
    exact ⟨[], (List.append_nil _).symm, hm ▸ .refl _⟩
  ended h := by cases h
  answered _ h := by cases h

/-- The next step ends the run. -/
theorem halt {o : Except Cause Float} {w : World} (h : Halts s m o) :
    Follows s n m w.stores ((finish o : Evaluation α) w) next where
  value h := by cases h
  ended heq := by
    cases heq
    exact ⟨[], m, (List.append_nil _).symm, .refl _, h⟩
  answered _ h := by cases h

/-- Nothing is claimed of a run that has no steps left, nor of a
computation without an answer. -/
theorem unanswered : Follows s 0 m stores (none : Option (Answer α × World)) next where
  value h := by cases h
  ended h := by cases h
  answered h := absurd h (not_endsWithin_zero m)

/-- One step, which may make a store. -/
theorem step {m₁ : Machine} {stored : Option Store} {r : Option (Answer α × World)}
    (hstep : m.step s = .ok (.running m₁ stored))
    (h : Follows s n m₁ (stores ++ stored.toList) r next) :
    Follows s (n + 1) m stores r next where
  value hr := by
    obtain ⟨t, ht, hsteps⟩ := h.value hr
    exact ⟨stored.toList ++ t, by rw [ht, List.append_assoc], .step hstep hsteps⟩
  ended hr := by
    obtain ⟨t, m', ht, hsteps, hhalts⟩ := h.ended hr
    exact ⟨stored.toList ++ t, m', by rw [ht, List.append_assoc], .step hstep hsteps, hhalts⟩
  answered hends := h.answered (hends.of_step hstep)

/-- One step that makes no store. -/
theorem quiet {m₁ : Machine} {r : Option (Answer α × World)}
    (hstep : m.step s = .ok (.quiet m₁)) (h : Follows s n m₁ stores r next) :
    Follows s (n + 1) m stores r next :=
  step hstep (by rw [Option.toList_none, List.append_nil]; exact h)

/-- One computation behind another. -/
theorem bind {mid : β → Frame → Machine} {x : Evaluation β} {f : β → Evaluation α}
    {w : World} (hx : Follows s n m stores (x w) mid)
    (hf : ∀ b w', Follows s n (mid b w'.vars) w'.stores (f b w') next) :
    Follows s n m stores ((x >>= f) w) next := by
  cases hxw : x w with
  | none =>
      rw [bind_of_none hxw]
      exact {
        value := fun h => by cases h
        ended := fun h => by cases h
        answered := fun hends => absurd hxw (hx.answered hends) }
  | some pair =>
      obtain ⟨answer, w'⟩ := pair
      cases answer with
      | ended o =>
          rw [bind_of_ended hxw]
          exact {
            value := fun h => by cases h
            ended := fun h => by cases h; exact hx.ended hxw
            answered := fun _ h => by cases h }
      | value b =>
          rw [bind_of_value hxw]
          obtain ⟨t, ht, hsteps⟩ := hx.value hxw
          have hrest := hf b w'
          refine { value := fun h => ?_, ended := fun h => ?_, answered := fun hends => ?_ }
          · obtain ⟨t', ht', hsteps'⟩ := hrest.value h
            exact ⟨t ++ t', by rw [ht', ht, List.append_assoc], hsteps.trans hsteps'⟩
          · obtain ⟨t', m', ht', hsteps', hhalts⟩ := hrest.ended h
            exact ⟨t ++ t', m', by rw [ht', ht, List.append_assoc],
              hsteps.trans hsteps', hhalts⟩
          · exact hrest.answered (hends.of_steps hsteps)

/-- A last step that makes no store changes nothing in what is computed. -/
theorem then_quiet {mid : α → Frame → Machine} {r : Option (Answer α × World)}
    (h : Follows s n m stores r mid)
    (hstep : ∀ a vars, (mid a vars).step s = .ok (.quiet (next a vars))) :
    Follows s n m stores r next where
  value hr := by
    obtain ⟨t, ht, hsteps⟩ := h.value hr
    have hlast := hsteps.trans (.step (hstep _ _) (.refl _))
    rw [Option.toList_none, List.append_nil, List.append_nil] at hlast
    exact ⟨t, ht, hlast⟩
  ended := h.ended
  answered := h.answered

end Follows

end Machine

end ExprGraph
