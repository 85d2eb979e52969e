/-
Runs as sequences of steps.

`Machine.run` counts down a number of steps and answers only at the end
of a run. Here a stretch of a run is a relation between two states, with
the stores made between them, so that the stretch that evaluates one node
can be cut out and put together with others. `run_of_steps` goes from
stretches back to `Machine.run`, and `Halts` says what a state is whose
next step is the last.
-/
import ExprGraph.Interpreter

namespace ExprGraph

namespace Machine

variable {s : Setting}

-- ============================================================== stretches

/-- The run goes from one state to another, making these stores. -/
inductive Steps (s : Setting) : Machine → List Store → Machine → Prop where
  | refl (m : Machine) : Steps s m [] m
  | step {m m₁ m₂ : Machine} {stored : Option Store} {t : List Store} :
      m.step s = .ok (.running m₁ stored) → Steps s m₁ t m₂ →
      Steps s m (stored.toList ++ t) m₂

/-- Stretches one after the other, with the stores of both. -/
theorem Steps.trans {m m₁ m₂ : Machine} {t t' : List Store}
    (hleft : Steps s m t m₁) (hright : Steps s m₁ t' m₂) :
    Steps s m (t ++ t') m₂ := by
  induction hleft with
  | refl => exact hright
  | step hstep _ ih =>
      rw [List.append_assoc]
      exact .step hstep (ih hright)

/-- The next step ends the run, by a failure or with the value of the
run. -/
def Halts (s : Setting) (m : Machine) : Except Cause Float → Prop
  | .error cause => m.step s = .error cause
  | .ok value => m.step s = .ok (.finished value)

-- =================================================== stretches and runs

/-- A run fails with its step, at the site of the state. -/
theorem run_of_error {m : Machine} {cause : Cause} (h : m.step s = .error cause)
    (steps : Nat) (stores : List Store) :
    m.run s (steps + 1) stores = some ⟨.error ⟨cause, m.site⟩, stores.reverse⟩ := by
  rw [run, h]
  rfl

/-- A run ends with its step. -/
theorem run_of_finished {m : Machine} {value : Float}
    (h : m.step s = .ok (.finished value)) (steps : Nat) (stores : List Store) :
    m.run s (steps + 1) stores = some ⟨.ok value, stores.reverse⟩ := by
  rw [run, h]
  rfl

/-- A run goes on with the state that its step leads to, the store noted in
front. -/
theorem run_of_running {m m₁ : Machine} {stored : Option Store}
    (h : m.step s = .ok (.running m₁ stored)) (steps : Nat) (stores : List Store) :
    m.run s (steps + 1) stores = m₁.run s steps (stored.toList ++ stores) := by
  rw [run, h]
  cases stored <;> rfl

/-- The run comes to an end within so many steps. -/
def EndsWithin (s : Setting) (steps : Nat) (m : Machine) : Prop :=
  m.run s steps [] ≠ none

theorem not_endsWithin_zero (m : Machine) : ¬EndsWithin s 0 m :=
  fun h => h rfl

/-- A run that ends within few steps ends within many. -/
theorem EndsWithin.mono {m : Machine} {few many : Nat} (hle : few ≤ many)
    (h : EndsWithin s few m) : EndsWithin s many m := by
  obtain ⟨out, hout⟩ := Option.ne_none_iff_exists'.mp h
  obtain ⟨more, rfl⟩ := Nat.exists_eq_add_of_le hle
  unfold EndsWithin
  rw [run_add hout]
  exact Option.some_ne_none out

/-- One step of a run that ends leaves one step less to the rest. -/
theorem EndsWithin.of_step {m m₁ : Machine} {stored : Option Store} {steps : Nat}
    (hstep : m.step s = .ok (.running m₁ stored))
    (h : EndsWithin s (steps + 1) m) : EndsWithin s steps m₁ := by
  unfold EndsWithin at h ⊢
  rw [run_of_running hstep, run_stores] at h
  intro hnone
  rw [hnone] at h
  exact h rfl

/-- A run that ends in time does so from every state on the way. -/
theorem EndsWithin.of_steps {m m' : Machine} {t : List Store} {steps : Nat}
    (hsteps : Steps s m t m') (h : EndsWithin s steps m) :
    EndsWithin s steps m' := by
  induction hsteps with
  | refl => exact h
  | step hstep _ ih =>
      cases steps with
      | zero => exact absurd h (not_endsWithin_zero _)
      | succ steps =>
          exact ih ((EndsWithin.of_step hstep h).mono (Nat.le_succ steps))

/-- A stretch that leads to the last step is a whole run: its outcome has
the stores of the stretch. -/
theorem run_of_steps {m m' : Machine} {t : List Store} {o : Except Cause Float}
    (hsteps : Steps s m t m') (hhalts : Halts s m' o) :
    ∃ steps out, m.run s steps [] = some out
      ∧ out.result.mapError Fault.cause = o ∧ out.stores = t := by
  induction hsteps with
  | refl m =>
      cases o with
      | error cause => exact ⟨1, _, run_of_error hhalts 0 [], rfl, rfl⟩
      | ok value => exact ⟨1, _, run_of_finished hhalts 0 [], rfl, rfl⟩
  | @step m m₁ m₂ stored t hstep _ ih =>
      obtain ⟨steps, out, hrun, hresult, hstores⟩ := ih hhalts
      refine ⟨steps + 1, { out with stores := stored.toList ++ t }, ?_, hresult, rfl⟩
      rw [run_of_running hstep, run_stores, hrun, ← hstores]
      cases stored <;> rfl

/-- A run has one outcome, however many steps it may take. -/
theorem run_unique {m : Machine} {steps steps' : Nat} {out out' : Outcome}
    (h : m.run s steps [] = some out) (h' : m.run s steps' [] = some out') :
    out = out' := by
  have hmore := run_add h steps'
  rw [Nat.add_comm, run_add h' steps] at hmore
  exact (Option.some.inj hmore).symm

end Machine

end ExprGraph
