/-
Whole runs.

A run may be endless, so it is given the number of steps it may take;
`none` says that they did not suffice. A run that ends, ends the same way
under every larger number.
-/
import ExprGraph.Machine.Step

namespace ExprGraph

/-- What a run came to: its value or failure, and the stores made, in
order. Stores made before a failure count. -/
structure Outcome where
  result : Except Fault Float
  stores : List Store

namespace Machine

/-- The state before the first step of a run of `f`: its body is entered,
the run itself waits below. -/
def start (limit : Option Nat) (f : Function) (vars : Frame) : Except Cause Machine :=
  Machine.enter { task := .entry, phase := 0, agenda := { limit } } f vars 1

/-- Add the site to a failure. The site is an argument of its own, so it is
known before the step, and the step has the machine to itself. -/
@[noinline] def located {α : Type} (site : Site) : Except Cause α → Except Fault α
  | .ok a => .ok a
  | .error cause => .error ⟨cause, site⟩

/-- Step until the run ends, for at most `steps` steps. `stores` are those
already made, the latest first. -/
def run (s : Setting) : Nat → Machine → List Store → Option Outcome
  | 0, _, _ => none
  | steps + 1, m, stores =>
    match located m.site (m.step s) with
    | .error fault => some ⟨.error fault, stores.reverse⟩
    | .ok (.finished value) => some ⟨.ok value, stores.reverse⟩
    | .ok (.running next none) => run s steps next stores
    | .ok (.running next (some store)) => run s steps next (store :: stores)

/-- A run that ends, ends the same way when it may take more steps. -/
theorem run_add {s : Setting} {m : Machine} {stores : List Store} {steps : Nat} {o : Outcome}
    (h : m.run s steps stores = some o) (more : Nat) : m.run s (steps + more) stores = some o := by
  induction steps generalizing m stores with
  | zero => cases h
  | succ steps ih =>
    rw [Nat.succ_add]
    simp only [run] at h ⊢
    split at h <;> simp_all

/-- Stores made before do not influence what follows; they are reported in
front. -/
theorem run_stores (s : Setting) (m : Machine) (stores : List Store) (steps : Nat) :
    m.run s steps stores =
      (m.run s steps []).map fun o => { o with stores := stores.reverse ++ o.stores } := by
  induction steps generalizing m stores with
  | zero => rfl
  | succ steps ih =>
    simp only [run]
    split
    · simp
    · simp
    · exact ih _ _
    · rename_i next store _
      rw [ih next (store :: stores), ih next [store]]
      cases run s steps next [] <;> simp

end Machine

end ExprGraph
