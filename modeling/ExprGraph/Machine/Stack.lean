/-
The machine's two stacks of plain data: unfinished nodes, and values.

An unfinished node is kept with the phase it goes on with. The number of
unfinished nodes may be bounded; reaching the bound is a failure of the
push, before anything changes. The count is carried along, with the proof
that it is the length, so that checking the bound costs nothing.
-/
import ExprGraph.Fault

namespace ExprGraph

-- ======================================================== unfinished nodes

/-- What the machine works on: a node, or the start of the run, which
waits for the entry function to return. -/
inductive Task where
  | entry
  | expr (id : ExprId)
deriving DecidableEq, Repr

/-- A task to go on with, and the phase to go on in. -/
structure Pending where
  phase : Nat
  task : Task
deriving DecidableEq, Repr

/-- Unfinished tasks, the latest first, and the most that may wait. -/
structure Agenda where
  limit : Option Nat := none
  entries : List Pending := []
  depth : Nat := entries.length
  depth_eq : depth = entries.length := by rfl

namespace Agenda

/-- Whether one more task may wait. -/
def hasRoom (a : Agenda) : Bool :=
  match a.limit with
  | none => true
  | some limit => a.depth < limit

/-- The failure of a push beyond the bound. -/
def overflow (a : Agenda) : Cause :=
  .depthLimit (a.limit.getD 0)

def push (a : Agenda) (p : Pending) : Except Cause Agenda :=
  if a.hasRoom then
    .ok ⟨a.limit, p :: a.entries, a.depth + 1, by simp [a.depth_eq]⟩
  else
    .error a.overflow

def pop : Agenda → Option (Pending × Agenda)
  | ⟨_, [], _, _⟩ => none
  | ⟨limit, p :: rest, depth, h⟩ => some (p, ⟨limit, rest, depth - 1, by simp [h]⟩)

theorem entries_of_push {a b : Agenda} {p : Pending} (h : a.push p = .ok b) :
    b.entries = p :: a.entries ∧ b.limit = a.limit := by
  simp only [push] at h
  split at h <;> cases h
  exact ⟨rfl, rfl⟩

theorem entries_of_pop {a b : Agenda} {p : Pending} (h : a.pop = some (p, b)) :
    a.entries = p :: b.entries ∧ b.limit = a.limit := by
  obtain ⟨limit, entries, depth, depth_eq⟩ := a
  cases entries with
  | nil => cases h
  | cons q rest =>
    simp only [pop, Option.some.injEq, Prod.mk.injEq] at h
    obtain ⟨rfl, rfl⟩ := h
    exact ⟨rfl, rfl⟩

theorem pop_eq_none_iff (a : Agenda) : a.pop = none ↔ a.entries = [] := by
  obtain ⟨limit, entries, depth, depth_eq⟩ := a
  cases entries <;> simp [pop]

end Agenda

-- ================================================================== values

/-- Values of finished nodes, the latest first. -/
abbrev Values := List Float

namespace Values

/-- Take the latest value. -/
def pop : Values → Except Cause (Float × Values)
  | [] => .error (.broken .valueUnderflow)
  | value :: rest => .ok (value, rest)

/-- The latest value. -/
def peek : Values → Except Cause Float
  | [] => .error (.broken .valueUnderflow)
  | value :: _ => .ok value

end Values

end ExprGraph
