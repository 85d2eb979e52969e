/-
Reading and writing the variables of a call.

Every access goes through the declaration first. An index is a number like
any other: it addresses the slot it truncates to, and is checked against
the declared length before anything is written. Every write comes with its
report.
-/
import ExprGraph.Frame
import ExprGraph.Program.Basic
import ExprGraph.Trace

namespace ExprGraph

-- =================================================================== slots

/-- The largest index that is not rejected outright. -/
def maxIndex : Float := 4294967295.0

/-- The slot an index addresses in an array. -/
def Symbol.slot (s : Symbol) (index : Float) : Except Cause Nat :=
  if index.isNaN then
    .error (.invalidIndex s.name)
  else if index < 0.0 then
    .error (.negativeIndex s.name index)
  else if index > maxIndex then
    .error (.indexTooLarge s.name index)
  else
    let slot := index.toUInt64.toNat
    if slot < s.size then .ok slot else .error (.indexOutOfBounds s.name slot s.size)

/-- An element as an index addresses it: the array, its declaration and
the slot. -/
structure Cell where
  array : VarId
  symbol : Symbol
  slot : Nat

namespace Program

/-- The declaration of a variable. -/
def symbol (p : Program) (var : VarId) : Except Cause Symbol :=
  match p.symbols.get? var with
  | some s => .ok s
  | none => .error (.unknownVariable var)

/-- The element that `index` addresses. -/
def cell (p : Program) (array : VarId) (index : Float) : Except Cause Cell := do
  let s ← p.symbol array
  let slot ← s.slot index
  return ⟨array, s, slot⟩

end Program

namespace Frame

-- ================================================================= scalars

/-- The value of a scalar. -/
def readScalar (p : Program) (f : Frame) (var : VarId) : Except Cause Float := do
  let s ← p.symbol var
  match f.scalar? var with
  | some value => return value
  | none => throw (.uninitialized s.name)

/-- Write a scalar. -/
def storeScalar (p : Program) (f : Frame) (var : VarId) (value : Float) :
    Except Cause (Store × Frame) := do
  let s ← p.symbol var
  return (.scalar var s.name value, f.setScalar var value)

-- ================================================================ elements

/-- The failure of an access to an array shorter than its declaration. -/
def tooShort (c : Cell) : Cause :=
  .broken (.shortArray c.symbol.name)

/-- The value of an element; its array exists afterwards. -/
def readCell (f : Frame) (c : Cell) : Except Cause (Float × Frame) := do
  let f ← f.touch c.array c.symbol.size
  match f.element? c.array c.slot with
  | some value => return (value, f)
  | none => throw (tooShort c)

/-- Write an element. -/
def storeCell (f : Frame) (c : Cell) (value : Float) : Except Cause (Store × Frame) := do
  let f ← f.touch c.array c.symbol.size
  if (f.element? c.array c.slot).isSome then
    return (.element c.array c.symbol.name c.slot value, f.setElement c.array c.slot value)
  else
    throw (tooShort c)

end Frame

-- ========================================================= what was accessed

theorem Program.symbol_eq_ok_iff {p : Program} {var : VarId} {s : Symbol} :
    p.symbol var = .ok s ↔ p.symbols.get? var = some s := by
  unfold Program.symbol
  cases found : p.symbols.get? var <;> simp

/-- A slot is below the declared length. -/
theorem Symbol.lt_of_slot {s : Symbol} {index : Float} {slot : Nat}
    (h : s.slot index = .ok slot) : slot < s.size := by
  unfold Symbol.slot at h
  split at h
  · cases h
  · split at h
    · cases h
    · split at h
      · cases h
      · dsimp only at h
        split at h
        · cases h
          assumption
        · cases h

/-- A cell names a declared array and a slot in it. -/
structure Cell.In (c : Cell) (p : Program) : Prop where
  declared : p.symbols.get? c.array = some c.symbol
  slot_lt : c.slot < c.symbol.size

theorem Program.cell_eq_ok {p : Program} {array : VarId} {index : Float} {c : Cell}
    (h : p.cell array index = .ok c) : c.In p := by
  obtain ⟨s, found, h⟩ := bind_eq_ok.mp h
  obtain ⟨slot, within, h⟩ := bind_eq_ok.mp h
  cases h
  exact ⟨Program.symbol_eq_ok_iff.mp found, Symbol.lt_of_slot within⟩

namespace Frame

variable {p : Program} {f g : Frame} {c : Cell}

theorem storeScalar_eq_ok {var : VarId} {value : Float} {store : Store}
    (h : f.storeScalar p var value = .ok (store, g)) :
    ∃ s, p.symbols.get? var = some s ∧ store = .scalar var s.name value
      ∧ g = f.setScalar var value := by
  obtain ⟨s, found, h⟩ := bind_eq_ok.mp h
  cases h
  exact ⟨s, Program.symbol_eq_ok_iff.mp found, rfl, rfl⟩

/-- Reading an element does no more than touch its array. -/
theorem readCell_eq_ok {value : Float} (h : f.readCell c = .ok (value, g)) :
    f.touch c.array c.symbol.size = .ok g ∧ g.element? c.array c.slot = some value := by
  obtain ⟨f', touched, h⟩ := bind_eq_ok.mp h
  cases found : f'.element? c.array c.slot with
  | none => rw [found] at h; cases h
  | some read =>
    rw [found] at h
    cases h
    exact ⟨touched, found⟩

theorem storeCell_eq_ok {value : Float} {store : Store} (h : f.storeCell c value = .ok (store, g)) :
    ∃ f', f.touch c.array c.symbol.size = .ok f'
      ∧ (f'.element? c.array c.slot).isSome = true
      ∧ store = .element c.array c.symbol.name c.slot value
      ∧ g = f'.setElement c.array c.slot value := by
  obtain ⟨f', touched, h⟩ := bind_eq_ok.mp h
  split at h
  · rename_i found
    cases h
    exact ⟨f', touched, found, rfl, rfl⟩
  · cases h

end Frame

end ExprGraph
