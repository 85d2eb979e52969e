/-
The variables of one call.

A frame is two independent maps, for scalars and for arrays: a number may
be in both without the two meeting. Scalars appear when they are first
written. Arrays appear when they are first touched, filled with zeros, and
then keep their length; before that they read as zeros.

The only failure is an array too large to be addressed, and it changes
nothing.
-/
import ExprGraph.Fault
import Std.Data.ExtTreeMap

namespace ExprGraph

/-- Values of scalars and of arrays, by variable. -/
structure Frame where
  scalars : Std.ExtTreeMap VarId Float := ∅
  arrays : Std.ExtTreeMap VarId (Array Float) := ∅

namespace Frame

def empty : Frame := {}

-- ================================================================= scalars

/-- The value of a scalar, if it was written. -/
def scalar? (f : Frame) (var : VarId) : Option Float :=
  f.scalars[var]?

/-- Write a scalar. -/
def setScalar (f : Frame) (var : VarId) (value : Float) : Frame :=
  { f with scalars := f.scalars.insert var value }

-- ================================================================== arrays

/-- The most bytes one array may take. -/
def maxBytes : Nat := Nat.pow 2 63 - 1

/-- The bytes of one element. -/
def elementBytes : Nat := 8

/-- A new array of zeros, unless it is too large to be addressed. -/
def zeros (len : Nat) : Except Cause (Array Float) :=
  if len * elementBytes ≤ maxBytes then
    .ok (Array.replicate len 0.0)
  else
    .error (.outOfMemory "array")

/-- The contents of an array, if it exists. -/
def array? (f : Frame) (var : VarId) : Option (Array Float) :=
  f.arrays[var]?

/-- Put an array in place of whatever was there. -/
def putArray (f : Frame) (var : VarId) (values : Array Float) : Frame :=
  { f with arrays := f.arrays.insert var values }

/-- The contents of an array; `len` zeros if it was never touched. -/
def snapshot (f : Frame) (var : VarId) (len : Nat) : Except Cause (Array Float) :=
  match f.array? var with
  | some values => .ok values
  | none => zeros len

/-- Touch an array: the frame in which it exists. -/
def touch (f : Frame) (var : VarId) (len : Nat) : Except Cause Frame :=
  if (f.array? var).isSome then .ok f else (zeros len).map (f.putArray var)

-- ================================================================ elements

/-- An element of an array that exists. -/
def element? (f : Frame) (var : VarId) (slot : Nat) : Option Float :=
  (f.array? var).bind (·[slot]?)

/-- Write an element. An array that does not exist, or is too short, is
left alone. -/
def setElement (f : Frame) (var : VarId) (slot : Nat) (value : Float) : Frame :=
  { f with arrays := f.arrays.modify var (·.setIfInBounds slot value) }

-- ================================================================ equality

/-- Frames are compared entry by entry, values as numbers. -/
instance : BEq Frame where
  beq f g := f.scalars.toList == g.scalars.toList && f.arrays.toList == g.arrays.toList

-- ============================================================ independence

/-- A scalar reads what was written last. -/
theorem scalar?_setScalar (f : Frame) (var other : VarId) (value : Float) :
    (f.setScalar var value).scalar? other = if var = other then some value else f.scalar? other := by
  simp [setScalar, scalar?, Std.ExtTreeMap.getElem?_insert]

/-- Scalars do not see what becomes of arrays. -/
theorem scalar?_putArray (f : Frame) (array other : VarId) (values : Array Float) :
    (f.putArray array values).scalar? other = f.scalar? other := rfl

/-- Arrays do not see what becomes of scalars. -/
theorem array?_setScalar (f : Frame) (var other : VarId) (value : Float) :
    (f.setScalar var value).array? other = f.array? other := rfl

/-- An array reads what was put in place last. -/
theorem array?_putArray (f : Frame) (array other : VarId) (values : Array Float) :
    (f.putArray array values).array? other =
      if array = other then some values else f.array? other := by
  simp [putArray, array?, Std.ExtTreeMap.getElem?_insert]

/-- Zeros come in the length that was asked for. -/
theorem size_of_zeros {len : Nat} {values : Array Float} (h : zeros len = .ok values) :
    values.size = len := by
  simp only [zeros] at h
  split at h <;> cases h
  simp

theorem scalar?_setElement (f : Frame) (array other : VarId) (slot : Nat) (value : Float) :
    (f.setElement array slot value).scalar? other = f.scalar? other := rfl

/-- Writing an element changes one array, and not its length. -/
theorem array?_setElement (f : Frame) (array other : VarId) (slot : Nat) (value : Float) :
    (f.setElement array slot value).array? other =
      if array = other then (f.array? other).map (·.setIfInBounds slot value)
      else f.array? other := by
  simp only [setElement, array?, Std.ExtTreeMap.getElem?_modify, Std.compare_eq_iff_eq]
  split
  · subst_vars; rfl
  · rfl

/-- Touching fails where a snapshot fails, and shows the same. -/
theorem snapshot_eq_touch (f : Frame) (var : VarId) (len : Nat) :
    f.snapshot var len = (f.touch var len).map fun f => (f.array? var).getD #[] := by
  simp only [touch, snapshot]
  cases found : f.array? var with
  | some values => simp [Except.map, found]
  | none => cases zeros len <;> simp [Except.map, array?_putArray]

/-- Touching changes no scalar. -/
theorem scalar?_touch {f f' : Frame} {var : VarId} {len : Nat} (h : f.touch var len = .ok f')
    (other : VarId) : f'.scalar? other = f.scalar? other := by
  simp only [touch] at h
  split at h
  · cases h; rfl
  · cases fresh : zeros len with
    | error cause => simp [fresh, Except.map] at h
    | ok zeroed =>
      simp only [fresh, Except.map, Except.ok.injEq] at h
      subst h
      rfl

/-- Touching changes no array but the one touched. -/
theorem array?_touch_of_ne {f f' : Frame} {var other : VarId} {len : Nat}
    (h : f.touch var len = .ok f') (ne : var ≠ other) : f'.array? other = f.array? other := by
  simp only [touch] at h
  split at h
  · cases h; rfl
  · cases fresh : zeros len with
    | error cause => simp [fresh, Except.map] at h
    | ok zeroed =>
      simp only [fresh, Except.map, Except.ok.injEq] at h
      subst h
      simp [array?_putArray, ne]

/-- What was touched reads as its snapshot did. -/
theorem array?_touch_self {f f' : Frame} {var : VarId} {len : Nat} (h : f.touch var len = .ok f') :
    f.snapshot var len = .ok ((f'.array? var).getD #[]) := by
  rw [snapshot_eq_touch, h]
  rfl

/-- An array that exists is left as it is. -/
theorem touch_of_isSome {f : Frame} {var : VarId} (h : (f.array? var).isSome = true) (len : Nat) :
    f.touch var len = .ok f :=
  if_pos h

/-- The array touched has the contents it had, or zeros. -/
theorem array?_touch {f f' : Frame} {var : VarId} {len : Nat} (h : f.touch var len = .ok f') :
    f'.array? var = some ((f.array? var).getD (Array.replicate len 0.0)) := by
  simp only [touch] at h
  split at h
  · rename_i found
    cases h
    obtain ⟨values, found⟩ := Option.isSome_iff_exists.mp found
    rw [found, Option.getD_some]
  · rename_i absent
    have none_there := Option.not_isSome_iff_eq_none.mp absent
    simp only [zeros] at h
    split at h
    · cases h
      rw [array?_putArray, if_pos rfl, none_there, Option.getD_none]
    · cases h

/-- An array that was touched stays as it is when it is touched again. -/
theorem touch_touch {f f' : Frame} {var : VarId} {len : Nat} (h : f.touch var len = .ok f')
    (len' : Nat) : f'.touch var len' = .ok f' :=
  touch_of_isSome (by rw [array?_touch h]; rfl) len'

end Frame

end ExprGraph
