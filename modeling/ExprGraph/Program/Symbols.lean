/-
Declared variables. A variable is a name and a length; a length of one
makes it a scalar. Names need not be distinct: variables are told apart by
number.
-/
import ExprGraph.Expr

namespace ExprGraph

/-- A declared variable. -/
structure Symbol where
  name : String
  len : UInt32
deriving DecidableEq, Repr

/-- More than one element. -/
def Symbol.isArray (s : Symbol) : Bool := s.len > 1

/-- The declared length, as a count. -/
def Symbol.size (s : Symbol) : Nat := s.len.toNat

theorem Symbol.isArray_iff (s : Symbol) : s.isArray = true ↔ 1 < s.size := by
  unfold isArray size
  rw [decide_eq_true_iff]
  exact UInt32.lt_iff_toNat_lt

/-- The variables of a program, by number. -/
structure Symbols where
  entries : Array Symbol := #[]
deriving DecidableEq, Repr

namespace Symbols

def empty : Symbols := {}

def size (t : Symbols) : Nat := t.entries.size

/-- Every variable holds at least one value. -/
def lengthOf (len : UInt32) : UInt32 := max len 1

/-- Declare a new variable. -/
def declare (t : Symbols) (name : String) (len : UInt32) : VarId × Symbols :=
  (⟨t.entries.size.toUInt32⟩, ⟨t.entries.push ⟨name, lengthOf len⟩⟩)

/-- The variable with a number. -/
def get? (t : Symbols) (id : VarId) : Option Symbol :=
  t.entries[id.index]?

/-- Its name. -/
def name? (t : Symbols) (id : VarId) : Option String :=
  (t.get? id).map Symbol.name

/-- The first variable declared with this name and length. -/
def find? (t : Symbols) (name : String) (len : UInt32) : Option VarId :=
  (t.entries.findIdx? (· == ⟨name, len⟩)).map fun i => ⟨i.toUInt32⟩

/-- All variables with their numbers, in order. -/
def toList (t : Symbols) : List (VarId × Symbol) :=
  t.entries.toList.mapIdx fun i s => (⟨i.toUInt32⟩, s)

-- ================================================================= look-up

/-- A declared variable is found under its number. -/
theorem get?_declare_self (t : Symbols) (name : String) (len : UInt32)
    (room : t.size < UInt32.size) :
    (t.declare name len).2.get? (t.declare name len).1 = some ⟨name, lengthOf len⟩ := by
  simp only [size] at room
  simp [declare, get?, VarId.index, Nat.mod_eq_of_lt room]

/-- Variables declared before keep their numbers. -/
theorem get?_declare_of_some {t : Symbols} {id : VarId} {old : Symbol} (name : String)
    (len : UInt32) (h : t.get? id = some old) : (t.declare name len).2.get? id = some old := by
  have lt : id.index < t.entries.size := (Array.getElem?_eq_some_iff.mp h).1
  simpa only [declare, get?, Array.getElem?_push_lt lt, Array.getElem?_eq_getElem lt] using h

/-- The variable found has the name and the length. -/
theorem get?_of_find? {t : Symbols} {name : String} {len : UInt32} {id : VarId}
    (room : t.size ≤ UInt32.size) (h : t.find? name len = some id) :
    t.get? id = some ⟨name, len⟩ := by
  obtain ⟨i, found, rfl⟩ := Option.map_eq_some_iff.mp h
  obtain ⟨lt, same, -⟩ := Array.findIdx?_eq_some_iff_getElem.mp found
  have small : i < 4294967296 := Nat.lt_of_lt_of_le lt room
  simp only [get?, VarId.index, Nat.toUInt32_eq, UInt32.toNat_ofNat', Nat.reducePow,
    Nat.mod_eq_of_lt small]
  rw [Array.getElem?_eq_getElem lt]
  simpa using same

/-- None is found iff no variable has the name and the length. -/
theorem find?_eq_none_iff {t : Symbols} {name : String} {len : UInt32} :
    t.find? name len = none ↔ ⟨name, len⟩ ∉ t.entries := by
  simp only [find?, Option.map_eq_none_iff, Array.findIdx?_eq_none_iff, beq_eq_false_iff_ne]
  exact ⟨fun differ mem => differ _ mem rfl, fun absent s mem same => absent (same ▸ mem)⟩

/-- A variable declared anew is the first of its name and length, and
changes nothing for others. -/
theorem find?_declare {t : Symbols} {name : String} {len : UInt32}
    (absent : t.find? name (lengthOf len) = none) (other : String) (otherLen : UInt32) :
    (t.declare name len).2.find? other otherLen =
      if (name, lengthOf len) = (other, otherLen) then some (t.declare name len).1
      else t.find? other otherLen := by
  have same : ((⟨name, lengthOf len⟩ : Symbol) == ⟨other, otherLen⟩) = true
      ↔ (name, lengthOf len) = (other, otherLen) := by simp
  simp only [find?, declare, Array.findIdx?_push, same]
  by_cases key : (name, lengthOf len) = (other, otherLen)
  · cases key
    rw [if_pos rfl, if_pos rfl, Option.map_eq_none_iff.mp absent]
    rfl
  · rw [if_neg key, if_neg key, Option.or_none]

end Symbols

end ExprGraph
