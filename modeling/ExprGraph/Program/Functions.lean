/-
Functions: a parameter list and a body node, registered by name.

A definition is filed under its own name, and a later one replaces it. A
table restored from a stored form may file a definition under another key,
so nothing here relies on the two being equal.
-/
import ExprGraph.Expr
import Std.Data.ExtTreeMap

namespace ExprGraph

/-- A formal parameter: a scalar bound by value, or an array bound by
copy. -/
inductive Param where
  | scalar (var : VarId)
  | array (var : VarId)
deriving DecidableEq, Repr

def Param.var : Param → VarId
  | .scalar var | .array var => var

def Param.isArray : Param → Bool
  | .scalar _ => false
  | .array _ => true

/-- A function definition. -/
structure Function where
  name : String
  params : List Param
  body : ExprId
deriving DecidableEq, Repr

def Function.arity (f : Function) : Nat := f.params.length

/-- Definitions by name. -/
structure Functions where
  table : Std.ExtTreeMap String Function := ∅

namespace Functions

def empty : Functions := {}

def size (t : Functions) : Nat := t.table.size

/-- The definition filed under a name. -/
def get? (t : Functions) (name : String) : Option Function :=
  t.table[name]?

/-- File a definition under a key; yields the one it replaces. -/
def file (t : Functions) (key : String) (f : Function) : Option Function × Functions :=
  (t.get? key, ⟨t.table.insert key f⟩)

/-- File a definition under its own name. -/
def register (t : Functions) (f : Function) : Option Function × Functions :=
  t.file f.name f

/-- Keys and definitions, in order of the keys. -/
def toList (t : Functions) : List (String × Function) :=
  t.table.toList

-- ================================================================= look-up

/-- A definition is found under the key it was filed under, and the others
where they were. -/
theorem get?_file (t : Functions) (key other : String) (f : Function) :
    (t.file key f).2.get? other = if key = other then some f else t.get? other := by
  simp [file, get?, Std.ExtTreeMap.getElem?_insert]

/-- A definition that is found is the one registered last, or was there
before. -/
theorem register_cases {t : Functions} {f g : Function} {key : String}
    (h : (t.register f).2.get? key = some g) : key = f.name ∧ g = f ∨ t.get? key = some g := by
  rw [register, get?_file] at h
  by_cases hkey : f.name = key
  · rw [if_pos hkey] at h
    exact .inl ⟨hkey.symm, (Option.some.inj h).symm⟩
  · rw [if_neg hkey] at h
    exact .inr h

end Functions

end ExprGraph
