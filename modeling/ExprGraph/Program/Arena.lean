/-
Storage of nodes and argument lists.

Both stores only grow, so a node's number and the span of a list stay good
for ever. Reading is total: a number or a span that was never handed out
yields `none`.
-/
import ExprGraph.Expr

namespace ExprGraph

/-- Nodes by number, and the argument lists of all calls end to end. -/
structure Arena where
  nodes : Array Expr := #[]
  lists : Array ExprId := #[]

namespace Arena

def empty : Arena := {}

def size (a : Arena) : Nat := a.nodes.size

-- ================================================================= growing

/-- Store a node under the next number. -/
def alloc (a : Arena) (node : Expr) : ExprId × Arena :=
  (⟨a.nodes.size.toUInt32⟩, { a with nodes := a.nodes.push node })

/-- Store an argument list behind the others. -/
def allocList (a : Arena) (ids : List ExprId) : Span × Arena :=
  (⟨a.lists.size.toUInt32, ids.length.toUInt32⟩, { a with lists := a.lists ++ ids.toArray })

-- ================================================================= reading

/-- The node with a number. -/
def get? (a : Arena) (id : ExprId) : Option Expr :=
  a.nodes[id.index]?

/-- The entries of a span, if all of them exist. An empty span is good up
to the end of the storage. -/
def list? (a : Arena) (span : Span) : Option (List ExprId) :=
  let start := span.start.toNat
  let stop := start + span.len.toNat
  if stop ≤ a.lists.size then
    some (a.lists.extract start stop).toList
  else
    none

-- ================================================================ stability

/-- A node is found under the number it was given. -/
theorem get?_alloc_self (a : Arena) (node : Expr) (room : a.size < UInt32.size) :
    (a.alloc node).2.get? (a.alloc node).1 = some node := by
  simp only [size] at room
  simp [alloc, get?, ExprId.index, Nat.mod_eq_of_lt room]

/-- Nodes stored before keep their numbers. -/
theorem get?_alloc_of_some {a : Arena} {id : ExprId} {old : Expr} (node : Expr)
    (h : a.get? id = some old) : (a.alloc node).2.get? id = some old := by
  have lt : id.index < a.nodes.size := (Array.getElem?_eq_some_iff.mp h).1
  simpa only [alloc, get?, Array.getElem?_push_lt lt, Array.getElem?_eq_getElem lt] using h

/-- An argument list is found under the span it was given. -/
theorem list?_allocList_self (a : Arena) (ids : List ExprId)
    (room : a.lists.size + ids.length < UInt32.size) :
    (a.allocList ids).2.list? (a.allocList ids).1 = some ids := by
  have start : a.lists.size < 4294967296 := Nat.lt_of_le_of_lt (Nat.le_add_right _ _) room
  have len : ids.length < 4294967296 := Nat.lt_of_le_of_lt (Nat.le_add_left _ _) room
  simp [allocList, list?, Nat.mod_eq_of_lt start, Nat.mod_eq_of_lt len]

/-- Argument lists stored before keep their spans. -/
theorem list?_allocList_of_some {a : Arena} {span : Span} {old : List ExprId} (ids : List ExprId)
    (h : a.list? span = some old) : (a.allocList ids).2.list? span = some old := by
  simp only [list?] at h ⊢
  split at h
  · rename_i le
    have le' : span.start.toNat + span.len.toNat ≤ (a.allocList ids).2.lists.size := by
      simp [allocList]; omega
    rw [if_pos le', ← h]
    simp [allocList, Array.extract_append, Nat.sub_eq_zero_of_le le]
  · cases h

end Arena

end ExprGraph
