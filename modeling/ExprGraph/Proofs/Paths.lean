/-
Paths through the graph of a program.

A node refers to its children; those of a call are its arguments. A path
goes from a node down to one below it, through children of children, and
lists the nodes it leaves (`Program.Path`).

Nothing keeps a graph from having cycles. A graph without a cycle below a
node has no long paths there: they meet no node twice, so they leave at
most as many nodes as the arena has. Conversely a cycle makes paths of any
length. So to have no cycle and to have a height are the same
(`acyclic_iff_height`), and the size of the arena is a height.
-/
import ExprGraph.Program.Basic
import Mathlib.Data.List.Nodup

namespace ExprGraph

-- ================================================================ children

/-- The nodes a place refers to. -/
def Place.children : Place → List ExprId
  | .scalar _ => []
  | .element _ index => [index]

/-- The nodes that a node refers to itself; a call refers to a list of
them. -/
@[simp] def Expr.operands : Expr → List ExprId
  | .number _ | .var _ | .empty | .call .. => []
  | .unary _ operand => [operand]
  | .binary _ left right => [left, right]
  | .assign target value => value :: target.children
  | .index _ slot => [slot]
  | .step _ target => target.children
  | .ternary cond thenArm elseArm | .branch cond thenArm elseArm => [cond, thenArm, elseArm]
  | .seq first second => [first, second]
  | .loop cond body => [cond, body]

namespace Program

variable (p : Program)

/-- The nodes a node refers to, those of a call being its arguments. -/
@[simp] def children : Expr → List ExprId
  | .call _ args => (p.arena.list? args).getD []
  | node => node.operands

/-- One node refers to another, which need not exist. -/
def IsChild (child parent : ExprId) : Prop :=
  ∃ node, p.expr? parent = some node ∧ child ∈ p.children node

/-- Only nodes that exist have children. -/
theorem IsChild.parent_lt {p : Program} {child parent : ExprId} (h : p.IsChild child parent) :
    parent.index < p.arena.size := by
  obtain ⟨node, hnode, -⟩ := h
  exact (Array.getElem?_eq_some_iff.mp hnode).1

-- =================================================================== paths

/-- A path down from one node to another: the nodes it leaves, in order. -/
inductive Path : ExprId → List ExprId → ExprId → Prop where
  | refl (id : ExprId) : Path id [] id
  | down {parent child id : ExprId} {path : List ExprId} :
      p.IsChild child parent → Path child path id → Path parent (parent :: path) id

/-- A node is the other, or below it. -/
def Reachable (root id : ExprId) : Prop :=
  ∃ path, p.Path root path id

variable {p} {a b c root id low high : ExprId} {path path' : List ExprId}

theorem Path.trans (h : p.Path a path b) (h' : p.Path b path' c) :
    p.Path a (path ++ path') c := by
  induction h with
  | refl => exact h'
  | down hchild _ ih => exact .down hchild (ih h')

/-- A path may go on to a child. -/
theorem Path.snoc (h : p.Path root path high) (hchild : p.IsChild low high) :
    p.Path root (path ++ [high]) low :=
  h.trans (.down hchild (.refl low))

/-- A path can be cut at every node it leaves. -/
theorem Path.cut (h : p.Path root path c) (hmem : id ∈ path) :
    ∃ front back, path = front ++ id :: back ∧ p.Path root front id
      ∧ p.Path id (id :: back) c := by
  induction h with
  | refl => cases hmem
  | @down parent child c path hchild hpath ih =>
      rcases List.mem_cons.mp hmem with rfl | hmem
      · exact ⟨[], path, rfl, .refl _, .down hchild hpath⟩
      · obtain ⟨front, back, rfl, hfront, hback⟩ := ih hmem
        exact ⟨parent :: front, back, rfl, .down hchild hfront, hback⟩

/-- The nodes a path leaves exist. -/
theorem Path.lt_size (h : p.Path root path c) : ∀ id ∈ path, id.index < p.arena.size := by
  induction h with
  | refl => nofun
  | down hchild _ ih => exact List.forall_mem_cons.mpr ⟨hchild.parent_lt, ih⟩

theorem Reachable.refl (id : ExprId) : p.Reachable id id := ⟨[], .refl id⟩

theorem Reachable.child (h : p.Reachable root high) (hchild : p.IsChild low high) :
    p.Reachable root low := by
  obtain ⟨path, hpath⟩ := h
  exact ⟨_, hpath.snoc hchild⟩

-- ================================================================== cycles

variable (p)

/-- No node from `root` down is below itself. -/
def Acyclic (root : ExprId) : Prop :=
  ∀ id path, p.Reachable root id → p.Path id path id → path = []

/-- No path down from `root` has more than `height` edges. -/
def HeightAtMost (root : ExprId) (height : Nat) : Prop :=
  ∀ path id, p.Path root path id → path.length ≤ height

variable {p} {height : Nat}

/-- A path without a cycle below its start leaves no node twice. -/
theorem Acyclic.nodup (h : p.Acyclic root) (hpath : p.Path root path c) : path.Nodup := by
  suffices ∀ a, p.Reachable root a → p.Path a path c → path.Nodup from
    this root (.refl root) hpath
  clear hpath
  induction path with
  | nil => intro _ _ _; exact .nil
  | cons a path ih =>
      intro start hstart hpath
      cases hpath with
      | @down _ child _ _ hchild hpath =>
          refine List.nodup_cons.mpr ⟨fun hmem => ?_, ih child (hstart.child hchild) hpath⟩
          obtain ⟨front, back, -, hfront, -⟩ := hpath.cut hmem
          cases h a _ hstart (.down hchild hfront)

/-- Numbers of nodes are numbers. -/
theorem index_injective : Function.Injective ExprId.index :=
  fun ⟨_⟩ ⟨_⟩ h => congrArg ExprId.mk (UInt32.toNat_inj.mp h)

/-- Without a cycle, paths are no longer than the arena. -/
theorem Acyclic.heightAtMost (h : p.Acyclic root) : p.HeightAtMost root p.arena.size := by
  intro path id hpath
  have hnodup : (path.map ExprId.index).Nodup := (h.nodup hpath).map index_injective
  have hsub : path.map ExprId.index ⊆ List.range p.arena.size := by
    intro k hk
    obtain ⟨id, hid, rfl⟩ := List.mem_map.mp hk
    exact List.mem_range.mpr (hpath.lt_size id hid)
  have hle := hnodup.length_le_of_subset hsub
  rwa [List.length_map, List.length_range] at hle

/-- Going round a cycle makes paths of any length. -/
theorem Path.around (h : p.Path id path id) (hne : path ≠ []) (k : Nat) :
    ∃ long, p.Path id long id ∧ k ≤ long.length := by
  induction k with
  | zero => exact ⟨path, h, Nat.zero_le _⟩
  | succ k ih =>
      obtain ⟨long, hlong, hk⟩ := ih
      have hpos := List.length_pos_iff.mpr hne
      exact ⟨path ++ long, h.trans hlong, by rw [List.length_append]; omega⟩

theorem HeightAtMost.acyclic (h : p.HeightAtMost root height) : p.Acyclic root := by
  rintro id path ⟨front, hfront⟩ hpath
  refine Classical.byContradiction fun hne => ?_
  obtain ⟨long, hlong, hlength⟩ := hpath.around hne (height + 1)
  have hle := h _ _ (hfront.trans hlong)
  rw [List.length_append] at hle
  omega

/-- There is no cycle below a node iff the paths down from it are
bounded. -/
theorem acyclic_iff_height : p.Acyclic root ↔ ∃ height, p.HeightAtMost root height :=
  ⟨fun h => ⟨_, h.heightAtMost⟩, fun ⟨_, h⟩ => h.acyclic⟩

/-- A child has a height of at least one less. -/
theorem HeightAtMost.child (h : p.HeightAtMost root height) (hchild : p.IsChild low root) :
    ∃ less, height = less + 1 ∧ p.HeightAtMost low less := by
  have hone := h _ _ (.down hchild (.refl low))
  obtain ⟨less, rfl⟩ := Nat.exists_eq_add_of_le' hone
  refine ⟨less, rfl, fun path id hpath => ?_⟩
  exact Nat.le_of_succ_le_succ (h _ _ (.down hchild hpath))

/-- A node is no more than one higher than its children. -/
theorem HeightAtMost.of_children {node : Expr} (hnode : p.expr? root = some node)
    (h : ∀ child ∈ p.children node, ∃ less, height = less + 1 ∧ p.HeightAtMost child less) :
    p.HeightAtMost root height := by
  intro path id hpath
  cases hpath with
  | refl => exact Nat.zero_le _
  | down hchild hpath =>
      obtain ⟨node', hnode', hmem⟩ := hchild
      rw [hnode] at hnode'
      cases hnode'
      obtain ⟨less, rfl, hless⟩ := h _ hmem
      exact Nat.succ_le_succ (hless _ _ hpath)

end Program

end ExprGraph
