/-
Programs of one shape.

Nothing but look-ups gives a node its number, so the nodes of a program
can be kept under other numbers, and equal nodes under one. A map that
takes every node a program uses to one of another program, which is the
same but for its children, and has the images of these, makes the other
mirror the one (`Program.Mirrors`). The other may hold more, as long as no
call can tell.

Images have the paths that nodes have, and no more: a path down from an
image is the image of a path (`Mirrors.path_of_image`), so what bounds the one
bounds the other.
-/
import ExprGraph.Proofs.Paths

namespace ExprGraph

-- ==================================================================== nodes

/-- A place with the image of its index. -/
def Place.rename (φ : ExprId → ExprId) : Place → Place
  | .scalar var => .scalar var
  | .element array index => .element array (φ index)

/-- A node with the images of its children. Those of a call are in a list
elsewhere. -/
def Expr.rename (φ : ExprId → ExprId) : Expr → Expr
  | .number value => .number value
  | .var name => .var name
  | .unary op operand => .unary op (φ operand)
  | .binary op left right => .binary op (φ left) (φ right)
  | .assign target value => .assign (target.rename φ) (φ value)
  | .index array slot => .index array (φ slot)
  | .ternary cond thenArm elseArm => .ternary (φ cond) (φ thenArm) (φ elseArm)
  | .step op target => .step op (target.rename φ)
  | .seq first second => .seq (φ first) (φ second)
  | .loop cond body => .loop (φ cond) (φ body)
  | .branch cond thenArm elseArm => .branch (φ cond) (φ thenArm) (φ elseArm)
  | .call callee args => .call callee args
  | .empty => .empty

/-- A function with the image of its body. -/
def Function.rename (φ : ExprId → ExprId) (f : Function) : Function :=
  { f with body := φ f.body }

namespace Program

/-- A node is used if it is the body of a function, or below one. -/
def Used (p : Program) (id : ExprId) : Prop :=
  ∃ key f, p.function? key = some f ∧ p.Reachable f.body id

variable (p q : Program) (φ : ExprId → ExprId)

/-- The second node is the image of the first: a call of the function with
the same name, on the images of its arguments, or the same but for its
children. -/
inductive Resembles : Expr → Expr → Prop where
  | plain {node : Expr} : (∀ callee args, node ≠ .call callee args) →
      Resembles node (node.rename φ)
  | call {callee callee' : NameId} {args args' : Span} {name : String} {ids : List ExprId} :
      p.names.text? callee = some name → q.names.text? callee' = some name →
      p.arena.list? args = some ids → q.arena.list? args' = some (ids.map φ) →
      Resembles (.call callee args) (.call callee' args')

/-- The second program has the shape of the first, under a map of the nodes
that the first uses. -/
structure Mirrors : Prop where
  symbols : q.symbols = p.symbols
  /-- All functions are there, under their keys. -/
  function : ∀ {key : String} {f : Function}, p.function? key = some f →
    q.function? key = some (f.rename φ)
  /-- There is no function for a call that has none. -/
  undefined : ∀ {id : ExprId} {callee : NameId} {args : Span} {name : String}, p.Used id →
    p.expr? id = some (.call callee args) → p.names.text? callee = some name →
    p.function? name = none → q.function? name = none
  /-- All nodes that are used are there, and are images. -/
  node : ∀ {id : ExprId}, p.Used id →
    ∃ node node', p.expr? id = some node ∧ q.expr? (φ id) = some node'
      ∧ p.Resembles q φ node node'

variable {p q φ} {a b id low : ExprId} {node node' : Expr} {path : List ExprId} {height : Nat}

theorem used_body {key : String} {f : Function} (h : p.function? key = some f) : p.Used f.body :=
  ⟨key, f, h, .refl _⟩

theorem Used.child (h : p.Used id) (hchild : p.IsChild low id) : p.Used low := by
  obtain ⟨key, f, hfound, hreach⟩ := h
  exact ⟨key, f, hfound, hreach.child hchild⟩

/-- What holds of all bodies, and of the children of a node it holds of,
holds of all nodes that are used. -/
theorem Used.induction {motive : ExprId → Prop} (h : p.Used id)
    (body : ∀ key f, p.function? key = some f → motive f.body)
    (child : ∀ {low id}, p.IsChild low id → motive id → motive low) : motive id := by
  obtain ⟨key, f, hfound, path, hpath⟩ := h
  have hbody := body key f hfound
  generalize f.body = root at hpath hbody
  induction hpath with
  | refl => exact hbody
  | down hchild _ ih => exact ih (child hchild hbody)

/-- The children of an image are the images of the children. -/
theorem Resembles.children (h : p.Resembles q φ node node') :
    q.children node' = (p.children node).map φ := by
  cases h with
  | plain hcall =>
      cases node with
      | assign target => cases target <;> rfl
      | step op target => cases target <;> rfl
      | call callee args => exact absurd rfl (hcall callee args)
      | _ => rfl
  | call _ _ hlist hlist' => rw [Program.children, Program.children, hlist, hlist']; rfl

-- ==================================================================== paths

theorem Mirrors.isChild_iff (h : p.Mirrors q φ) (hused : p.Used id) :
    q.IsChild b (φ id) ↔ ∃ child, p.IsChild child id ∧ b = φ child := by
  obtain ⟨node, node', hnode, hnode', hresembles⟩ := h.node hused
  have hchildren := hresembles.children
  constructor
  · rintro ⟨other, hother, hmem⟩
    cases hnode'.symm.trans hother
    rw [hchildren] at hmem
    obtain ⟨child, hchild, rfl⟩ := List.mem_map.mp hmem
    exact ⟨child, ⟨node, hnode, hchild⟩, rfl⟩
  · rintro ⟨child, ⟨other, hother, hmem⟩, rfl⟩
    cases hnode.symm.trans hother
    exact ⟨node', hnode', hchildren ▸ List.mem_map_of_mem hmem⟩

/-- A path down from an image is the image of a path. -/
theorem Mirrors.path_of_image (h : p.Mirrors q φ) (hused : p.Used a) (hpath : q.Path (φ a) path b) :
    ∃ path' b', p.Path a path' b' ∧ path = path'.map φ ∧ b = φ b' := by
  generalize hstart : φ a = start at hpath
  induction hpath generalizing a with
  | refl => exact ⟨[], a, .refl a, rfl, hstart.symm⟩
  | down hchild _ ih =>
      subst hstart
      obtain ⟨child, hdown, rfl⟩ := (h.isChild_iff hused).mp hchild
      obtain ⟨path', b', hpath, rfl, rfl⟩ := ih (hused.child hdown) rfl
      exact ⟨a :: path', b', .down hdown hpath, rfl, rfl⟩

/-- The image of a path is a path. -/
theorem Mirrors.image_path (h : p.Mirrors q φ) (hused : p.Used a) (hpath : p.Path a path b) :
    q.Path (φ a) (path.map φ) (φ b) := by
  induction hpath with
  | refl => exact .refl _
  | down hchild _ ih =>
      exact .down ((h.isChild_iff hused).mpr ⟨_, hchild, rfl⟩) (ih (hused.child hchild))

/-- Images are as high as nodes are. -/
theorem Mirrors.heightAtMost_iff (h : p.Mirrors q φ) (hused : p.Used a) :
    q.HeightAtMost (φ a) height ↔ p.HeightAtMost a height := by
  constructor
  · intro hheight path b hpath
    have hle := hheight _ _ (h.image_path hused hpath)
    rwa [List.length_map] at hle
  · intro hheight path b hpath
    obtain ⟨path', b', hpath', rfl, -⟩ := h.path_of_image hused hpath
    rw [List.length_map]
    exact hheight _ _ hpath'

/-- Without a cycle below a node there is none below its image. -/
theorem Mirrors.acyclic (h : p.Mirrors q φ) (hused : p.Used a) (hacyclic : p.Acyclic a) :
    q.Acyclic (φ a) := by
  obtain ⟨height, hheight⟩ := acyclic_iff_height.mp hacyclic
  exact ((h.heightAtMost_iff hused).mpr hheight).acyclic

end Program

end ExprGraph
