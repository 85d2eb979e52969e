/-
A program in the making, assembled node by node.

Variables are declared by name and length, and asking twice for the same
pair yields the same variable, so every function can write `result`
without sharing numbers. The draft keeps the pairs it declared in a map;
what the map says is what a search of the table would find
(`Draft.Mirrored`). Children are given by number, so they exist before
their parents.

Each operation answers what was made and the grown program. A draft is a
program all along: there is nothing to finish.
-/
import ExprGraph.Program.Basic

namespace ExprGraph

/-- Variables by name and length. -/
abbrev VarTable := Std.ExtTreeMap (String × UInt32) VarId lexOrd.compare

/-- A program in the making, and the variables declared for it. -/
structure Draft where
  program : Program := {}
  vars : VarTable := ∅

namespace Draft

def empty : Draft := {}

-- ============================================================ declarations

/-- The variable with this name and length, declared if it is new. -/
def array (d : Draft) (name : String) (len : UInt32) : VarId × Draft :=
  match d.vars[(name, Symbols.lengthOf len)]? with
  | some id => (id, d)
  | none =>
    let (id, symbols) := d.program.symbols.declare name len
    (id, ⟨{ d.program with symbols }, d.vars.insert (name, Symbols.lengthOf len) id⟩)

/-- The scalar with this name, declared if it is new. -/
def scalar (d : Draft) (name : String) : VarId × Draft :=
  d.array name 1

/-- Intern a text. -/
def name (d : Draft) (text : String) : NameId × Draft :=
  let (id, names) := d.program.names.intern text
  (id, { d with program := { d.program with names } })

/-- Register a function; yields the definition it replaces. -/
def function (d : Draft) (f : Function) : Option Function × Draft :=
  let (replaced, functions) := d.program.functions.register f
  (replaced, { d with program := { d.program with functions } })

-- =================================================================== nodes

/-- Store a node. -/
def alloc : Draft → Expr → ExprId × Draft
  -- taken apart first, so that the arena is not shared while it grows
  | ⟨⟨arena, names, symbols, functions⟩, vars⟩, node =>
    let (id, arena) := arena.alloc node
    (id, ⟨{ arena, names, symbols, functions }, vars⟩)

/-- A literal. -/
def number (d : Draft) (value : Float) : ExprId × Draft :=
  d.alloc (.number value)

/-- A read of the scalar `name`, declared if it is new. -/
def read (d : Draft) (name : String) : ExprId × Draft :=
  let (var, d) := d.scalar name
  d.alloc (.var var)

/-- A bare reference to a variable; an array is passed this way. -/
def reference (d : Draft) (var : VarId) : ExprId × Draft :=
  d.alloc (.var var)

/-- A statement that does nothing. -/
def emptyStatement (d : Draft) : ExprId × Draft :=
  d.alloc .empty

def unary (d : Draft) (op : UnaryOp) (operand : ExprId) : ExprId × Draft :=
  d.alloc (.unary op operand)

def binary (d : Draft) (op : BinaryOp) (left right : ExprId) : ExprId × Draft :=
  d.alloc (.binary op left right)

def ternary (d : Draft) (cond thenArm elseArm : ExprId) : ExprId × Draft :=
  d.alloc (.ternary cond thenArm elseArm)

/-- An assignment to the scalar `name`, declared if it is new. -/
def assign (d : Draft) (name : String) (value : ExprId) : ExprId × Draft :=
  let (var, d) := d.scalar name
  d.alloc (.assign (.scalar var) value)

def assignElement (d : Draft) (array : VarId) (index value : ExprId) : ExprId × Draft :=
  d.alloc (.assign (.element array index) value)

def index (d : Draft) (array : VarId) (index : ExprId) : ExprId × Draft :=
  d.alloc (.index array index)

def step (d : Draft) (op : StepOp) (target : Place) : ExprId × Draft :=
  d.alloc (.step op target)

def seq (d : Draft) (first second : ExprId) : ExprId × Draft :=
  d.alloc (.seq first second)

/-- Statements in order, joined from the left; an empty block is an empty
statement, a block of one is that statement. -/
def block (d : Draft) : List ExprId → ExprId × Draft
  | [] => d.emptyStatement
  | first :: rest => rest.foldl (fun (done, d) next => d.seq done next) (first, d)

def loop (d : Draft) (cond body : ExprId) : ExprId × Draft :=
  d.alloc (.loop cond body)

def branch (d : Draft) (cond thenArm elseArm : ExprId) : ExprId × Draft :=
  d.alloc (.branch cond thenArm elseArm)

/-- A branch whose other arm does nothing. -/
def guard (d : Draft) (cond thenArm : ExprId) : ExprId × Draft :=
  let (elseArm, d) := d.emptyStatement
  d.branch cond thenArm elseArm

/-- A call of the function named `callee`. -/
def call (d : Draft) (callee : String) (args : List ExprId) : ExprId × Draft :=
  let (callee, d) := d.name callee
  let (span, arena) := d.program.arena.allocList args
  Draft.alloc { d with program := { d.program with arena } } (.call callee span)

-- ================================================================= look-up

/-- The map of variables says what a search of the table would find. -/
def Mirrored (d : Draft) : Prop :=
  ∀ (name : String) (len : UInt32), d.vars[(name, len)]? = d.program.symbols.find? name len

theorem mirrored_empty : empty.Mirrored := by
  intro name len
  simp [empty, Symbols.find?]

/-- What is declared is put into the map and the table alike. -/
theorem mirrored_array {d : Draft} (mirrored : d.Mirrored) (name : String) (len : UInt32) :
    (d.array name len).2.Mirrored := by
  unfold array
  cases known : d.vars[(name, Symbols.lengthOf len)]? with
  | some id => simpa only [known] using mirrored
  | none =>
    have absent := (mirrored name (Symbols.lengthOf len)).symm.trans known
    intro other otherLen
    simp only [Std.ExtTreeMap.getElem?_insert, Std.compare_eq_iff_eq, mirrored other otherLen,
      Symbols.find?_declare absent]

end Draft

end ExprGraph
