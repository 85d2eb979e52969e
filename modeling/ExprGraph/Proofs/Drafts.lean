/-
What comes of drafts.

A draft is asked for one thing after another, and answers with a number
for what was made (`Draft.perform`). A history is any sequence of requests
in which only numbers are passed that were answered before
(`Draft.History`). As long as the numbers last, three things are kept.

What was made stays (`Program.Extends`), so an answer denotes in the end
what it was given for (`Denotes`). Variables are declared once, for the
draft looks before it declares. And the program is closed: what a node
refers to was there before it (`wellMade_perform`).

Every request comes down to five ways to grow: a variable, a text, a list,
a function, a node. The first four put nothing into the graph, and a node
is put behind all others.
-/
import ExprGraph.Program.Draft
import ExprGraph.Proofs.ClosedPrograms

namespace ExprGraph

-- ================================================================ requests

/-- What a draft is asked for. -/
inductive Request where
  | scalar (name : String)
  | array (name : String) (len : UInt32)
  | name (text : String)
  | function (f : Function)
  | alloc (node : Expr)
  | number (value : Float)
  | read (name : String)
  | reference (var : VarId)
  | emptyStatement
  | unary (op : UnaryOp) (operand : ExprId)
  | binary (op : BinaryOp) (left right : ExprId)
  | ternary (cond thenArm elseArm : ExprId)
  | assign (name : String) (value : ExprId)
  | assignElement (array : VarId) (index value : ExprId)
  | index (array : VarId) (index : ExprId)
  | step (op : StepOp) (target : Place)
  | seq (first second : ExprId)
  | block (statements : List ExprId)
  | loop (cond body : ExprId)
  | branch (cond thenArm elseArm : ExprId)
  | guard (cond thenArm : ExprId)
  | call (callee : String) (args : List ExprId)

/-- What a draft answers: the number of what was made, or the function that
was replaced. -/
inductive Handle where
  | expr (id : ExprId)
  | var (id : VarId)
  | name (id : NameId)
  | replaced (old : Option Function)
deriving DecidableEq

/-- Do what is asked. -/
def Draft.perform (d : Draft) : Request → Handle × Draft
  | .scalar name => (d.scalar name).map .var id
  | .array name len => (d.array name len).map .var id
  | .name text => (d.name text).map .name id
  | .function f => (d.function f).map .replaced id
  | .alloc node => (d.alloc node).map .expr id
  | .number value => (d.number value).map .expr id
  | .read name => (d.read name).map .expr id
  | .reference var => (d.reference var).map .expr id
  | .emptyStatement => d.emptyStatement.map .expr id
  | .unary op operand => (d.unary op operand).map .expr id
  | .binary op left right => (d.binary op left right).map .expr id
  | .ternary cond thenArm elseArm => (d.ternary cond thenArm elseArm).map .expr id
  | .assign name value => (d.assign name value).map .expr id
  | .assignElement array index value => (d.assignElement array index value).map .expr id
  | .index array index => (d.index array index).map .expr id
  | .step op target => (d.step op target).map .expr id
  | .seq first second => (d.seq first second).map .expr id
  | .block statements => (d.block statements).map .expr id
  | .loop cond body => (d.loop cond body).map .expr id
  | .branch cond thenArm elseArm => (d.branch cond thenArm elseArm).map .expr id
  | .guard cond thenArm => (d.guard cond thenArm).map .expr id
  | .call callee args => (d.call callee args).map .expr id

namespace Request

/-- The one node a request is for, if all of it is said. -/
def plain? : Request → Option Expr
  | .alloc node => some node
  | .number value => some (.number value)
  | .reference var => some (.var var)
  | .emptyStatement => some .empty
  | .unary op operand => some (.unary op operand)
  | .binary op left right => some (.binary op left right)
  | .ternary cond thenArm elseArm => some (.ternary cond thenArm elseArm)
  | .assignElement var slot value => some (.assign (.element var slot) value)
  | .index var slot => some (.index var slot)
  | .step op target => some (.step op target)
  | .seq first second => some (.seq first second)
  | .loop cond body => some (.loop cond body)
  | .branch cond thenArm elseArm => some (.branch cond thenArm elseArm)
  | .scalar _ | .array .. | .name _ | .function _ | .read _ | .assign .. | .block _ | .guard ..
  | .call .. => none

/-- The variable a request declares. -/
def declared? : Request → Option (String × UInt32)
  | .scalar text => some (text, 1)
  | .array text len => some (text, len)
  | _ => none

/-- The nodes that are passed. -/
def exprs : Request → List ExprId
  | .scalar _ | .array .. | .name _ | .number _ | .read _ | .reference _ | .emptyStatement => []
  | .function f => [f.body]
  | .alloc node => node.operands
  | .unary _ operand => [operand]
  | .binary _ left right => [left, right]
  | .ternary cond thenArm elseArm | .branch cond thenArm elseArm => [cond, thenArm, elseArm]
  | .assign _ value => [value]
  | .assignElement _ slot value => [value, slot]
  | .index _ slot => [slot]
  | .step _ target => target.children
  | .seq first second => [first, second]
  | .block statements => statements
  | .loop cond body => [cond, body]
  | .guard cond thenArm => [cond, thenArm]
  | .call _ args => args

/-- The variables that are passed. -/
def vars : Request → List VarId
  | .function f => f.params.map Param.var
  | .alloc node => node.mentioned?.toList
  | .reference var => [var]
  | .assignElement var _ _ | .index var _ => [var]
  | .step _ target => [target.var]
  | _ => []

/-- Only what was answered before is passed, and calls are made as
such. -/
structure Allowed (r : Request) (given : List Handle) : Prop where
  exprs : ∀ id ∈ r.exprs, Handle.expr id ∈ given
  vars : ∀ var ∈ r.vars, Handle.var var ∈ given
  calls : ∀ callee args, r ≠ .alloc (.call callee args)

end Request

/-- A draft after these requests, with the answers given, the latest
first. -/
inductive Draft.History : List (Request × Handle) → Draft → Prop
  | start : History [] .empty
  | asked {log : List (Request × Handle)} {d : Draft} {r : Request} :
      History log d → r.Allowed (log.map Prod.snd) →
      History ((r, (d.perform r).1) :: log) (d.perform r).2

-- ================================================================== growth

namespace Program

/-- What is found in one program is found in the other under the same
number. -/
structure Extends (p q : Program) : Prop where
  expr : ∀ {id : ExprId} {node : Expr}, p.expr? id = some node → q.expr? id = some node
  list : ∀ {span : Span} {ids : List ExprId},
    p.arena.list? span = some ids → q.arena.list? span = some ids
  text : ∀ {id : NameId} {text : String}, p.names.text? id = some text →
    q.names.text? id = some text
  symbol : ∀ {var : VarId} {sym : Symbol}, p.symbols.get? var = some sym →
    q.symbols.get? var = some sym
  nodes_le : p.arena.size ≤ q.arena.size
  lists_le : p.arena.lists.size ≤ q.arena.lists.size
  names_le : p.names.size ≤ q.names.size
  symbols_le : p.symbols.size ≤ q.symbols.size

/-- The numbers have lasted. -/
structure Fits (p : Program) : Prop where
  nodes : p.arena.size < UInt32.size
  lists : p.arena.lists.size < UInt32.size
  names : p.names.size < UInt32.size
  symbols : p.symbols.size < UInt32.size

variable {p q r : Program}

theorem Extends.refl (p : Program) : p.Extends p :=
  ⟨id, id, id, id, Nat.le_refl _, Nat.le_refl _, Nat.le_refl _, Nat.le_refl _⟩

/-- Growth by steps is growth. -/
theorem Extends.trans (h : p.Extends q) (h' : q.Extends r) : p.Extends r where
  expr hnode := h'.expr (h.expr hnode)
  list hids := h'.list (h.list hids)
  text htext := h'.text (h.text htext)
  symbol hsym := h'.symbol (h.symbol hsym)
  nodes_le := Nat.le_trans h.nodes_le h'.nodes_le
  lists_le := Nat.le_trans h.lists_le h'.lists_le
  names_le := Nat.le_trans h.names_le h'.names_le
  symbols_le := Nat.le_trans h.symbols_le h'.symbols_le

/-- What was declared stays declared. -/
theorem Extends.has {var : VarId} (h : p.Extends q) (hvar : p.symbols.Has var) :
    q.symbols.Has var := by
  obtain ⟨sym, hsym⟩ := hvar
  exact ⟨sym, h.symbol hsym⟩

/-- If the numbers last for the greater, they do for the smaller. -/
theorem Fits.of_extends (hfits : q.Fits) (h : p.Extends q) : p.Fits where
  nodes := Nat.lt_of_le_of_lt h.nodes_le hfits.nodes
  lists := Nat.lt_of_le_of_lt h.lists_le hfits.lists
  names := Nat.lt_of_le_of_lt h.names_le hfits.names
  symbols := Nat.lt_of_le_of_lt h.symbols_le hfits.symbols

end Program

open Program

namespace Draft

variable (d : Draft)

/-- Declaring an array only adds a declaration. -/
theorem extends_array (name : String) (len : UInt32) :
    d.program.Extends (d.array name len).2.program := by
  unfold array
  split
  · exact .refl _
  · refine ⟨id, id, id, fun h => Symbols.get?_declare_of_some name len h, Nat.le_refl _,
      Nat.le_refl _, Nat.le_refl _, ?_⟩
    simp [Symbols.declare, Symbols.size]

/-- Interning a name only adds a string. -/
theorem extends_name (text : String) : d.program.Extends (d.name text).2.program := by
  refine ⟨id, id, fun h => Names.text?_intern_of_some text h, id, Nat.le_refl _,
    Nat.le_refl _, ?_, Nat.le_refl _⟩
  show d.program.names.size ≤ (d.program.names.intern text).2.size
  unfold Names.intern
  split
  · exact Nat.le_refl _
  · simp [Names.size]

theorem extends_function (f : Function) : d.program.Extends (d.function f).2.program :=
  ⟨id, id, id, id, Nat.le_refl _, Nat.le_refl _, Nat.le_refl _, Nat.le_refl _⟩

/-- A node is put behind the others. -/
theorem extends_alloc (node : Expr) : d.program.Extends (d.alloc node).2.program := by
  refine ⟨fun h => Arena.get?_alloc_of_some node h, id, id, id, ?_, Nat.le_refl _,
    Nat.le_refl _, Nat.le_refl _⟩
  show d.program.arena.nodes.size ≤ (d.program.arena.nodes.push node).size
  simp

/-- A draft with one more list. -/
def withList (args : List ExprId) : Draft :=
  { d with program := { d.program with arena := (d.program.arena.allocList args).2 } }

/-- A list of arguments is put behind the others. -/
theorem extends_withList (args : List ExprId) :
    d.program.Extends (d.withList args).program := by
  refine ⟨id, fun h => Arena.list?_allocList_of_some args h, id, id, Nat.le_refl _, ?_,
    Nat.le_refl _, Nat.le_refl _⟩
  show d.program.arena.lists.size ≤ (d.program.arena.lists ++ args.toArray).size
  simp

/-- The statements of a block, joined to what is done. -/
def joined (done : ExprId) (rest : List ExprId) : ExprId × Draft :=
  rest.foldl (fun (done, d) next => d.seq done next) (done, d)

/-- Joining statements only puts nodes behind the others. -/
theorem extends_joined (rest : List ExprId) :
    ∀ (d : Draft) (done : ExprId), d.program.Extends (d.joined done rest).2.program := by
  induction rest with
  | nil => exact fun d _ => .refl d.program
  | cons next rest ih =>
      intro d done
      exact (d.extends_alloc (.seq done next)).trans (ih (d.seq done next).2 (d.seq done next).1)

end Draft

-- ================================================================= closure

section Closure

variable {p q : Program}

namespace Program

/-- A node may be put into a program: what it refers to is there. -/
structure ReadyFor (p : Program) (node : Expr) : Prop where
  children : ∀ child ∈ p.children node, ∃ other, p.expr? child = some other
  mentioned : ∀ var, node.mentioned? = some var → p.symbols.Has var
  calls : ∀ callee args, node = .call callee args →
    (∃ name, p.names.text? callee = some name) ∧ ∃ ids, p.arena.list? args = some ids

/-- A node of a closed program could be put in again. -/
theorem Closed.readyFor (h : p.Closed) {id : ExprId} {node : Expr}
    (hnode : p.expr? id = some node) : p.ReadyFor node where
  children child hchild := exists_of_index_le hnode (Nat.le_of_lt (h.down ⟨node, hnode, hchild⟩))
  mentioned _ := h.mentioned hnode
  calls callee args heq := by
    subst heq
    exact ⟨h.named hnode, h.listed hnode⟩

/-- A node keeps its children, as long as its list of arguments exists. -/
theorem children_extends {node : Expr} (h : p.Extends q)
    (hlisted : ∀ callee args, node = .call callee args → ∃ ids, p.arena.list? args = some ids) :
    q.children node = p.children node := by
  cases node with
  | call callee args =>
      obtain ⟨ids, hids⟩ := hlisted callee args rfl
      rw [children, children, hids, h.list hids]
  | _ => rfl

/-- Growing beside the graph keeps a program closed. -/
theorem Closed.beside (h : p.Closed) (hext : p.Extends q) (hnodes : ∀ id, q.expr? id = p.expr? id)
    (hfunctions : ∀ name, q.function? name = p.function? name) : q.Closed where
  down := by
    rintro child parent ⟨node, hnode, hchild⟩
    rw [hnodes] at hnode
    rw [children_extends hext fun callee args heq => ((h.readyFor hnode).calls callee args heq).2]
      at hchild
    exact h.down ⟨node, hnode, hchild⟩
  mentioned hnode hvar := hext.has (h.mentioned (hnodes _ ▸ hnode) hvar)
  named hnode := by
    obtain ⟨name, hname⟩ := h.named (hnodes _ ▸ hnode)
    exact ⟨name, hext.text hname⟩
  listed hnode := by
    obtain ⟨ids, hids⟩ := h.listed (hnodes _ ▸ hnode)
    exact ⟨ids, hext.list hids⟩
  bodies hfound := by
    obtain ⟨node, hnode⟩ := h.bodies (hfunctions _ ▸ hfound)
    exact ⟨node, hext.expr hnode⟩
  params hfound param hmem := hext.has (h.params (hfunctions _ ▸ hfound) param hmem)

end Program

/-- What is found in a grown arena was there, or is the new node behind all
others. -/
theorem Arena.get?_alloc_cases {a : Arena} {node old : Expr} {id : ExprId}
    (h : (a.alloc node).2.get? id = some old) :
    a.get? id = some old ∨ id.index = a.size ∧ old = node := by
  simp only [Arena.alloc, Arena.get?, Array.getElem?_push] at h
  split at h
  · rename_i heq
    cases h
    exact .inr ⟨heq, rfl⟩
  · exact .inl h

namespace Program

/-- A node whose parts are there keeps a program closed. -/
theorem Closed.alloc (h : p.Closed) {node : Expr} (hready : p.ReadyFor node) :
    ({ p with arena := (p.arena.alloc node).2 } : Program).Closed := by
  have hchildren : ∀ other : Expr,
      ({ p with arena := (p.arena.alloc node).2 } : Program).children other = p.children other := by
    intro other
    cases other <;> rfl
  have hall : ∀ {id : ExprId} {other : Expr},
      ({ p with arena := (p.arena.alloc node).2 } : Program).expr? id = some other →
        p.ReadyFor other := by
    intro id other hother
    rcases Arena.get?_alloc_cases hother with hold | ⟨-, rfl⟩
    · exact h.readyFor hold
    · exact hready
  constructor
  · rintro child parent ⟨other, hother, hchild⟩
    rw [hchildren] at hchild
    rcases Arena.get?_alloc_cases hother with hold | ⟨hlast, rfl⟩
    · exact h.down ⟨other, hold, hchild⟩
    · obtain ⟨node', hnode'⟩ := hready.children child hchild
      have hlt : child.index < p.arena.size := (Array.getElem?_eq_some_iff.mp hnode').1
      omega
  · exact fun hother hvar => (hall hother).mentioned _ hvar
  · exact fun hother => ((hall hother).calls _ _ rfl).1
  · exact fun hother => ((hall hother).calls _ _ rfl).2
  · intro name f hfound
    obtain ⟨body, hbody⟩ := h.bodies hfound
    exact ⟨body, Arena.get?_alloc_of_some node hbody⟩
  · exact h.params

/-- A function whose body and parameters are there keeps a program
closed. -/
theorem Closed.register (h : p.Closed) {f : Function} (hbody : ∃ node, p.expr? f.body = some node)
    (hparams : ∀ param ∈ f.params, p.symbols.Has param.var) :
    ({ p with functions := (p.functions.register f).2 } : Program).Closed where
  down := h.down
  mentioned := h.mentioned
  named := h.named
  listed := h.listed
  bodies hfound := by
    rcases Functions.register_cases hfound with ⟨-, rfl⟩ | hold
    · exact hbody
    · exact h.bodies hold
  params hfound := by
    rcases Functions.register_cases hfound with ⟨-, rfl⟩ | hold
    · exact hparams
    · exact h.params hold

end Program

end Closure

/-- What drafts keep: nodes refer to what is there, variables are told apart
by name and length, and both maps say what the tables hold. -/
structure Draft.WellMade (d : Draft) : Prop where
  closed : d.program.Closed
  distinct : d.program.symbols.entries.toList.Nodup
  sound : d.program.names.Sound
  mirrored : d.Mirrored

-- ============================================================= ways to grow

namespace Draft

variable {d : Draft}

/-- A new draft is well made. -/
theorem wellMade_empty : Draft.empty.WellMade where
  closed := by
    constructor
    · rintro child parent ⟨node, hnode, -⟩
      cases hnode
    · nofun
    · nofun
    · nofun
    · nofun
    · nofun
  distinct := List.nodup_nil
  sound := Names.sound_ofTexts #[]
  mirrored := mirrored_empty

/-- A variable is looked for before it is declared; that the map does not
have it means that the table does not. -/
theorem wellMade_array (h : d.WellMade) (name : String) (len : UInt32)
    (hfits : (d.array name len).2.program.Fits) :
    (d.array name len).2.WellMade
    ∧ (d.array name len).2.program.symbols.get? (d.array name len).1
      = some ⟨name, Symbols.lengthOf len⟩ := by
  have hext := d.extends_array name len
  have hroom : d.program.symbols.size < UInt32.size := (hfits.of_extends hext).symbols
  have hmirrored := mirrored_array h.mirrored name len
  unfold array at hext hmirrored ⊢
  cases hknown : d.vars[(name, Symbols.lengthOf len)]? with
  | some id =>
      have hfound := (h.mirrored name (Symbols.lengthOf len)).symm.trans hknown
      exact ⟨h, Symbols.get?_of_find? (Nat.le_of_lt hroom) hfound⟩
  | none =>
      rw [hknown] at hext hmirrored
      dsimp only at hext hmirrored ⊢
      refine ⟨⟨h.closed.beside hext (fun _ => rfl) fun _ => rfl, ?_, h.sound, hmirrored⟩, ?_⟩
      · have hnew := Symbols.find?_eq_none_iff.mp
          ((h.mirrored name (Symbols.lengthOf len)).symm.trans hknown)
        simp only [Symbols.declare, Array.toList_push]
        refine List.nodup_append.mpr ⟨h.distinct, List.nodup_singleton _, ?_⟩
        rintro sym hsym other hother rfl
        rw [List.mem_singleton.mp hother] at hsym
        exact hnew (Array.mem_toList_iff.mp hsym)
      · exact Symbols.get?_declare_self _ name len hroom

/-- Interning a name leaves a draft well made, and the id denotes the
name. -/
theorem wellMade_name (h : d.WellMade) (text : String)
    (hfits : (d.name text).2.program.Fits) :
    (d.name text).2.WellMade
    ∧ (d.name text).2.program.names.text? (d.name text).1 = some text := by
  have hext := d.extends_name text
  have hroom : d.program.names.size < UInt32.size := (hfits.of_extends hext).names
  refine ⟨⟨h.closed.beside hext (fun _ => rfl) fun _ => rfl, h.distinct, ?_, h.mirrored⟩, ?_⟩
  · exact Names.sound_intern h.sound hroom text
  · exact Names.text?_intern_self h.sound hroom text

/-- A list of arguments leaves a draft well made, and its span denotes
it. -/
theorem wellMade_withList (h : d.WellMade) (args : List ExprId)
    (hfits : (d.withList args).program.Fits) :
    (d.withList args).WellMade
    ∧ (d.withList args).program.arena.list? (d.program.arena.allocList args).1 = some args := by
  have hext := d.extends_withList args
  refine ⟨⟨h.closed.beside hext (fun _ => rfl) fun _ => rfl, h.distinct, h.sound, h.mirrored⟩, ?_⟩
  have hroom : (d.program.arena.lists ++ args.toArray).size < UInt32.size := hfits.lists
  rw [Array.size_append, List.size_toArray] at hroom
  exact Arena.list?_allocList_self _ args hroom

/-- Registering a function leaves a draft well made, if its body exists and
its parameters are declared. -/
theorem wellMade_function (h : d.WellMade) {f : Function}
    (hbody : ∃ node, d.program.expr? f.body = some node)
    (hparams : ∀ param ∈ f.params, d.program.symbols.Has param.var) :
    (d.function f).2.WellMade :=
  ⟨h.closed.register hbody hparams, h.distinct, h.sound, h.mirrored⟩

/-- A node that the draft is ready for leaves it well made, and the id
denotes the node. -/
theorem wellMade_alloc (h : d.WellMade) {node : Expr} (hready : d.program.ReadyFor node)
    (hfits : (d.alloc node).2.program.Fits) :
    (d.alloc node).2.WellMade
    ∧ (d.alloc node).2.program.expr? (d.alloc node).1 = some node := by
  have hroom : d.program.arena.size < UInt32.size :=
    (hfits.of_extends (d.extends_alloc node)).nodes
  exact ⟨⟨h.closed.alloc hready, h.distinct, h.sound, h.mirrored⟩,
    Arena.get?_alloc_self _ node hroom⟩

end Draft

-- ================================================================= answers

/-- The number stands for a block of these statements: an empty statement,
the one statement, or a sequence of a block and the last. -/
inductive Program.IsBlock (p : Program) : List ExprId → ExprId → Prop
  | empty {id : ExprId} : p.expr? id = some .empty → IsBlock p [] id
  | one (id : ExprId) : IsBlock p [id] id
  | more {statements : List ExprId} {done last id : ExprId} : statements ≠ [] →
      IsBlock p statements done → p.expr? id = some (.seq done last) →
      IsBlock p (statements ++ [last]) id

/-- What a request was answered with denotes what was asked for. -/
inductive Denotes (p : Program) : Request → Handle → Prop
  | declared {r : Request} {name : String} {len : UInt32} {var : VarId} :
      r.declared? = some (name, len) →
      p.symbols.get? var = some ⟨name, Symbols.lengthOf len⟩ → Denotes p r (.var var)
  | name {text : String} {id : NameId} :
      p.names.text? id = some text → Denotes p (.name text) (.name id)
  | function (f : Function) (old : Option Function) : Denotes p (.function f) (.replaced old)
  | node {r : Request} {node : Expr} {id : ExprId} :
      r.plain? = some node → p.expr? id = some node → Denotes p r (.expr id)
  | read {name : String} {var : VarId} {id : ExprId} :
      p.symbols.get? var = some ⟨name, 1⟩ → p.expr? id = some (.var var) →
      Denotes p (.read name) (.expr id)
  | assign {name : String} {var : VarId} {id value : ExprId} :
      p.symbols.get? var = some ⟨name, 1⟩ → p.expr? id = some (.assign (.scalar var) value) →
      Denotes p (.assign name value) (.expr id)
  | block {statements : List ExprId} {id : ExprId} :
      p.IsBlock statements id → Denotes p (.block statements) (.expr id)
  | guard {cond thenArm elseArm id : ExprId} :
      p.expr? elseArm = some .empty → p.expr? id = some (.branch cond thenArm elseArm) →
      Denotes p (.guard cond thenArm) (.expr id)
  | call {name : String} {callee : NameId} {args : List ExprId} {span : Span} {id : ExprId} :
      p.names.text? callee = some name → p.arena.list? span = some args →
      p.expr? id = some (.call callee span) → Denotes p (.call name args) (.expr id)

/-- What was answered is there. -/
def Handle.In (p : Program) : Handle → Prop
  | .expr id => ∃ node, p.expr? id = some node
  | .var v => p.symbols.Has v
  | .name id => ∃ text, p.names.text? id = some text
  | .replaced _ => True

section Handles

variable {p q : Program}

/-- A block stays one. -/
theorem Program.IsBlock.extends {statements : List ExprId} {id : ExprId}
    (h : p.IsBlock statements id) (hext : p.Extends q) : q.IsBlock statements id := by
  induction h with
  | empty hnode => exact .empty (hext.expr hnode)
  | one id => exact .one id
  | more hne _ hnode ih => exact .more hne ih (hext.expr hnode)

/-- What an answer denotes, it denotes for good. -/
theorem Denotes.extends {r : Request} {handle : Handle} (h : Denotes p r handle)
    (hext : p.Extends q) : Denotes q r handle := by
  cases h with
  | declared hdeclared hsym => exact .declared hdeclared (hext.symbol hsym)
  | name htext => exact .name (hext.text htext)
  | function f old => exact .function f old
  | node hplain hnode => exact .node hplain (hext.expr hnode)
  | read hsym hnode => exact .read (hext.symbol hsym) (hext.expr hnode)
  | assign hsym hnode => exact .assign (hext.symbol hsym) (hext.expr hnode)
  | block hblock => exact .block (hblock.extends hext)
  | guard helse hnode => exact .guard (hext.expr helse) (hext.expr hnode)
  | call htext hids hnode => exact .call (hext.text htext) (hext.list hids) (hext.expr hnode)

/-- What a handle denotes stays. -/
theorem Handle.In.extends {handle : Handle} (h : handle.In p) (hext : p.Extends q) :
    handle.In q := by
  cases handle with
  | expr id =>
      obtain ⟨node, hnode⟩ := h
      exact ⟨node, hext.expr hnode⟩
  | var var => exact hext.has h
  | name id =>
      obtain ⟨text, htext⟩ := h
      exact ⟨text, hext.text htext⟩
  | replaced => trivial

end Handles

-- ================================================================ performing

namespace Draft

variable {d : Draft} {r : Request}

/-- A request for one node stores it. -/
theorem perform_plain {node : Expr} (h : r.plain? = some node) :
    d.perform r = (d.alloc node).map .expr id := by
  cases r <;> cases h <;> rfl

/-- A plain request mentions the operands of its node. -/
theorem exprs_plain {node : Expr} (h : r.plain? = some node) : r.exprs = node.operands := by
  cases r <;> cases h <;> rfl

/-- And the variable of its node. -/
theorem vars_plain {node : Expr} (h : r.plain? = some node) : r.vars = node.mentioned?.toList := by
  cases r <;> cases h <;> rfl

/-- A request for a variable declares it. -/
theorem perform_declared {name : String} {len : UInt32} (h : r.declared? = some (name, len)) :
    d.perform r = (d.array name len).map .var id := by
  cases r <;> cases h <;> rfl

/-- What was there before a request, stays there. -/
theorem extends_perform (d : Draft) (r : Request) :
    d.program.Extends (d.perform r).2.program := by
  cases hplain : r.plain? with
  | some node =>
      rw [perform_plain hplain]
      exact d.extends_alloc node
  | none =>
      cases r with
      | scalar name => exact d.extends_array name 1
      | array name len => exact d.extends_array name len
      | name text => exact d.extends_name text
      | function f => exact d.extends_function f
      | read name => exact (d.extends_array name 1).trans (extends_alloc _ _)
      | assign name value => exact (d.extends_array name 1).trans (extends_alloc _ _)
      | block statements =>
          cases statements with
          | nil => exact d.extends_alloc .empty
          | cons first rest => exact extends_joined rest d first
      | guard cond thenArm => exact (d.extends_alloc .empty).trans (extends_alloc _ _)
      | call callee args =>
          exact ((d.extends_name callee).trans (extends_withList _ args)).trans (extends_alloc _ _)
      | _ => cases hplain

/-- What comes of a request that may be made. -/
structure Performs (r : Request) (handle : Handle) (d : Draft) : Prop where
  wellMade : d.WellMade
  denotes : Denotes d.program r handle
  there : handle.In d.program

/-- A node other than a call may be stored once its parts are there. -/
theorem readyFor_of_operands {p : Program} {node : Expr}
    (hcall : ∀ callee args, node ≠ .call callee args)
    (hexprs : ∀ id ∈ node.operands, ∃ other, p.expr? id = some other)
    (hvars : ∀ var, node.mentioned? = some var → p.symbols.Has var) : p.ReadyFor node where
  children := by
    cases node with
    | call callee args => exact absurd rfl (hcall callee args)
    | _ => exact hexprs
  mentioned := hvars
  calls callee args heq := absurd heq (hcall callee args)

/-- A program is always ready for an empty statement. -/
theorem readyFor_empty (p : Program) : p.ReadyFor .empty :=
  readyFor_of_operands nofun nofun nofun

/-- A plain request puts one node in. -/
theorem performs_plain {node : Expr} (h : d.WellMade) (hplain : r.plain? = some node)
    (hexprs : ∀ id ∈ r.exprs, ∃ other, d.program.expr? id = some other)
    (hvars : ∀ var ∈ r.vars, d.program.symbols.Has var)
    (hcalls : ∀ callee args, r ≠ .alloc (.call callee args))
    (hfits : (d.perform r).2.program.Fits) :
    Performs r (d.perform r).1 (d.perform r).2 := by
  have hcall : ∀ callee args, node ≠ .call callee args := by
    rintro callee args rfl
    cases r <;> cases hplain
    exact hcalls callee args rfl
  have hready : d.program.ReadyFor node := by
    refine readyFor_of_operands hcall (exprs_plain hplain ▸ hexprs) fun var hvar => hvars var ?_
    rw [vars_plain hplain, hvar]
    exact List.mem_singleton_self var
  rw [perform_plain hplain] at hfits ⊢
  obtain ⟨hmade, hnode⟩ := wellMade_alloc h hready hfits
  exact ⟨hmade, .node hplain hnode, ⟨node, hnode⟩⟩

/-- A request for a declaration declares, and does nothing else. -/
theorem performs_declared {name : String} {len : UInt32} (h : d.WellMade)
    (hdeclared : r.declared? = some (name, len)) (hfits : (d.perform r).2.program.Fits) :
    Performs r (d.perform r).1 (d.perform r).2 := by
  rw [perform_declared hdeclared] at hfits ⊢
  obtain ⟨hmade, hsym⟩ := wellMade_array h name len hfits
  exact ⟨hmade, .declared hdeclared hsym, ⟨_, hsym⟩⟩

/-- A node that reads or writes a scalar by name: the scalar is declared
first. -/
theorem wellMade_scalar {name : String} (h : d.WellMade) (node : VarId → Expr)
    (hready : (d.scalar name).2.program.symbols.Has (d.scalar name).1 →
      (d.scalar name).2.program.ReadyFor (node (d.scalar name).1))
    (hfits : ((d.scalar name).2.alloc (node (d.scalar name).1)).2.program.Fits) :
    ((d.scalar name).2.alloc (node (d.scalar name).1)).2.WellMade
    ∧ ((d.scalar name).2.alloc (node (d.scalar name).1)).2.program.symbols.get? (d.scalar name).1
      = some ⟨name, 1⟩
    ∧ ((d.scalar name).2.alloc (node (d.scalar name).1)).2.program.expr?
        ((d.scalar name).2.alloc (node (d.scalar name).1)).1 = some (node (d.scalar name).1) := by
  have hext := (d.scalar name).2.extends_alloc (node (d.scalar name).1)
  obtain ⟨hmade, hsym⟩ := wellMade_array h name 1 (hfits.of_extends hext)
  obtain ⟨hmade', hnode⟩ := wellMade_alloc hmade (hready ⟨_, hsym⟩) hfits
  exact ⟨hmade', hext.symbol hsym, hnode⟩

/-- Joining one statement after the other makes a block. -/
theorem performs_joined (rest : List ExprId) :
    ∀ {d : Draft} {front : List ExprId} {done : ExprId}, d.WellMade →
      (∃ node, d.program.expr? done = some node) →
      (∀ id ∈ rest, ∃ node, d.program.expr? id = some node) →
      front ≠ [] → d.program.IsBlock front done → (d.joined done rest).2.program.Fits →
      (d.joined done rest).2.WellMade
      ∧ (d.joined done rest).2.program.IsBlock (front ++ rest) (d.joined done rest).1
      ∧ ∃ node, (d.joined done rest).2.program.expr? (d.joined done rest).1 = some node := by
  induction rest with
  | nil =>
      intro d front done h hdone _ _ hblock _
      rw [List.append_nil]
      exact ⟨h, hblock, hdone⟩
  | cons next rest ih =>
      intro d front done h hdone hrest hne hblock hfits
      have hready : d.program.ReadyFor (.seq done next) := by
        refine readyFor_of_operands nofun ?_ nofun
        exact List.forall_mem_cons.mpr ⟨hdone,
          List.forall_mem_singleton.mpr (hrest next List.mem_cons_self)⟩
      have hext := d.extends_alloc (.seq done next)
      have hfits' := hfits.of_extends (extends_joined rest (d.seq done next).2 (d.seq done next).1)
      obtain ⟨hmade, hnode⟩ := wellMade_alloc h hready hfits'
      have hmore := (hblock.extends hext).more hne hnode
      have hthere : ∀ id ∈ rest, ∃ node, (d.seq done next).2.program.expr? id = some node := by
        intro id hid
        obtain ⟨node, hnode⟩ := hrest id (List.mem_cons_of_mem _ hid)
        exact ⟨node, hext.expr hnode⟩
      have hall := ih hmade ⟨_, hnode⟩ hthere (List.append_ne_nil_of_right_ne_nil _ (by simp)) hmore
        hfits
      rwa [List.append_assoc] at hall

/-- A block is joined from its statements. -/
theorem performs_block (h : d.WellMade) {statements : List ExprId}
    (hexprs : ∀ id ∈ statements, ∃ node, d.program.expr? id = some node)
    (hfits : (d.perform (.block statements)).2.program.Fits) :
    Performs (.block statements) (d.perform (.block statements)).1
      (d.perform (.block statements)).2 := by
  cases statements with
  | nil =>
      obtain ⟨hmade, hnode⟩ := wellMade_alloc h (readyFor_empty _) hfits
      exact ⟨hmade, .block (.empty hnode), ⟨_, hnode⟩⟩
  | cons first rest =>
      obtain ⟨hfirst, hrest⟩ := List.forall_mem_cons.mp hexprs
      obtain ⟨hmade, hblock, hthere⟩ :=
        performs_joined rest h hfirst hrest (List.cons_ne_nil _ _) (.one first) hfits
      exact ⟨hmade, .block hblock, hthere⟩

/-- A condition without a second arm gets an empty one. -/
theorem performs_guard (h : d.WellMade) {cond thenArm : ExprId}
    (hexprs : ∀ id ∈ [cond, thenArm], ∃ node, d.program.expr? id = some node)
    (hfits : (d.perform (.guard cond thenArm)).2.program.Fits) :
    Performs (.guard cond thenArm) (d.perform (.guard cond thenArm)).1
      (d.perform (.guard cond thenArm)).2 := by
  have hext := d.extends_alloc .empty
  have hext' := d.emptyStatement.2.extends_alloc (.branch cond thenArm d.emptyStatement.1)
  obtain ⟨hmade, helse⟩ :=
    wellMade_alloc h (readyFor_empty _) (hfits.of_extends hext')
  have hready : d.emptyStatement.2.program.ReadyFor (.branch cond thenArm d.emptyStatement.1) := by
    refine readyFor_of_operands nofun ?_ nofun
    intro id hid
    rcases List.mem_append.mp (show id ∈ [cond, thenArm] ++ [d.emptyStatement.1] from hid) with
      hid | hid
    · obtain ⟨node, hnode⟩ := hexprs id hid
      exact ⟨node, hext.expr hnode⟩
    · rw [List.mem_singleton.mp hid]
      exact ⟨_, helse⟩
  obtain ⟨hmade', hnode⟩ := wellMade_alloc hmade hready hfits
  exact ⟨hmade', .guard (hext'.expr helse) hnode, ⟨_, hnode⟩⟩

/-- A call interns its name and lists its arguments first. -/
theorem performs_call (h : d.WellMade) {callee : String} {args : List ExprId}
    (hexprs : ∀ id ∈ args, ∃ node, d.program.expr? id = some node)
    (hfits : (d.perform (.call callee args)).2.program.Fits) :
    Performs (.call callee args) (d.perform (.call callee args)).1
      (d.perform (.call callee args)).2 := by
  have hext := d.extends_name callee
  have hext' := (d.name callee).2.extends_withList args
  have hext'' := ((d.name callee).2.withList args).extends_alloc
    (.call (d.name callee).1 ((d.name callee).2.program.arena.allocList args).1)
  have hfits' := hfits.of_extends hext''
  obtain ⟨hmade, htext⟩ := wellMade_name h callee (hfits'.of_extends hext')
  obtain ⟨hmade', hids⟩ := wellMade_withList hmade args hfits'
  have hready : ((d.name callee).2.withList args).program.ReadyFor
      (.call (d.name callee).1 ((d.name callee).2.program.arena.allocList args).1) := by
    refine ⟨?_, nofun, ?_⟩
    · intro id hid
      rw [children, hids] at hid
      obtain ⟨node, hnode⟩ := hexprs id hid
      exact ⟨node, hext'.expr (hext.expr hnode)⟩
    · intro callee' args' heq
      cases heq
      exact ⟨⟨callee, hext'.text htext⟩, args, hids⟩
  obtain ⟨hmade'', hnode⟩ := wellMade_alloc hmade' hready hfits
  exact ⟨hmade'', .call (hext''.text (hext'.text htext)) (hext''.list hids) hnode, ⟨_, hnode⟩⟩

/-- A request that passes what is there makes what was asked for. -/
theorem performs_of_there (h : d.WellMade)
    (hexprs : ∀ id ∈ r.exprs, ∃ node, d.program.expr? id = some node)
    (hvars : ∀ var ∈ r.vars, d.program.symbols.Has var)
    (hcalls : ∀ callee args, r ≠ .alloc (.call callee args))
    (hfits : (d.perform r).2.program.Fits) :
    Performs r (d.perform r).1 (d.perform r).2 := by
  cases hplain : r.plain? with
  | some node => exact performs_plain h hplain hexprs hvars hcalls hfits
  | none =>
      cases r with
      | scalar name => exact performs_declared h rfl hfits
      | array name len => exact performs_declared h rfl hfits
      | name text =>
          obtain ⟨hmade, htext⟩ := wellMade_name h text hfits
          exact ⟨hmade, .name htext, ⟨_, htext⟩⟩
      | function f =>
          have hparams : ∀ param ∈ f.params, d.program.symbols.Has param.var :=
            fun param hmem => hvars _ (List.mem_map_of_mem hmem)
          exact ⟨wellMade_function h (hexprs f.body List.mem_cons_self) hparams,
            .function f _, trivial⟩
      | read name =>
          have hready : ∀ var, (d.scalar name).2.program.symbols.Has var →
              (d.scalar name).2.program.ReadyFor (.var var) := fun var hvar =>
            readyFor_of_operands nofun nofun fun v hv => Option.some.inj hv ▸ hvar
          obtain ⟨hmade, hsym, hnode⟩ := wellMade_scalar h Expr.var (hready _) hfits
          exact ⟨hmade, .read hsym hnode, ⟨_, hnode⟩⟩
      | assign name value =>
          obtain ⟨other, hvalue⟩ := hexprs value List.mem_cons_self
          have hready : ∀ var, (d.scalar name).2.program.symbols.Has var →
              (d.scalar name).2.program.ReadyFor (.assign (.scalar var) value) := fun var hvar =>
            readyFor_of_operands nofun
              (List.forall_mem_singleton.mpr ⟨other, (d.extends_array name 1).expr hvalue⟩)
              fun v hv => Option.some.inj hv ▸ hvar
          obtain ⟨hmade, hsym, hnode⟩ :=
            wellMade_scalar h (fun var => .assign (.scalar var) value) (hready _) hfits
          exact ⟨hmade, .assign hsym hnode, ⟨_, hnode⟩⟩
      | block statements => exact performs_block h hexprs hfits
      | guard cond thenArm => exact performs_guard h hexprs hfits
      | call callee args => exact performs_call h hexprs hfits
      | _ => cases hplain

-- ================================================================= histories

/-- What a history keeps. -/
structure Keeps (log : List (Request × Handle)) (d : Draft) : Prop where
  wellMade : d.WellMade
  denotes : ∀ entry ∈ log, Denotes d.program entry.1 entry.2
  there : ∀ handle ∈ log.map Prod.snd, handle.In d.program

variable {log : List (Request × Handle)}

/-- One request more. -/
theorem Keeps.asked (h : Keeps log d) (hallowed : r.Allowed (log.map Prod.snd))
    (hfits : (d.perform r).2.program.Fits) :
    Keeps ((r, (d.perform r).1) :: log) (d.perform r).2 := by
  have hext := d.extends_perform r
  obtain ⟨hmade, hdenotes, hthere⟩ := performs_of_there h.wellMade
    (fun id hid => h.there _ (hallowed.exprs id hid))
    (fun var hvar => h.there _ (hallowed.vars var hvar)) hallowed.calls hfits
  refine ⟨hmade, List.forall_mem_cons.mpr ⟨hdenotes, ?_⟩, List.forall_mem_cons.mpr ⟨hthere, ?_⟩⟩
  · exact fun entry hmem => (h.denotes entry hmem).extends hext
  · exact fun handle hmem => (h.there handle hmem).extends hext

/-- What a draft keeps to, it keeps to at every point of its history. -/
theorem History.keeps (h : History log d) (hfits : d.program.Fits) : Keeps log d := by
  induction h with
  | start => exact ⟨wellMade_empty, nofun, nofun⟩
  | @asked log d r _ hallowed ih =>
      exact (ih (hfits.of_extends (d.extends_perform r))).asked hallowed hfits

/-- Declared variables are told apart by name and length. -/
theorem symbol_inj (h : d.WellMade) {v w : VarId} {sym : Symbol}
    (hv : d.program.symbols.get? v = some sym) (hw : d.program.symbols.get? w = some sym) :
    v = w := by
  have hlt : v.index < d.program.symbols.entries.toList.length :=
    (Array.getElem?_eq_some_iff.mp hv).1
  have hsame : d.program.symbols.entries.toList[v.index]?
      = d.program.symbols.entries.toList[w.index]? := by
    rw [Array.getElem?_toList, Array.getElem?_toList]
    exact hv.trans hw.symm
  have hindex : v.index = w.index := (List.getElem?_inj hlt h.distinct).mp hsame
  exact congrArg VarId.mk (UInt32.toNat_inj.mp hindex)

/-- Two declarations are answered with one variable iff they agree on name
and length. -/
theorem Keeps.declared_iff (h : Keeps log d) {r r' : Request} {v w : VarId}
    {name name' : String} {len len' : UInt32} (hr : r.declared? = some (name, len))
    (hr' : r'.declared? = some (name', len')) (hv : (r, .var v) ∈ log)
    (hw : (r', .var w) ∈ log) :
    v = w ↔ name = name' ∧ Symbols.lengthOf len = Symbols.lengthOf len' := by
  have hsymbol : ∀ {r : Request} {v : VarId} {name : String} {len : UInt32},
      r.declared? = some (name, len) → (r, .var v) ∈ log →
      d.program.symbols.get? v = some ⟨name, Symbols.lengthOf len⟩ := by
    intro r v name len hr hv
    cases h.denotes _ hv with
    | declared hr' hsym =>
        cases hr.symm.trans hr'
        exact hsym
  have hleft := hsymbol hr hv
  have hright := hsymbol hr' hw
  constructor
  · rintro rfl
    have heq := Option.some.inj (hleft.symm.trans hright)
    exact ⟨congrArg Symbol.name heq, congrArg Symbol.len heq⟩
  · rintro ⟨rfl, hlen⟩
    rw [← hlen] at hright
    exact symbol_inj h.wellMade hleft hright

/-- What comes of a draft, if only numbers were passed that it had
answered: every answer denotes what was asked for; a variable is declared
once; nodes refer to lower nodes; and neither engine meets a reference
that leads nowhere. -/
theorem wellFormed_of_history (h : History log d) (hfits : d.program.Fits) :
    (∀ entry ∈ log, Denotes d.program entry.1 entry.2)
    ∧ (∀ r r' v w name name' len len', r.declared? = some (name, len) →
        r'.declared? = some (name', len') → (r, .var v) ∈ log → (r', .var w) ∈ log →
        (v = w ↔ name = name' ∧ Symbols.lengthOf len = Symbols.lengthOf len'))
    ∧ (∀ v w sym, d.program.symbols.get? v = some sym → d.program.symbols.get? w = some sym →
        v = w)
    ∧ (∀ child parent, d.program.IsChild child parent → child.index < parent.index)
    ∧ (∀ root, d.program.Acyclic root)
    ∧ (∀ entry maxDepth steps name args fault stores,
        Interpreter.execute ⟨d.program, entry, maxDepth⟩ steps name args
          = some ⟨.error fault, stores⟩ → ¬fault.cause.Unresolved)
    ∧ ∀ (b : SSA.Builder) name refusal, (b.buildNamed d.program name).1 = .error refusal →
        ¬refusal.obstacle.Unresolved := by
  have hkeeps := h.keeps hfits
  have hclosed := hkeeps.wellMade.closed
  refine ⟨hkeeps.denotes, fun r r' v w name name' len len' => hkeeps.declared_iff,
    fun v w sym => symbol_inj hkeeps.wellMade, fun child parent => hclosed.down, hclosed.acyclic,
    ?_, fun b name refusal => SSA.build_resolved hclosed b⟩
  intro entry maxDepth steps name args fault stores hexec
  exact Interpreter.Ends.resolved hclosed ⟨steps, hexec⟩

/-- `result = f(x)` as the body of a function `f` of `x`. -/
def recursive : List Request :=
  [.scalar "x", .read "x", .call "f" [⟨0⟩], .assign "result" ⟨1⟩,
    .function ⟨"f", [.scalar ⟨0⟩], ⟨2⟩⟩]

/-- The draft after these requests, and the answers. -/
def asking (requests : List Request) : List (Request × Handle) × Draft :=
  requests.foldl (fun (log, d) r => ((r, (d.perform r).1) :: log, (d.perform r).2)) ([], .empty)

/-- The argument of `recursive` is made before the call that has it. -/
theorem wellFormed_of_history_recursive :
    (asking recursive).2.program.IsChild ⟨0⟩ ⟨1⟩
    ∧ ∀ root, (asking recursive).2.program.Acyclic root := by
  have hchildren : ((asking recursive).2.program.expr? ⟨1⟩).map
      (asking recursive).2.program.children = some [⟨0⟩] := by decide +kernel
  have hhistory : History (asking recursive).1 (asking recursive).2 := by
    refine .asked (.asked (.asked (.asked (.asked .start ?_) ?_) ?_) ?_) ?_
    all_goals refine ⟨?_, ?_, nofun⟩
    all_goals decide +kernel
  have hfits : (asking recursive).2.program.Fits := by
    constructor
    all_goals decide +kernel
  obtain ⟨-, -, -, -, hacyclic, -⟩ := wellFormed_of_history hhistory hfits
  obtain ⟨node, hnode, hlist⟩ := Option.map_eq_some_iff.mp hchildren
  exact ⟨⟨node, hnode, hlist ▸ List.mem_cons_self⟩, hacyclic⟩

end Draft

end ExprGraph
