/-
The SSA form of a function: its body lowered, its temporaries numbered in
the order of the lines, its variables versioned.

A builder takes one function after another; it carries nothing but the
number of temporaries handed out. Temporaries taken by a function that was
refused stay taken.

# The counter

`Builder` counts without bound, and never hands out a temporary twice. The
counter of a builder that runs has 32 bits (`Builder32`): behind its last
value it starts again at zero, or the build panics, as the arithmetic is
unchecked or checked. Lowering never looks at the number of a temporary, so
to lower with numbers that wrap around is to lower with numbers that do not
and to wrap them; numbering does look at them, and is given wrapped ones.
As long as the count stays below 2^32 the two builders are one
(`build_of_room`).
-/
import ExprGraph.SSA.Numbering
import ExprGraph.SSA.Versions
import ExprGraph.SSA.Worklist

namespace ExprGraph.SSA

/-- A builder that counts without bound: the number of temporaries it handed
out. -/
structure Builder where
  temps : Nat := 0
deriving DecidableEq, Repr

/-- The names of the parameters, all of which must be declared scalars. A
parameter that is not is met at the body. -/
def paramNames (p : Program) (body : ExprId) : List Param → Except Refusal (List String)
  | [] => .ok []
  | .scalar var :: rest => do
    let some name := p.symbols.name? var | throw ⟨.unknownVariable var, some body⟩
    return name :: (← paramNames p body rest)
  | .array _ :: _ => .error ⟨.unsupported "array parameter", some body⟩

/-- What lowering made, with temporaries and variables put in order. -/
def finish (base : Nat) (liveIn : List String) (code : Code) : List Inst :=
  rename (renumber base code.insts) liveIn

namespace Builder

/-- The SSA form of a function. -/
def build (b : Builder) (p : Program) (f : Function) : Except Refusal (List Inst) × Builder :=
  match paramNames p f.body f.params with
  | .error refusal => (.error refusal, b)
  | .ok liveIn =>
    match lowerBody p f.body ⟨.empty, none, b.temps⟩ with
    | .error stop => (.error stop.refusal, ⟨stop.temps⟩)
    | .ok e => (.ok (finish b.temps liveIn e.code), ⟨e.temps⟩)

/-- The SSA form of the function with a name. -/
def buildNamed (b : Builder) (p : Program) (name : String) :
    Except Refusal (List Inst) × Builder :=
  match p.function? name with
  | some f => b.build p f
  | none => (.error { obstacle := .undefinedFunction name }, b)

end Builder

-- ============================================================ 32-bit counters

/-- What a counter does behind its last value: unchecked arithmetic starts
again at zero, checked arithmetic panics. -/
inductive Overflow where
  | wraps
  | panics
deriving DecidableEq, Repr

/-- What 32 bits keep of a number. -/
def wrapped (number : Nat) : Nat :=
  number % UInt32.size

/-- A builder whose counter of temporaries has 32 bits. -/
structure Builder32 where
  temps : UInt32 := 0
deriving DecidableEq, Repr

/-- What lowering made from a counter at `base`, put in order: the numbers
are wrapped as they are handed out, and once more as temporaries are
numbered from the base. -/
def finish32 (base : UInt32) (liveIn : List String) (code : Code) : List Inst :=
  rename (relabel wrapped (renumber base.toNat (relabel wrapped code.insts))) liveIn

namespace Builder32

/-- An answer, where the count went up to `temps`. With checked arithmetic
there is none if the counter could not follow. -/
def counted {α : Type} (overflow : Overflow) (temps : Nat) (answer : α) :
    Option (α × Builder32) :=
  if overflow = .panics ∧ UInt32.size ≤ temps then none else some (answer, ⟨.ofNat temps⟩)

/-- The SSA form of a function, unless the build panics. -/
def build (overflow : Overflow) (b : Builder32) (p : Program) (f : Function) :
    Option (Except Refusal (List Inst) × Builder32) :=
  match paramNames p f.body f.params with
  | .error refusal => some (.error refusal, b)
  | .ok liveIn =>
    match lowerBody p f.body ⟨.empty, none, b.temps.toNat⟩ with
    | .error stop => counted overflow stop.temps (.error stop.refusal)
    | .ok e => counted overflow e.temps (.ok (finish32 b.temps liveIn e.code))

/-- The SSA form of the function with a name, unless the build panics. -/
def buildNamed (overflow : Overflow) (b : Builder32) (p : Program) (name : String) :
    Option (Except Refusal (List Inst) × Builder32) :=
  match p.function? name with
  | some f => b.build overflow p f
  | none => some (.error { obstacle := .undefinedFunction name }, b)

end Builder32

end ExprGraph.SSA
