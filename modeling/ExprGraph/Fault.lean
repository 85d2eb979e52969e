/-
Failures of a run: the cause, the broad category it belongs to, and the
site where it was met.

A cause says what went wrong, and `Cause.message` is the only place that
words it. A malformed program that reaches the machine is a `Breach`. The
site is filled in layers, innermost first: a layer writes only what is
still missing.
-/
import ExprGraph.Decimal.Positional
import ExprGraph.Expr

namespace ExprGraph

-- ============================================================== categories

/-- Broad kinds of failure, shared by the machine and the SSA engine. -/
inductive Category where
  | lookup | arity | range | arithmetic | unsupported | inconsistency | exhaustion
deriving DecidableEq, Repr

/-- The category in words. -/
def Category.text : Category → String
  | .lookup => "lookup fault"
  | .arity => "arity fault"
  | .range => "range fault"
  | .arithmetic => "arithmetic fault"
  | .unsupported => "unsupported construct"
  | .inconsistency => "internal consistency fault"
  | .exhaustion => "resource exhaustion"

/-- Whether the program is to blame, rather than the resources it ran
with. -/
def Category.isLogic : Category → Bool
  | .exhaustion => false
  | _ => true

-- ================================================================ breaches

/-- Ways a malformed program, or a broken invariant of the machine, shows
itself. -/
inductive Breach where
  | danglingExpr (id : ExprId)
  | unknownName (id : NameId)
  | argumentsOutOfRange
  | tooManyParameters
  | pendingUnderflow
  | valueUnderflow
  | frameUnderflow
  | noFrame
  | badPhase (phase : Nat) (what : String)
  | shortArray (array : String)
  /-- A breach reported by the host, in its own words. -/
  | other (text : String)
deriving DecidableEq, Repr

def Breach.text : Breach → String
  | .danglingExpr id => s!"dangling expression {id.text}"
  | .unknownName id => s!"unknown function name {id.index}"
  | .argumentsOutOfRange => "argument list out of range"
  | .tooManyParameters => "too many parameters"
  | .pendingUnderflow => "continuation stack underflow"
  | .valueUnderflow => "data stack underflow"
  | .frameUnderflow => "frame stack underflow"
  | .noFrame => "no active frame"
  | .badPhase phase what => s!"invalid phase {phase} for {what}"
  | .shortArray array => s!"array `{array}` shorter than declared"
  | .other text => text

-- ================================================================== causes

/-- Why a run failed. -/
inductive Cause where
  | undefinedFunction (name : String)
  | uninitialized (name : String)
  | unknownVariable (id : VarId)
  | missingResult (function : String)
  | arityMismatch (function : String) (expected got : Nat)
  | arrayExpected (function : String) (position : Nat)
  | scalarExpected (function : String) (position : Nat)
  | sizeMismatch (function : String) (expected got : Nat)
  | negativeIndex (array : String) (index : Float)
  | invalidIndex (array : String)
  | indexTooLarge (array : String) (index : Float)
  | indexOutOfBounds (array : String) (slot len : Nat)
  | divisionByZero
  | broken (breach : Breach)
  | outOfMemory (what : String)
  | depthLimit (limit : Nat)
deriving BEq, Repr

/-- The category a cause belongs to. -/
def Cause.category : Cause → Category
  | .undefinedFunction _ | .uninitialized _ | .unknownVariable _ | .missingResult _ => .lookup
  | .arityMismatch .. | .arrayExpected .. | .scalarExpected .. | .sizeMismatch .. => .arity
  | .negativeIndex .. | .invalidIndex _ | .indexTooLarge .. | .indexOutOfBounds .. => .range
  | .divisionByZero => .arithmetic
  | .broken _ => .inconsistency
  | .outOfMemory _ | .depthLimit _ => .exhaustion

/-- The cause in words. -/
def Cause.message : Cause → String
  | .undefinedFunction name => s!"undefined function `{name}`"
  | .uninitialized name => s!"variable `{name}` read before it was assigned"
  | .unknownVariable id => s!"unknown variable id {id.index}"
  | .missingResult function => s!"function `{function}` returned without assigning `result`"
  | .arityMismatch function expected got =>
    s!"function `{function}` expects {expected} argument(s), got {got}"
  | .arrayExpected function position =>
    s!"argument {position} of `{function}` must name an array"
  | .scalarExpected function position =>
    s!"argument {position} of `{function}` must be a scalar"
  | .sizeMismatch function expected got =>
    s!"array parameter of `{function}` has length {expected}, argument has length {got}"
  | .negativeIndex array index =>
    s!"index {Decimal.text index} into `{array}` is negative"
  | .invalidIndex array => s!"index into `{array}` is not a number"
  | .indexTooLarge array index =>
    s!"index {Decimal.text index} into `{array}` is too large"
  | .indexOutOfBounds array slot len =>
    s!"index {slot} out of bounds for `{array}` of length {len}"
  | .divisionByZero => "division by zero"
  | .broken breach => s!"internal error: {breach.text}"
  | .outOfMemory what => s!"out of memory growing the {what}"
  | .depthLimit limit => s!"evaluation depth limit of {limit} exceeded"

-- =================================================================== sites

/-- Where a failure was met: the function whose frame was active, and the
node being evaluated. -/
structure Site where
  function : Option String := none
  expr : Option ExprId := none
deriving DecidableEq, Repr

/-- A site behind a message; a missing part is left out. -/
def Site.text (s : Site) : String :=
  match s.function, s.expr with
  | some function, some expr => s!" (in `{function}` at {expr.text})"
  | some function, none => s!" (in `{function}`)"
  | none, some expr => s!" (at {expr.text})"
  | none, none => ""

/-- A failure: its cause, and where it was met. -/
structure Fault where
  cause : Cause
  site : Site := {}
deriving BEq, Repr

/-- Add what the site does not say yet. -/
def Fault.locate (f : Fault) (s : Site) : Fault :=
  { f with site := ⟨f.site.function <|> s.function, f.site.expr <|> s.expr⟩ }

def Fault.category (f : Fault) : Category := f.cause.category

/-- The whole message: category, cause, site. -/
def Fault.message (f : Fault) : String :=
  s!"{f.category.text}: {f.cause.message}{f.site.text}"

-- ========================================== computations that may fail

section Except

variable {ε α β : Type}

theorem ok_bind (a : α) (f : α → Except ε β) : (Except.ok a >>= f) = f a := rfl

theorem error_bind (e : ε) (f : α → Except ε β) :
    ((Except.error e : Except ε α) >>= f) = .error e := rfl

/-- Taking the value out of a computation that succeeded. -/
theorem bind_eq_ok {x : Except ε α} {f : α → Except ε β} {b : β} :
    (x >>= f) = .ok b ↔ ∃ a, x = .ok a ∧ f a = .ok b := by
  cases x <;> simp [bind, Except.bind]

end Except

end ExprGraph
