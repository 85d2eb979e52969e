/-
Reports of stores, and where they go.

A store is reported by one line of text. A buffer keeps the lines as one
text, each closed by a line feed; the console prints them; a silent trace
drops them. Reading a buffer back splits its text again, so a line that
holds a line feed comes back as two.
-/
import ExprGraph.Decimal.Positional
import ExprGraph.Expr

namespace ExprGraph

-- ================================================================== stores

/-- A value written to a variable, by number and name. -/
inductive Store where
  | scalar (var : VarId) (name : String) (value : Float)
  | element (array : VarId) (name : String) (slot : Nat) (value : Float)
deriving BEq, Repr

/-- The line that reports a store. -/
def Store.line : Store → String
  | .scalar _ name value => s!"{name} = {Decimal.text value}"
  | .element _ name slot value => s!"{name}[{slot}] = {Decimal.text value}"

-- =================================================================== lines

/-- Drop a carriage return that ends a line, given backwards. -/
def dropReturn : List Char → List Char
  | '\r' :: line => line
  | line => line

/-- Split at line feeds: `line` is the open line and `done` the closed
ones, both backwards. An empty last line is no line. -/
def splitLines : List Char → List Char → List String → List String
  | [], [], done => done.reverse
  | [], line, done => (String.ofList line.reverse :: done).reverse
  | '\n' :: rest, line, done =>
    splitLines rest [] (String.ofList (dropReturn line).reverse :: done)
  | c :: rest, line, done => splitLines rest (c :: line) done

/-- A line that stays one line: it holds no line feed, and does not end in
a carriage return. -/
def IsLine (line : List Char) : Prop :=
  '\n' ∉ line ∧ line.getLast? ≠ some '\r'

theorem dropReturn_of_isLine {line : List Char} (h : IsLine line) :
    dropReturn line.reverse = line.reverse := by
  cases backwards : line.reverse with
  | nil => rfl
  | cons c rest =>
    have last : line.getLast? = some c := by rw [← List.head?_reverse, backwards]; rfl
    have other : c ≠ '\r' := fun same => h.2 (same ▸ last)
    unfold dropReturn
    split
    · simp_all
    · rfl

theorem splitLines_append {line : List Char} (h : '\n' ∉ line) (rest before : List Char)
    (done : List String) :
    splitLines (line ++ rest) before done = splitLines rest (line.reverse ++ before) done := by
  induction line generalizing before with
  | nil => rfl
  | cons c line ih =>
    have other : c ≠ '\n' := fun same => h (same ▸ List.mem_cons_self)
    have tail : '\n' ∉ line := fun mem => h (List.mem_cons_of_mem _ mem)
    simp [splitLines, ih tail]

/-- Lines that were each closed by a line feed come back. -/
theorem splitLines_lines {lines : List (List Char)} (h : ∀ line ∈ lines, IsLine line)
    (done : List String) :
    splitLines (lines.flatMap (· ++ ['\n'])) [] done =
      done.reverse ++ lines.map String.ofList := by
  induction lines generalizing done with
  | nil => simp [splitLines]
  | cons line lines ih =>
    have here := h line List.mem_cons_self
    rw [List.flatMap_cons, List.append_assoc, splitLines_append here.1]
    simp only [List.append_nil, List.cons_append, List.nil_append, splitLines,
      dropReturn_of_isLine here, List.reverse_reverse]
    rw [ih fun other mem => h other (List.mem_cons_of_mem _ mem)]
    simp

-- =================================================================== trace

/-- Where reported lines go. -/
inductive Sink where
  | console | buffer | silent
deriving DecidableEq, Repr

/-- A sink with what it holds: the text a buffer captured, and the text
that went to the console. -/
structure Trace where
  sink : Sink
  captured : String := ""
  printed : String := ""
deriving DecidableEq, Repr

namespace Trace

/-- Whether lines are dropped. -/
def isSilent (t : Trace) : Bool :=
  t.sink == .silent

/-- Report one line. -/
def record (t : Trace) (line : String) : Trace :=
  match t.sink with
  | .console => { t with printed := (t.printed ++ line).push '\n' }
  | .buffer => { t with captured := (t.captured ++ line).push '\n' }
  | .silent => t

/-- Report stores in order. A silent trace has no use for their lines. -/
def recordAll (t : Trace) (stores : List Store) : Trace :=
  if t.isSilent then t else stores.foldl (fun t s => t.record s.line) t

/-- The captured text, line by line. -/
def lines (t : Trace) : List String :=
  splitLines t.captured.toList [] []

/-- Forget what a buffer captured. -/
def clear (t : Trace) : Trace :=
  { t with captured := "" }

end Trace

end ExprGraph
