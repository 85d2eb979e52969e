/-
Versions: every write of a source variable gets the next version of its
name, and every read the version it sees.

Two tables are kept. `latest` holds the last version handed out for each
name and is shared by all arms, so no version is handed out twice.
`current` holds the version a read sees; each arm starts from the table in
front of its branch. Behind a branch the two tables of the arms are
joined, name by name in order: where they disagree a phi defines a new
version, and where only one arm knows a name its version is taken over.

Names that are live on entry have version 0, and so has a name that is
read before it is written. Temporaries, and names that carry a version
already, are left alone.
-/
import ExprGraph.SSA.Basic
import Std.Data.ExtTreeMap

namespace ExprGraph.SSA

/-- Versions by name. -/
abbrev VersionTable := Std.ExtTreeMap String Nat

/-- The versions handed out, and those that reads see. -/
structure Versions where
  latest : VersionTable := ∅
  current : VersionTable := ∅

namespace Versions

/-- The tables on entry. -/
def ofLiveIn (names : List String) : Versions :=
  let table : VersionTable := names.foldl (fun t name => t.insert name 0) ∅
  ⟨table, table⟩

/-- The next version of a name, counted without bound. A count of 32 bits is
the same below 2^32, and a name passes that only in code that holds as many
definitions of it. -/
def next (v : Versions) (name : String) : Nat :=
  match v.latest[name]? with
  | some version => version + 1
  | none => 1

/-- Let reads of `name` see `version`. -/
def adopt (v : Versions) (name : String) (version : Nat) : Versions :=
  { v with current := v.current.insert name version }

-- =================================================================== reads

/-- The variable a read sees. -/
def read (v : Versions) : Var → Var × Versions
  | .user name none =>
    match v.current[name]? with
    | some version => (.user name (some version), v)
    | none =>
      (.user name (some 0), ⟨v.latest.insertIfNew name 0, v.current.insert name 0⟩)
  | var => (var, v)

def readOperand (v : Versions) : Operand → Operand × Versions
  | .const value => (.const value, v)
  | .var x =>
    let (x, v) := v.read x
    (.var x, v)

/-- The operands are read from left to right. -/
def readRhs (v : Versions) : Rhs → Rhs × Versions
  | .copy operand =>
    let (operand, v) := v.readOperand operand
    (.copy operand, v)
  | .unary op operand =>
    let (operand, v) := v.readOperand operand
    (.unary op operand, v)
  | .binary op left right =>
    let (left, v) := v.readOperand left
    let (right, v) := v.readOperand right
    (.binary op left right, v)

def readAll (v : Versions) : List Var → List Var × Versions
  | [] => ([], v)
  | x :: rest =>
    let (x, v) := v.read x
    let (rest, v) := v.readAll rest
    (x :: rest, v)

-- ================================================================== writes

/-- The variable a write defines. -/
def write (v : Versions) : Var → Var × Versions
  | .user name none =>
    let version := v.next name
    (.user name (some version), ⟨v.latest.insert name version, v.current.insert name version⟩)
  | var => (var, v)

-- =================================================================== joins

/-- Join the arms in one name; a phi goes onto `out`, the latest first. -/
def joinName (thenArm elseArm : VersionTable) (out : List Inst) (v : Versions) (name : String) :
    List Inst × Versions :=
  match thenArm[name]?, elseArm[name]? with
  | some a, some b =>
    if a = b then
      (out, v.adopt name a)
    else
      let (dest, v) := v.write (.user name none)
      (.phi dest [.user name (some a), .user name (some b)] :: out, v)
  | some a, none => (out, v.adopt name a)
  | none, some b => (out, v.adopt name b)
  | none, none => (out, v)

/-- The names that at least one arm knows, in order. -/
def joinNames (thenArm elseArm : VersionTable) : List String :=
  (thenArm ∪ elseArm).keys

/-- Join the arms in all names. -/
def join (thenArm elseArm : VersionTable) (out : List Inst) (v : Versions) :
    List Inst × Versions :=
  (joinNames thenArm elseArm).foldl
    (fun (out, v) name => joinName thenArm elseArm out v name) (out, v)

end Versions

-- ================================================================ renaming

mutual

/-- Version an instruction, and put it onto `out`, the latest first. -/
def Inst.renameOnto (out : List Inst) (v : Versions) : Inst → List Inst × Versions
  | .assign dest value =>
    let (value, v) := v.readRhs value
    let (dest, v) := v.write dest
    (.assign dest value :: out, v)
  | .branch cond thenArm elseArm =>
    let (cond, v) := v.readOperand cond
    let (thenCode, t) := renameAll [] v thenArm
    let (elseCode, e) := renameAll [] ⟨t.latest, v.current⟩ elseArm
    Versions.join t.current e.current
      (.branch cond thenCode.reverse elseCode.reverse :: out) ⟨e.latest, v.current⟩
  | .phi dest sources =>
    let (sources, v) := v.readAll sources
    let (dest, v) := v.write dest
    (.phi dest sources :: out, v)

def renameAll (out : List Inst) (v : Versions) : List Inst → List Inst × Versions
  | [] => (out, v)
  | i :: rest =>
    let (out, v) := i.renameOnto out v
    renameAll out v rest

end

/-- Version all source variables of some code; the names in `liveIn` have
a value on entry. -/
def rename (code : List Inst) (liveIn : List String) : List Inst :=
  (renameAll [] (Versions.ofLiveIn liveIn) code).1.reverse

-- ============================================================= composition

theorem Versions.joinName_eq (thenArm elseArm : VersionTable) (out : List Inst) (v : Versions)
    (name : String) :
    joinName thenArm elseArm out v name =
      ((joinName thenArm elseArm [] v name).1 ++ out, (joinName thenArm elseArm [] v name).2) := by
  simp only [joinName]
  split <;> (try split) <;> rfl

theorem Versions.foldl_joinName_eq (thenArm elseArm : VersionTable) (names : List String)
    (out : List Inst) (v : Versions) :
    names.foldl (fun (out, v) name => joinName thenArm elseArm out v name) (out, v) =
      ((names.foldl (fun (out, v) name => joinName thenArm elseArm out v name) ([], v)).1 ++ out,
        (names.foldl (fun (out, v) name => joinName thenArm elseArm out v name) ([], v)).2) := by
  induction names generalizing out v with
  | nil => rfl
  | cons name names ih =>
    simp only [List.foldl_cons]
    rw [ih, ih (joinName thenArm elseArm [] v name).1, joinName_eq]
    simp

theorem Versions.join_eq (thenArm elseArm : VersionTable) (out : List Inst) (v : Versions) :
    join thenArm elseArm out v =
      ((join thenArm elseArm [] v).1 ++ out, (join thenArm elseArm [] v).2) :=
  foldl_joinName_eq thenArm elseArm _ out v

/-- Code in front has no influence on how an instruction is versioned. -/
theorem Inst.renameOnto_eq (out : List Inst) (v : Versions) (i : Inst) :
    i.renameOnto out v = ((i.renameOnto [] v).1 ++ out, (i.renameOnto [] v).2) := by
  cases i with
  | assign dest value => rfl
  | branch cond thenArm elseArm =>
    simp only [Inst.renameOnto]
    rw [Versions.join_eq, Versions.join_eq _ _ [_]]
    simp
  | phi dest sources => rfl

theorem renameAll_eq (out : List Inst) (v : Versions) (code : List Inst) :
    renameAll out v code = ((renameAll [] v code).1 ++ out, (renameAll [] v code).2) := by
  induction code generalizing out v with
  | nil => rfl
  | cons i rest ih =>
    simp only [renameAll]
    rw [ih, Inst.renameOnto_eq, ih (i.renameOnto [] v).1]
    simp

end ExprGraph.SSA
