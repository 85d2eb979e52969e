/-
Code while it is being emitted.

Emitted code is kept backwards, so that emitting is a step at the front,
and with its length, so that a place in it can be marked and found again.
For every source variable it also knows the last place that defines it;
whether a variable is defined behind a mark is then one look-up, however
much code there is. Both are facts about the instructions, and travel with
their proofs: `writesSince_eq` says what the look-up answers.

Places count the instructions up to and including a top-level one, so a
definition is behind a mark iff its place is greater than the mark.
-/
import ExprGraph.SSA.Basic
import Std.Data.ExtTreeMap

namespace ExprGraph.SSA

-- ============================================================= last places

/-- The last place that defines a name. -/
abbrev Places := Std.ExtTreeMap String Nat

mutual

/-- Record that an instruction, arms included, stands at `place`. -/
def Inst.note (place : Nat) (t : Places) : Inst → Places
  | .assign (.user name _) _ => t.insert name place
  | .assign (.temp _) _ => t
  | .branch _ thenArm elseArm => noteAll place (noteAll place t thenArm) elseArm
  | .phi (.user name _) _ => t.insert name place
  | .phi (.temp _) _ => t

def noteAll (place : Nat) (t : Places) : List Inst → Places
  | [] => t
  | i :: rest => noteAll place (i.note place t) rest

end

mutual

/-- Exactly the names an instruction defines are recorded. -/
theorem Inst.getElem?_note (place : Nat) (t : Places) (name : String) :
    ∀ i : Inst, (i.note place t)[name]? = if i.writes name then some place else t[name]?
  | .assign (.user n _) _ => by
    simp [Inst.note, Inst.writes, Var.isNamed, Std.ExtTreeMap.getElem?_insert]
  | .assign (.temp _) _ => by simp [Inst.note, Inst.writes, Var.isNamed]
  | .branch _ thenArm elseArm => by
    simp only [Inst.note, Inst.writes]
    rw [getElem?_noteAll, getElem?_noteAll]
    grind
  | .phi (.user n _) _ => by
    simp [Inst.note, Inst.writes, Var.isNamed, Std.ExtTreeMap.getElem?_insert]
  | .phi (.temp _) _ => by simp [Inst.note, Inst.writes, Var.isNamed]

theorem getElem?_noteAll (place : Nat) (t : Places) (name : String) :
    ∀ code : List Inst,
      (noteAll place t code)[name]? = if writesAny name code then some place else t[name]?
  | [] => by simp [noteAll, writesAny]
  | i :: rest => by
    simp only [noteAll, writesAny]
    rw [getElem?_noteAll, Inst.getElem?_note]
    grind

end

/-- Whether the last definition of `name` is behind the mark. -/
def Places.behind (t : Places) (mark : Nat) (name : String) : Bool :=
  t[name]?.any (mark < ·)

-- ============================================================ emitted code

/-- Emitted code: the instructions, the latest first, how many there are,
and the last place that defines each name. -/
structure Code where
  backwards : List Inst
  size : Nat
  last : Places
  size_eq : size = backwards.length
  last_eq : ∀ mark name,
    last.behind mark name = writesAny name (backwards.take (size - mark))

namespace Code

/-- No code. -/
def empty : Code where
  backwards := []
  size := 0
  last := ∅
  size_eq := rfl
  last_eq mark name := by simp [Places.behind, writesAny]

/-- The instructions in order. -/
def insts (c : Code) : List Inst := c.backwards.reverse

/-- Emit an instruction. -/
def push (c : Code) (i : Inst) : Code where
  backwards := i :: c.backwards
  size := c.size + 1
  last := i.note (c.size + 1) c.last
  size_eq := by simp [c.size_eq]
  last_eq mark name := by
    have known := c.last_eq mark name
    simp only [Places.behind, Inst.getElem?_note] at known ⊢
    by_cases h : mark ≤ c.size
    · rw [Nat.succ_sub h, List.take_succ_cons, writesAny, ← known]
      cases i.writes name <;> simp [Nat.lt_succ_of_le h]
    · have none_behind : c.size - mark = 0 := by omega
      have none_here : c.size + 1 - mark = 0 := by omega
      rw [none_behind, List.take_zero] at known
      rw [none_here, List.take_zero, ← known]
      cases i.writes name <;> simp [known, writesAny]
      omega

/-- Whether `name` is defined behind the mark. -/
def writesSince (c : Code) (mark : Nat) (name : String) : Bool :=
  c.last.behind mark name

/-- The look-up answers what a search of the code would. -/
theorem writesSince_eq (c : Code) (mark : Nat) (name : String) :
    c.writesSince mark name = writesAny name (c.backwards.take (c.size - mark)) :=
  c.last_eq mark name

/-- The place of an instruction once another is put in behind `mark`. -/
def shifted (mark place : Nat) : Nat :=
  if mark < place then place + 1 else place

/-- Putting in an instruction that defines no source variable moves the
definitions behind it by one place, and keeps the others. -/
theorem behind_map_shifted {code : List Inst} {last : Places} {i : Inst} {count : Nat}
    (size_le : count ≤ code.length)
    (last_eq : ∀ mark name,
      last.behind mark name = writesAny name (code.take (code.length - mark)))
    (silent : ∀ name, i.writes name = false) (mark : Nat) (name : String) :
    Places.behind (last.map fun _ place => shifted (code.length - count) place) mark name =
      writesAny name ((code.take count ++ i :: code.drop count).take (code.length + 1 - mark)) := by
  have mapped : Places.behind (last.map fun _ place => shifted (code.length - count) place)
      mark name = last[name]?.any fun place => mark < shifted (code.length - count) place := by
    simp [Places.behind, Option.any_map]
  by_cases h : mark ≤ code.length - count
  · have same : last[name]?.any (fun place => mark < shifted (code.length - count) place) =
        last.behind mark name := by
      simp only [Places.behind, shifted]
      congr 1
      funext place
      split <;> simp
      omega
    have split_at : code.length - mark = count + (code.length - count - mark) := by omega
    have beyond : code.length + 1 - mark - count = code.length - count - mark + 1 := by omega
    rw [mapped, same, last_eq, List.take_append, List.length_take, Nat.min_eq_left size_le,
      beyond, List.take_succ_cons, List.take_take, Nat.min_eq_right (by omega), split_at,
      List.take_add, writesAny_append, writesAny_append]
    simp [writesAny, silent]
  · have same : last[name]?.any (fun place => mark < shifted (code.length - count) place) =
        last.behind (mark - 1) name := by
      simp only [Places.behind, shifted]
      congr 1
      funext place
      split <;> simp <;> omega
    have within : code.length + 1 - mark ≤ count := by omega
    have count_eq : code.length - (mark - 1) = code.length + 1 - mark := by omega
    rw [mapped, same, last_eq, List.take_append_of_le_length (by simp; omega), List.take_take,
      Nat.min_eq_left within, count_eq]

/-- Put an assignment to a temporary in at the mark. -/
def insertTemp (c : Code) (mark : Nat) (number : Nat) (value : Rhs) : Code :=
  let count := c.size - mark
  { backwards := c.backwards.take count ++ .assign (.temp number) value :: c.backwards.drop count
    size := c.size + 1
    last := c.last.map fun _ place => shifted (c.size - count) place
    size_eq := by simp [c.size_eq]; omega
    last_eq := by
      have known := c.last_eq
      simp only [c.size_eq] at known ⊢
      exact behind_map_shifted (c.size_eq ▸ Nat.sub_le _ _) known fun name => rfl }

end Code

end ExprGraph.SSA
