/-
Undoing the renaming: take the versions off, and leave the phis out that
the joins put in.

Such a phi can be told by its looks (`isJoin`): it merges two versions of
the name it defines. A phi of plain code never comes to look so, because
two reads of one name next to each other see one version. So the code the
renaming was given can be read off what it makes (`stripAll_versionedAll`),
and what happens at each of its instructions off what happens in an
execution of the renamed code (`Events.visible`).
-/
import ExprGraph.Proofs.SSA.Execution
import ExprGraph.Proofs.SSA.VersionTables

namespace ExprGraph.SSA

-- ============================================================== plain code

/-- Whether a variable carries no version. -/
def Var.plain : Var → Bool
  | .user _ (some _) => false
  | _ => true

/-- Whether an operand reads no versioned variable. -/
def Operand.plain : Operand → Bool
  | .const _ => true
  | .var x => x.plain

/-- Whether no variable that is read carries a version. -/
def Rhs.plain : Rhs → Bool
  | .copy operand => operand.plain
  | .unary _ operand => operand.plain
  | .binary _ left right => left.plain && right.plain

mutual

/-- Whether no source variable carries a version. -/
def Inst.plain : Inst → Bool
  | .assign dest rhs => dest.plain && rhs.plain
  | .branch cond thenArm elseArm => cond.plain && plainAll thenArm && plainAll elseArm
  | .phi dest sources => dest.plain && sources.all Var.plain

/-- Whether no source variable in some code carries a version. -/
def plainAll : List Inst → Bool
  | [] => true
  | i :: rest => i.plain && plainAll rest

end

-- ================================================================= erasure

/-- The variable without its version. -/
def Var.erase : Var → Var
  | .user name _ => .user name none
  | x => x

/-- The operand without the version of what it reads. -/
def Operand.erase : Operand → Operand
  | .const value => .const value
  | .var x => .var x.erase

/-- The right-hand side without versions. -/
def Rhs.erase : Rhs → Rhs
  | .copy operand => .copy operand.erase
  | .unary op operand => .unary op operand.erase
  | .binary op left right => .binary op left.erase right.erase

/-- Whether a phi merges two versions of the name it defines. -/
def isJoin : Var → List Var → Bool
  | .user name _, [.user x (some a), .user y (some b)] => x == name && y == name && a != b
  | _, _ => false

mutual

/-- Take the versions off, and leave joins out. -/
def Inst.strip : Inst → List Inst
  | .assign dest rhs => [.assign dest.erase rhs.erase]
  | .branch cond thenArm elseArm =>
    [.branch cond.erase (stripAll thenArm) (stripAll elseArm)]
  | .phi dest sources =>
    if isJoin dest sources then [] else [.phi dest.erase (sources.map Var.erase)]

/-- Code without versions and without the phis that merge versions. -/
def stripAll : List Inst → List Inst
  | [] => []
  | i :: rest => i.strip ++ stripAll rest

end

/-- A join has two sources, both versions of the name that it defines. -/
theorem isJoin_eq_true {dest : Var} {sources : List Var} (h : isJoin dest sources = true) :
    ∃ name version a b, dest = .user name version
      ∧ sources = [.user name (some a), .user name (some b)] ∧ a ≠ b := by
  unfold isJoin at h
  split at h
  · simp only [Bool.and_eq_true, beq_iff_eq, bne_iff_ne] at h
    obtain ⟨⟨rfl, rfl⟩, hne⟩ := h
    exact ⟨_, _, _, _, rfl, rfl, hne⟩
  · cases h

/-- The reason of being stuck, without versions. -/
def Trap.erase : Trap → Trap
  | .undefined x => .undefined x.erase
  | .fault cause => .fault cause

/-- What happened, without versions. -/
def Event.erase : Event → Event
  | .assigned dest rhs value => .assigned dest.erase rhs.erase value
  | .branched cond value thenTaken => .branched cond.erase value thenTaken
  | .merged dest sources value => .merged dest.erase (sources.map Var.erase) value
  | .stuckAssign dest rhs trap => .stuckAssign dest.erase rhs.erase trap.erase
  | .stuckBranch cond trap => .stuckBranch cond.erase trap.erase

/-- Whether it happened at a join. -/
def Event.isJoin : Event → Bool
  | .merged dest sources _ => SSA.isJoin dest sources
  | _ => false

/-- What happened at the instructions that are no joins, without
versions. -/
def Events.visible (trace : Events) : Events :=
  (trace.filter fun event => !event.isJoin).map Event.erase

/-- What is visible of two stretches is visible of the first and then of the
second. -/
theorem Events.visible_append (a b : Events) :
    Events.visible (a ++ b) = Events.visible a ++ Events.visible b := by
  unfold visible
  rw [List.filter_append, List.map_append]

/-- What happens at an instruction that is no join is visible. -/
theorem Events.visible_snoc {trace : Events} {event : Event} (h : event.isJoin = false) :
    Events.visible (trace ++ [event]) = Events.visible trace ++ [event.erase] := by
  rw [visible_append, visible, visible, List.filter_singleton, h]
  rfl

/-- What happens at a join is not. -/
theorem Events.visible_join {trace : Events} {event : Event} (h : event.isJoin = true) :
    Events.visible (trace ++ [event]) = Events.visible trace := by
  rw [visible_append, visible, visible, List.filter_singleton, h]
  exact List.append_nil _

/-- Joins take no arms. -/
theorem Events.arms_visible (trace : Events) : Events.arms trace.visible = trace.arms := by
  induction trace with
  | nil => rfl
  | cons event trace ih =>
      have hcons : Events.visible (event :: trace)
          = Events.visible [event] ++ Events.visible trace := visible_append [event] trace
      rw [hcons, arms, List.filterMap_append, ← arms, ← arms, ih]
      cases event with
      | merged dest sources value =>
          cases hjoin : SSA.isJoin dest sources with
          | true => simp [visible, Event.isJoin, hjoin, arms]
          | false => simp [visible, Event.isJoin, hjoin, arms, Event.erase]
      | _ => simp [visible, Event.isJoin, arms, Event.erase]

/-- Joins give no variable of the source a value. -/
theorem Events.definitions_visible (trace : Events) :
    Events.definitions trace.visible = trace.definitions := by
  induction trace with
  | nil => rfl
  | cons event trace ih =>
      have hcons : Events.visible (event :: trace)
          = Events.visible [event] ++ Events.visible trace := visible_append [event] trace
      rw [hcons, definitions_append, ih]
      refine Eq.trans ?_ (definitions_append [event] trace).symm
      congr 1
      cases event with
      | assigned dest rhs value => cases dest <;> rfl
      | merged dest sources value =>
          cases hjoin : SSA.isJoin dest sources with
          | true =>
              obtain ⟨name, version, a, b, rfl, rfl, -⟩ := isJoin_eq_true hjoin
              rw [definitions_merged]
              unfold visible
              rw [List.filter_singleton, Event.isJoin, hjoin]
              rfl
          | false =>
              unfold visible
              rw [List.filter_singleton, Event.isJoin, hjoin]
              cases dest with
              | temp number => rfl
              | user name version =>
                  have hany : ((sources.map Var.erase).any fun x => !x.isTemp) =
                      sources.any fun x => !x.isTemp := by
                    rw [List.any_map]
                    congr 1
                    funext x
                    cases x <;> rfl
                  rw [definitions_merged, ← hany]
                  exact definitions_merged name none _ value
      | _ => rfl

-- =================================================== erasing the renaming

namespace Versions

variable {v : Versions}

/-- A read adds a version, and no more. -/
theorem erase_read {x : Var} (hx : x.plain = true) (v : Versions) :
    (v.read x).1.erase = x := by
  cases x with
  | temp number => rfl
  | user name version =>
      cases version with
      | some version => cases hx
      | none =>
          cases hcurrent : v.current[name]? with
          | some version => rw [read_of_current hcurrent]; rfl
          | none => rw [read_of_unknown hcurrent]; rfl

/-- So does a write. -/
theorem erase_write {x : Var} (hx : x.plain = true) (v : Versions) :
    (v.write x).1.erase = x := by
  cases x with
  | temp number => rfl
  | user name version =>
      cases version with
      | some version => cases hx
      | none => rfl

/-- Reading an operand adds a version at most. -/
theorem erase_readOperand {operand : Operand} (h : operand.plain = true) (v : Versions) :
    (v.readOperand operand).1.erase = operand := by
  cases operand with
  | const value => rfl
  | var x => exact congrArg Operand.var (erase_read h v)

/-- Reading a right-hand side adds versions only. -/
theorem erase_readRhs {rhs : Rhs} (h : rhs.plain = true) (v : Versions) :
    (v.readRhs rhs).1.erase = rhs := by
  cases rhs with
  | copy operand => exact congrArg Rhs.copy (erase_readOperand h v)
  | unary op operand => exact congrArg (Rhs.unary op) (erase_readOperand h v)
  | binary op left right =>
      rw [Rhs.plain, Bool.and_eq_true] at h
      exact congrArg₂ (Rhs.binary op) (erase_readOperand h.1 v) (erase_readOperand h.2 _)

/-- Reading the sources of a phi adds versions only. -/
theorem erase_readAll {sources : List Var} (h : sources.all Var.plain = true) (v : Versions) :
    (v.readAll sources).1.map Var.erase = sources := by
  induction sources generalizing v with
  | nil => rfl
  | cons x sources ih =>
      rw [List.all_cons, Bool.and_eq_true] at h
      exact congrArg₂ List.cons (erase_read h.1 v) (ih h.2 _)

/-- A name that was read is read at the same version again. -/
theorem read_again (v : Versions) (name : String) :
    ((v.read (.user name none)).2.read (.user name none)).1 = (v.read (.user name none)).1 := by
  cases hcurrent : v.current[name]? with
  | some version => rw [read_of_current hcurrent, read_of_current hcurrent]
  | none =>
      rw [read_of_unknown hcurrent, read_of_current]
      exact Std.ExtTreeMap.getElem?_insert_self

/-- No phi of plain code comes to look like a join. -/
theorem isJoin_readAll {sources : List Var} (h : sources.all Var.plain = true) (dest : Var) :
    isJoin dest (v.readAll sources).1 = false := by
  rw [Bool.eq_false_iff]
  intro hjoin
  obtain ⟨name, version, a, b, -, hsources, hne⟩ := isJoin_eq_true hjoin
  have herase := erase_readAll h v
  rw [hsources] at herase
  subst herase
  -- both sources are the bare name, so the second is read as the first
  have hread : [(v.read (.user name none)).1,
      ((v.read (.user name none)).2.read (.user name none)).1] =
      [.user name (some a), .user name (some b)] := hsources
  rw [read_again] at hread
  simp only [List.cons.injEq] at hread
  obtain ⟨hfirst, hsecond, -⟩ := hread
  rw [hfirst] at hsecond
  cases hsecond
  exact hne rfl

/-- The phis behind a branch are joins. -/
theorem isJoin_of_joinPhi {thenArm elseArm : VersionTable} {name : String} {i : Inst}
    (h : joinPhi thenArm elseArm v name = some i) :
    ∃ dest sources, i = .phi dest sources ∧ isJoin dest sources = true := by
  obtain ⟨a, b, -, -, hne, rfl⟩ := joinPhi_eq_some thenArm elseArm h
  refine ⟨_, _, rfl, ?_⟩
  simpa only [isJoin, beq_self_eq_true, Bool.true_and, bne_iff_ne, ne_eq] using hne

end Versions

theorem stripAll_append (a b : List Inst) : stripAll (a ++ b) = stripAll a ++ stripAll b := by
  induction a with
  | nil => rfl
  | cons i a ih => rw [List.cons_append, stripAll, stripAll, ih, List.append_assoc]

/-- So stripping leaves nothing of them. -/
theorem stripAll_joins {thenArm elseArm : VersionTable} {v : Versions} (names : List String) :
    stripAll (names.filterMap (Versions.joinPhi thenArm elseArm v)) = [] := by
  induction names with
  | nil => rfl
  | cons name names ih =>
      rw [List.filterMap_cons]
      cases hphi : Versions.joinPhi thenArm elseArm v name with
      | none => exact ih
      | some i =>
          obtain ⟨dest, sources, rfl, hjoin⟩ := Versions.isJoin_of_joinPhi hphi
          simp only [stripAll, Inst.strip, hjoin, if_pos, List.nil_append, ih]

mutual

theorem Inst.stripAll_versioned (v : Versions) :
    ∀ i : Inst, i.plain = true → stripAll (i.versioned v) = [i]
  | .assign dest rhs, h => by
    rw [Inst.plain, Bool.and_eq_true] at h
    have hdest := Versions.erase_write h.1 (v.readRhs rhs).2
    have hrhs := Versions.erase_readRhs h.2 v
    rw [Inst.versioned_assign, stripAll, Inst.strip, hdest, hrhs]
    rfl
  | .phi dest sources, h => by
    rw [Inst.plain, Bool.and_eq_true] at h
    have hdest := Versions.erase_write h.1 (v.readAll sources).2
    have hsources := Versions.erase_readAll h.2 v
    have hjoin := Versions.isJoin_readAll (v := v) h.2 ((v.readAll sources).2.write dest).1
    rw [Inst.versioned_phi, stripAll, Inst.strip, hjoin, hdest, hsources]
    rfl
  | .branch cond thenArm elseArm, h => by
    rw [Inst.plain, Bool.and_eq_true, Bool.and_eq_true] at h
    rw [Inst.versioned_branch]
    simp only [stripAll, Inst.strip, stripAll_joins, List.append_nil,
      Versions.erase_readOperand h.1.1 v, stripAll_versionedAll _ thenArm h.1.2,
      stripAll_versionedAll _ elseArm h.2]

/-- The renaming can be undone. -/
theorem stripAll_versionedAll (v : Versions) :
    ∀ code : List Inst, plainAll code = true → stripAll (versionedAll v code) = code
  | [], _ => rfl
  | i :: rest, h => by
    rw [plainAll, Bool.and_eq_true] at h
    rw [versionedAll_cons, stripAll_append, i.stripAll_versioned v h.1,
      stripAll_versionedAll _ rest h.2]
    rfl

end

end ExprGraph.SSA
