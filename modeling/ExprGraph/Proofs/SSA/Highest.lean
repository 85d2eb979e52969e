/-
The highest version of a name in renamed code.

It is the last one that was handed out (`highest_versionedAll`): reads see
versions handed out before, and every version handed out is written where
it is handed out. On the way along a list of instructions the last version
handed out is also the one that reads see (`Entry.Synced`), so at the end
of the code the highest version is the one the name has there. In the
second arm of a branch this fails, for the versions of the first arm are
taken and not seen; but what an arm does to an entry either changes
nothing or brings the two together again.
-/
import ExprGraph.Proofs.SSA.Erasure

namespace ExprGraph.SSA

-- =========================================================== versions in code

/-- The version at which a variable is of a name, 0 if it is not. -/
def Var.versionOf (name : String) : Var → Nat
  | .user other (some version) => if other = name then version else 0
  | _ => 0

/-- The version at which an operand reads a name, 0 if it does not. -/
def Operand.highest (name : String) : Operand → Nat
  | .const _ => 0
  | .var x => x.versionOf name

/-- The highest version at which a right-hand side reads a name, 0 if it
does not. -/
def Rhs.highest (name : String) : Rhs → Nat
  | .copy operand => operand.highest name
  | .unary _ operand => operand.highest name
  | .binary _ left right => max (left.highest name) (right.highest name)

/-- The highest version of a name among some variables, 0 if there is
none. -/
def highestOf (name : String) : List Var → Nat
  | [] => 0
  | x :: rest => max (x.versionOf name) (highestOf name rest)

mutual

/-- The highest version of a name in an instruction and its arms, 0 if
there is none. -/
def Inst.highest (name : String) : Inst → Nat
  | .assign dest rhs => max (dest.versionOf name) (rhs.highest name)
  | .branch cond thenArm elseArm =>
    max (cond.highest name) (max (highest name thenArm) (highest name elseArm))
  | .phi dest sources => max (dest.versionOf name) (highestOf name sources)

/-- The highest version of a name in some code, 0 if there is none. -/
def highest (name : String) : List Inst → Nat
  | [] => 0
  | i :: rest => max (i.highest name) (highest name rest)

end

/-- Code in two parts has the higher of what its parts have. -/
theorem highest_append (name : String) (a b : List Inst) :
    highest name (a ++ b) = max (highest name a) (highest name b) := by
  induction a with
  | nil => exact (Nat.zero_max _).symm
  | cons i a ih => rw [List.cons_append, highest, highest, ih, Nat.max_assoc]

-- ================================================================ one name

namespace Entry

/-- The last version handed out, 0 if none was. -/
def top (e : Entry) : Nat := e.latest.getD 0

/-- Reads see the last version handed out. -/
def Synced (e : Entry) : Prop := e.current = e.latest

variable {e t : Entry}

/-- What reads see was handed out. -/
theorem Bounded.le_top (h : e.Bounded) {k : Nat} (hk : e.current = some k) : k ≤ e.top := by
  have hlt := h k hk
  rw [next_eq] at hlt
  exact Nat.le_of_lt_succ hlt

/-- A read hands nothing out. The version 0 it may settle on counts as the
last one anyway. -/
theorem top_seen (e : Entry) : e.seen.top = e.top := by
  obtain ⟨latest, current⟩ := e
  cases current <;> rfl

/-- The last version handed out does not go down. -/
theorem Reaches.top_le (h : e.Reaches t) : e.top ≤ t.top := by
  have hle := h.next_le
  rw [next_eq, next_eq] at hle
  exact Nat.le_of_succ_le_succ hle

/-- A write hands out the next version. -/
theorem top_written (e : Entry) : e.written.top = e.top + 1 :=
  next_eq e

/-- Once reads see the last version handed out, they go on doing so. -/
theorem Reaches.synced (h : e.Reaches t) (he : e.Synced) : t.Synced := by
  cases h with
  | same => exact he
  | seen hnone =>
      have hlatest : e.latest = none := he.symm.trans hnone
      show some 0 = some (e.latest.getD 0)
      rw [hlatest]
      rfl
  | written _ => rfl

end Entry

-- =============================================================== all names

namespace Versions

variable {v : Versions} {name : String}

/-- Reading a variable hands nothing out, for whatever name. -/
theorem top_read (v : Versions) (x : Var) (name : String) :
    ((v.read x).2.entry name).top = (v.entry name).top := by
  cases x with
  | temp number => rfl
  | user other version =>
      cases version with
      | some version => rfl
      | none =>
          rw [entry_read]
          by_cases h : other = name
          · rw [if_pos h, Entry.top_seen]
          · rw [if_neg h]

/-- What a read yields was handed out before. -/
theorem versionOf_read (hv : v.Bounded) {x : Var} (hx : x.plain = true) :
    (v.read x).1.versionOf name ≤ (v.entry name).top := by
  cases x with
  | temp number => exact Nat.zero_le _
  | user other version =>
      cases version with
      | some version => cases hx
      | none =>
          cases hcurrent : v.current[other]? with
          | none =>
              rw [read_of_unknown hcurrent]
              show (if other = name then 0 else 0) ≤ _
              rw [ite_self]
              exact Nat.zero_le _
          | some version =>
              rw [read_of_current hcurrent]
              show (if other = name then version else 0) ≤ _
              by_cases h : other = name
              · subst h
                rw [if_pos rfl]
                exact (hv other).le_top hcurrent
              · rw [if_neg h]
                exact Nat.zero_le _

/-- Reading an operand hands nothing out. -/
theorem top_readOperand (v : Versions) (operand : Operand) (name : String) :
    ((v.readOperand operand).2.entry name).top = (v.entry name).top := by
  cases operand with
  | const value => rfl
  | var x => exact top_read v x name

/-- An operand is renamed to versions that were handed out before. -/
theorem highest_readOperand (hv : v.Bounded) {operand : Operand} (h : operand.plain = true) :
    (v.readOperand operand).1.highest name ≤ (v.entry name).top := by
  cases operand with
  | const value => exact Nat.zero_le _
  | var x => exact versionOf_read hv h

/-- Reading a right-hand side hands nothing out. -/
theorem top_readRhs (v : Versions) (rhs : Rhs) (name : String) :
    ((v.readRhs rhs).2.entry name).top = (v.entry name).top := by
  cases rhs with
  | copy operand => exact top_readOperand v operand name
  | unary op operand => exact top_readOperand v operand name
  | binary op left right =>
      exact (top_readOperand _ right name).trans (top_readOperand v left name)

/-- A right-hand side is renamed to versions that were handed out before. -/
theorem highest_readRhs (hv : v.Bounded) {rhs : Rhs} (h : rhs.plain = true) :
    (v.readRhs rhs).1.highest name ≤ (v.entry name).top := by
  cases rhs with
  | copy operand => exact highest_readOperand hv h
  | unary op operand => exact highest_readOperand hv h
  | binary op left right =>
      rw [Rhs.plain, Bool.and_eq_true] at h
      have hr : (((v.readOperand left).2.readOperand right).1).highest name ≤
          ((v.readOperand left).2.entry name).top :=
        highest_readOperand ((reaches_readOperand v left).bounded hv) h.2
      rw [top_readOperand] at hr
      exact Nat.max_le.mpr ⟨highest_readOperand hv h.1, hr⟩

/-- Reading the sources of a phi hands nothing out. -/
theorem top_readAll (v : Versions) (sources : List Var) (name : String) :
    ((v.readAll sources).2.entry name).top = (v.entry name).top := by
  induction sources generalizing v with
  | nil => rfl
  | cons x sources ih => exact (ih _).trans (top_read v x name)

/-- The sources of a phi are renamed to versions that were handed out
before. -/
theorem highest_readAll (hv : v.Bounded) {sources : List Var}
    (h : sources.all Var.plain = true) :
    highestOf name (v.readAll sources).1 ≤ (v.entry name).top := by
  induction sources generalizing v with
  | nil => exact Nat.zero_le _
  | cons x sources ih =>
      rw [List.all_cons, Bool.and_eq_true] at h
      have hrest := ih ((reaches_read v x).bounded hv) h.2
      rw [top_read] at hrest
      exact Nat.max_le.mpr ⟨versionOf_read hv h.1, hrest⟩

/-- After a write the last version handed out is the one written, if the
write is to this name, and the same as before otherwise. -/
theorem top_write (v : Versions) {x : Var} (hx : x.plain = true) (name : String) :
    ((v.write x).2.entry name).top = max (v.entry name).top ((v.write x).1.versionOf name) := by
  cases x with
  | temp number => exact (Nat.max_zero _).symm
  | user other version =>
      cases version with
      | some version => cases hx
      | none =>
          rw [entry_write]
          show _ = max _ (if other = name then v.next other else 0)
          by_cases h : other = name
          · subst h
            rw [if_pos rfl, if_pos rfl, Entry.top_written, ← next_entry, Entry.next_eq]
            exact (Nat.max_eq_right (Nat.le_succ _)).symm
          · rw [if_neg h, if_neg h, Nat.max_zero]

section Join

variable {thenArm elseArm : VersionTable}

/-- A phi behind a branch brings the highest version of its own name up to
the last one handed out, and leaves other names alone. -/
theorem highest_joinPhi (hthen : ∀ k, thenArm[name]? = some k → k ≤ (v.entry name).top)
    (helse : ∀ k, elseArm[name]? = some k → k ≤ (v.entry name).top) (other : String) :
    max (v.entry name).top (highest name (joinPhi thenArm elseArm v other).toList) =
      if other = name then ((v.entry name).joined thenArm[name]? elseArm[name]?).top
      else (v.entry name).top := by
  unfold joinPhi
  by_cases h : other = name
  · subst h
    rw [if_pos rfl]
    cases ha : thenArm[other]? with
    | none => cases elseArm[other]? <;> exact Nat.max_zero _
    | some a =>
        cases hb : elseArm[other]? with
        | none => exact Nat.max_zero _
        | some b =>
            have hle := hthen a ha
            have hle' := helse b hb
            have hnext : v.next other = (v.entry other).top + 1 := (v.entry other).next_eq
            by_cases hab : a = b
            · simp only [if_pos hab, Entry.joined]
              exact Nat.max_zero _
            · simp only [if_neg hab, Entry.joined, Entry.top_written, Option.toList_some,
                highest, Inst.highest, highestOf, Var.versionOf, if_pos, hnext]
              omega
  · rw [if_neg h]
    cases thenArm[other]? with
    | none => cases elseArm[other]? <;> exact Nat.max_zero _
    | some a =>
        cases elseArm[other]? with
        | none => exact Nat.max_zero _
        | some b =>
            by_cases hab : a = b
            · simp only [if_pos hab]
              exact Nat.max_zero _
            · simp only [if_neg hab, Option.toList_some, highest, Inst.highest, highestOf,
                Var.versionOf, if_neg h, Nat.max_self, Nat.max_zero]

/-- Of the phis behind a branch, each for another name, at most one is for
this name. -/
theorem highest_joins (hthen : ∀ k, thenArm[name]? = some k → k ≤ (v.entry name).top)
    (helse : ∀ k, elseArm[name]? = some k → k ≤ (v.entry name).top)
    {names : List String} (hnames : names.Nodup) :
    max (v.entry name).top (highest name (names.filterMap (joinPhi thenArm elseArm v))) =
      if name ∈ names then ((v.entry name).joined thenArm[name]? elseArm[name]?).top
      else (v.entry name).top := by
  induction names with
  | nil => exact Nat.max_zero _
  | cons other names ih =>
      obtain ⟨hnot, hnames⟩ := List.nodup_cons.mp hnames
      have hhead := highest_joinPhi hthen helse other
      have hrest := ih hnames
      rw [filterMap_cons_toList, highest_append, ite_mem_cons]
      by_cases h : other = name
      · subst h
        rw [if_pos rfl] at hhead
        rw [if_neg hnot] at hrest
        rw [if_pos rfl]
        omega
      · rw [if_neg h] at hhead
        rw [if_neg h, ← hrest]
        omega

/-- The phis behind a branch, all of them, bring every name up to the last
version handed out. -/
theorem highest_join (hthen : ∀ k, thenArm[name]? = some k → k ≤ (v.entry name).top)
    (helse : ∀ k, elseArm[name]? = some k → k ≤ (v.entry name).top) :
    max (v.entry name).top (highest name ((joinNames thenArm elseArm).filterMap
        (joinPhi thenArm elseArm v))) =
      ((v.entry name).joined thenArm[name]? elseArm[name]?).top := by
  rw [highest_joins hthen helse (nodup_joinNames thenArm elseArm)]
  by_cases h : name ∈ joinNames thenArm elseArm
  · rw [if_pos h]
  · obtain ⟨ha, hb⟩ := unknown_of_notMem_joinNames thenArm elseArm h
    rw [if_neg h, ha, hb]
    rfl

end Join

end Versions

-- ==================================================================== code

mutual

/-- The versions of an instruction go up to the last one handed out. -/
theorem Inst.highest_versioned {v : Versions} (hv : v.Bounded) (name : String) :
    ∀ i : Inst, i.plain = true →
      max (v.entry name).top (highest name (i.versioned v)) = ((i.after v).entry name).top
  | .assign dest rhs, h => by
    rw [Inst.plain, Bool.and_eq_true] at h
    have hreads : (v.readRhs rhs).1.highest name ≤ _ := Versions.highest_readRhs hv h.2
    have hwrite := Versions.top_write (v.readRhs rhs).2 h.1 name
    rw [Versions.top_readRhs] at hwrite
    rw [Inst.versioned_assign, Inst.after_assign, hwrite]
    simp only [highest, Inst.highest]
    omega
  | .phi dest sources, h => by
    rw [Inst.plain, Bool.and_eq_true] at h
    have hreads : highestOf name (v.readAll sources).1 ≤ _ := Versions.highest_readAll hv h.2
    have hwrite := Versions.top_write (v.readAll sources).2 h.1 name
    rw [Versions.top_readAll] at hwrite
    rw [Inst.versioned_phi, Inst.after_phi, hwrite]
    simp only [highest, Inst.highest]
    omega
  | .branch cond thenArm elseArm, h => by
    rw [Inst.plain, Bool.and_eq_true, Bool.and_eq_true] at h
    have hread : (v.readOperand cond).1.highest name ≤ _ := Versions.highest_readOperand hv h.1.1
    have hbounded := (Versions.reaches_readOperand v cond).bounded hv
    have hafter := reaches_afterAll hbounded thenArm
    have hstart := hafter.elseStart hbounded
    have hlast := reaches_afterAll hstart elseArm
    have hthen := highest_versionedAll hbounded name thenArm h.1.2
    have helse := highest_versionedAll hstart name elseArm h.2
    have hjoin := Versions.highest_join
      (v := (v.readOperand cond).2.joinStart thenArm elseArm)
      (fun k hk => Nat.le_trans ((hafter.bounded hbounded name).le_top hk) (hlast name).top_le)
      (fun k hk => (hlast.bounded hstart name).le_top hk)
    rw [Versions.top_readOperand] at hthen
    have htaken : (((v.readOperand cond).2.elseStart thenArm).entry name).top =
        ((afterAll (v.readOperand cond).2 thenArm).entry name).top := rfl
    have hboth : (((v.readOperand cond).2.joinStart thenArm elseArm).entry name).top =
        ((afterAll ((v.readOperand cond).2.elseStart thenArm) elseArm).entry name).top := rfl
    rw [Inst.versioned_branch, Inst.entry_after_branch]
    refine Eq.trans ?_ hjoin
    simp only [highest, Inst.highest]
    omega

/-- The versions of some code go up to the last one handed out. -/
theorem highest_versionedAll {v : Versions} (hv : v.Bounded) (name : String) :
    ∀ code : List Inst, plainAll code = true →
      max (v.entry name).top (highest name (versionedAll v code)) =
        ((afterAll v code).entry name).top
  | [], _ => Nat.max_zero _
  | i :: rest, h => by
    rw [plainAll, Bool.and_eq_true] at h
    have hi := i.highest_versioned hv name h.1
    have hrest := highest_versionedAll ((i.reaches_after hv).bounded hv) name rest h.2
    rw [versionedAll_cons, afterAll_cons, highest_append]
    omega

end

end ExprGraph.SSA
