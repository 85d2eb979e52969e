/-
The versions that renamed code defines, and those that its reads see.

In the order of the lines a name gets its versions in order, with none left
out (`definedVersions_versionedAll`). What is seen behind some code is the
version it defines last, or else what was seen in front of it
(`seen_afterAll`): a name the arms of a branch disagree in gets a phi
behind the branch, and of a name that they agree in, or that only one of
them knows, the version seen is the last one that either defines.

A name that is unknown behind some code was not defined in it, for every
definition makes its name known (`Entry.Reaches.current_none`).
-/
import ExprGraph.Proofs.SSA.Highest
import ExprGraph.Proofs.SSA.Temporaries

namespace ExprGraph.SSA

-- ============================================================== definitions

/-- The version of a source variable of this name. -/
def Var.versionFor? (name : String) : Var → Option Nat
  | .temp _ => none
  | .user n version => if n = name then version else none

/-- The version of a name that an instruction defines, its arms left out. -/
def Inst.definedVersion? (name : String) : Inst → Option Nat
  | .assign dest _ | .phi dest _ => dest.versionFor? name
  | .branch .. => none

/-- The versions of a name that code defines, in the order of its lines. -/
def definedVersions (name : String) (code : List Inst) : List Nat :=
  (walk code).filterMap (Inst.definedVersion? name)

section Defined

variable (name : String)

/-- Versions are defined in the order of the code. -/
theorem definedVersions_append (a b : List Inst) :
    definedVersions name (a ++ b) = definedVersions name a ++ definedVersions name b := by
  rw [definedVersions, walk_append, List.filterMap_append]
  rfl

theorem definedVersions_cons (i : Inst) (rest : List Inst) :
    definedVersions name (i :: rest) = definedVersions name [i] ++ definedVersions name rest :=
  definedVersions_append name [i] rest

/-- The first arm of a branch comes before the second. -/
theorem definedVersions_branch (cond : Operand) (thenArm elseArm : List Inst) :
    definedVersions name [.branch cond thenArm elseArm] =
      definedVersions name thenArm ++ definedVersions name elseArm := by
  rw [definedVersions, walk_branch, walk_nil, List.append_nil, List.filterMap_cons,
    List.filterMap_append]
  rfl

theorem definedVersions_assign (dest : Var) (rhs : Rhs) :
    definedVersions name [.assign dest rhs] = (dest.versionFor? name).toList := by
  rw [definedVersions, walk_assign, walk_nil, List.filterMap_cons, Inst.definedVersion?]
  cases dest.versionFor? name <;> rfl

theorem definedVersions_phi (dest : Var) (sources : List Var) :
    definedVersions name [.phi dest sources] = (dest.versionFor? name).toList := by
  rw [definedVersions, walk_phi, walk_nil, List.filterMap_cons, Inst.definedVersion?]
  cases dest.versionFor? name <;> rfl

end Defined

/-- The version that a read of a name sees behind some code, given what
reads see in front of it. -/
def seenBehind (seen : String → Nat) (code : List Inst) (name : String) : Nat :=
  (definedVersions name code).getLast?.getD (seen name)

/-- What is seen behind code in two parts is what is seen behind the second,
from behind the first. -/
theorem seenBehind_append (seen : String → Nat) (a b : List Inst) :
    seenBehind seen (a ++ b) = seenBehind (seenBehind seen a) b := by
  funext name
  unfold seenBehind
  rw [definedVersions_append, List.getLast?_append]
  cases (definedVersions name b).getLast? <;> rfl

-- ================================================================= one name

/-- The versions behind `a` up to `b`. -/
def versionsBetween (a b : Nat) : List Nat :=
  List.range' (a + 1) (b - a)

theorem versionsBetween_self (a : Nat) : versionsBetween a a = [] := by
  unfold versionsBetween
  rw [Nat.sub_self]
  rfl

/-- One version is handed out. -/
theorem versionsBetween_succ (a : Nat) : versionsBetween a (a + 1) = [a + 1] := by
  unfold versionsBetween
  rw [Nat.add_sub_cancel_left]
  rfl

/-- Versions handed out one stretch after the other. -/
theorem versionsBetween_append {a b c : Nat} (hab : a ≤ b) (hbc : b ≤ c) :
    versionsBetween a b ++ versionsBetween b c = versionsBetween a c := by
  unfold versionsBetween
  obtain ⟨m, rfl⟩ := Nat.exists_eq_add_of_le hab
  obtain ⟨n, rfl⟩ := Nat.exists_eq_add_of_le hbc
  rw [Nat.add_sub_cancel_left, Nat.add_sub_cancel_left, Nat.add_assoc a m n,
    Nat.add_sub_cancel_left, Nat.add_right_comm, List.range'_append_1]

namespace Entry

/-- What a read sees; an unknown name has version 0. -/
def seenVersion (e : Entry) : Nat := e.current.getD 0

/-- The version of the phi that joins two arms, if they differ, given what
is current in them. -/
def joinVersions (e : Entry) : Option Nat → Option Nat → List Nat
  | some a, some b => if a = b then [] else [e.next]
  | _, _ => []

/-- A join hands out a version at most. -/
theorem top_le_joined (e : Entry) (a b : Option Nat) : e.top ≤ (e.joined a b).top := by
  cases a with
  | none => cases b <;> exact Nat.le_refl _
  | some a =>
      cases b with
      | none => exact Nat.le_refl _
      | some b =>
          unfold joined
          dsimp only
          by_cases hab : a = b
          · rw [if_pos hab]
            exact Nat.le_refl _
          · rw [if_neg hab, top_written]
            exact Nat.le_succ _

/-- The phi of a name writes the version that its join hands out, if it
hands one out. -/
theorem joinVersions_eq (e : Entry) (a b : Option Nat) :
    e.joinVersions a b = versionsBetween e.top (e.joined a b).top := by
  have hsame : ∀ current, versionsBetween e.top (Entry.top ⟨e.latest, current⟩) = [] :=
    fun current => versionsBetween_self e.top
  cases a with
  | none =>
      cases b with
      | none => exact (versionsBetween_self e.top).symm
      | some b => exact (hsame (some b)).symm
  | some a =>
      cases b with
      | none => exact (hsame (some a)).symm
      | some b =>
          unfold joinVersions joined
          dsimp only
          by_cases hab : a = b
          · rw [if_pos hab, if_pos hab]
            exact (hsame (some a)).symm
          · rw [if_neg hab, if_neg hab, top_written, versionsBetween_succ, next_eq]
            rfl

/-- Behind a join a name is seen at the version defined last, in an arm or
by the join. -/
theorem seenVersion_joined {e t u : Entry} {latest : Option Nat} {T E : List Nat}
    (ht : t.seenVersion = T.getLast?.getD e.seenVersion) (hT : t.current = none → T = [])
    (hu : u.seenVersion = E.getLast?.getD e.seenVersion) (hE : u.current = none → E = []) :
    (joined ⟨latest, e.current⟩ t.current u.current).seenVersion
      = (T ++ E ++ joinVersions ⟨latest, e.current⟩ t.current u.current).getLast?.getD
        e.seenVersion := by
  unfold seenVersion at ht hu
  cases ha : t.current with
  | none =>
      rw [hT ha, List.nil_append]
      cases hb : u.current with
      | none => rw [hE hb]; rfl
      | some b =>
          rw [hb] at hu
          rw [joinVersions, List.append_nil]
          · exact hu
          · nofun
  | some a =>
      rw [ha] at ht
      cases hb : u.current with
      | none =>
          rw [hE hb, joinVersions, List.append_nil, List.append_nil]
          · exact ht
          · nofun
      | some b =>
          rw [hb] at hu
          unfold joined joinVersions
          dsimp only
          by_cases hab : a = b
          · subst hab
            rw [if_pos rfl, if_pos rfl, List.append_nil, List.getLast?_append]
            cases hlast : E.getLast? with
            | none => exact ht
            | some last => rw [hlast] at hu; exact hu
          · rw [if_neg hab, if_neg hab, List.getLast?_append]
            rfl

end Entry

-- ================================================================== tables

namespace Versions

variable {v : Versions} {name : String}

/-- What reads see. -/
def seen (v : Versions) (name : String) : Nat :=
  (v.entry name).seenVersion

/-- A read changes nothing of what reads see. -/
theorem seen_read (v : Versions) (x : Var) : (v.read x).2.seen = v.seen := by
  cases x with
  | temp number => rfl
  | user other version =>
      cases version with
      | some version => rfl
      | none =>
          funext name
          unfold seen
          rw [entry_read]
          by_cases h : other = name
          · rw [if_pos h]
            unfold Entry.seen Entry.seenVersion
            cases hcurrent : (v.entry name).current with
            | none => rfl
            | some version => dsimp only; rw [hcurrent]
          · rw [if_neg h]

theorem seen_readOperand (v : Versions) (operand : Operand) :
    (v.readOperand operand).2.seen = v.seen := by
  cases operand with
  | const value => rfl
  | var x => exact seen_read v x

/-- Reads change nothing that is seen: a name that was not current is seen
at 0 before and behind. -/
theorem seen_readRhs (v : Versions) (rhs : Rhs) : (v.readRhs rhs).2.seen = v.seen := by
  cases rhs with
  | copy operand => exact seen_readOperand v operand
  | unary op operand => exact seen_readOperand v operand
  | binary op left right =>
      exact (seen_readOperand _ right).trans (seen_readOperand v left)

theorem seen_readAll (v : Versions) (sources : List Var) :
    (v.readAll sources).2.seen = v.seen := by
  induction sources generalizing v with
  | nil => rfl
  | cons x sources ih => exact (ih _).trans (seen_read v x)

/-- A write defines the version behind the last. -/
theorem versionFor_write (v : Versions) {x : Var} (hx : x.plain = true) (name : String) :
    ((v.write x).1.versionFor? name).toList
      = versionsBetween (v.entry name).top ((v.write x).2.entry name).top := by
  cases x with
  | temp number => exact (versionsBetween_self _).symm
  | user other version =>
      cases version with
      | some version => cases hx
      | none =>
          rw [entry_write]
          show (if other = name then some (v.next other) else none).toList = _
          by_cases h : other = name
          · subst h
            rw [if_pos rfl, if_pos rfl, Entry.top_written, versionsBetween_succ, ← next_entry,
              Entry.next_eq]
            rfl
          · rw [if_neg h, if_neg h]
            exact (versionsBetween_self _).symm

/-- Behind a write reads see the version written. -/
theorem seen_write (v : Versions) {x : Var} (hx : x.plain = true) (name : String) :
    (v.write x).2.seen name = ((v.write x).1.versionFor? name).toList.getLast?.getD (v.seen name)
    := by
  cases x with
  | temp number => rfl
  | user other version =>
      cases version with
      | some version => cases hx
      | none =>
          unfold seen
          rw [entry_write]
          show _ = (if other = name then some (v.next other) else none).toList.getLast?.getD _
          by_cases h : other = name
          · subst h
            rw [if_pos rfl, if_pos rfl]
            rfl
          · rw [if_neg h, if_neg h]
            rfl

section Join

variable (thenArm elseArm : VersionTable)

/-- A phi behind a branch defines a version of its own name. -/
theorem definedVersions_joinPhi (v : Versions) (other name : String) :
    definedVersions name (joinPhi thenArm elseArm v other).toList
      = if other = name then (v.entry name).joinVersions thenArm[name]? elseArm[name]? else [] := by
  unfold joinPhi
  by_cases h : other = name
  · subst h
    rw [if_pos rfl]
    cases thenArm[other]? with
    | none => cases elseArm[other]? <;> rfl
    | some a =>
        cases elseArm[other]? with
        | none => rfl
        | some b =>
            unfold Entry.joinVersions
            dsimp only
            by_cases hab : a = b
            · rw [if_pos hab, if_pos hab]
              rfl
            · rw [if_neg hab, if_neg hab, Option.toList_some, definedVersions_phi,
                Var.versionFor?, if_pos rfl]
              rfl
  · rw [if_neg h]
    have hphi : ∀ version sources,
        definedVersions name [.phi (.user other version) sources] = [] := by
      intro version sources
      rw [definedVersions_phi, Var.versionFor?, if_neg h]
      rfl
    cases thenArm[other]? with
    | none => cases elseArm[other]? <;> rfl
    | some a =>
        cases elseArm[other]? with
        | none => rfl
        | some b =>
            dsimp only
            by_cases hab : a = b
            · rw [if_pos hab]
              rfl
            · rw [if_neg hab]
              exact hphi _ _

/-- Of the phis behind a branch one at most defines a version of this
name. -/
theorem definedVersions_joinNames {names : List String} (hnames : names.Nodup) (v : Versions)
    (name : String) :
    definedVersions name (names.filterMap (joinPhi thenArm elseArm v))
      = if name ∈ names then (v.entry name).joinVersions thenArm[name]? elseArm[name]? else [] := by
  induction names with
  | nil => rfl
  | cons other names ih =>
      obtain ⟨hnot, hnames⟩ := List.nodup_cons.mp hnames
      rw [filterMap_cons_toList, definedVersions_append, definedVersions_joinPhi, ih hnames,
        ite_mem_cons]
      by_cases h : other = name
      · subst h
        rw [if_pos rfl, if_pos rfl, if_neg hnot, List.append_nil]
      · rw [if_neg h, if_neg h, List.nil_append]

/-- The versions that a join defines. -/
theorem definedVersions_join (v : Versions) (name : String) :
    definedVersions name ((joinNames thenArm elseArm).filterMap (joinPhi thenArm elseArm v))
      = (v.entry name).joinVersions thenArm[name]? elseArm[name]? := by
  rw [definedVersions_joinNames thenArm elseArm (nodup_joinNames thenArm elseArm)]
  by_cases h : name ∈ joinNames thenArm elseArm
  · rw [if_pos h]
  · rw [if_neg h]
    obtain ⟨ha, hb⟩ := unknown_of_notMem_joinNames thenArm elseArm h
    rw [ha, hb]
    rfl

end Join

end Versions

-- ==================================================================== code

mutual

/-- A renamed instruction defines the versions that were handed out in it,
in order. -/
theorem Inst.definedVersions_versioned {v : Versions} (hv : v.Bounded) (name : String) :
    ∀ {i : Inst}, i.Over (·.plain = true) →
      definedVersions name (i.versioned v)
        = versionsBetween (v.entry name).top ((i.after v).entry name).top
  | .assign dest rhs, ⟨hdest, _⟩ => by
    rw [Inst.versioned_assign, Inst.after_assign, definedVersions_assign,
      Versions.versionFor_write _ hdest, Versions.top_readRhs]
  | .phi dest sources, ⟨hdest, _⟩ => by
    rw [Inst.versioned_phi, Inst.after_phi, definedVersions_phi,
      Versions.versionFor_write _ hdest, Versions.top_readAll]
  | .branch cond thenArm elseArm, ⟨_, hthen, helse⟩ => by
    have hbounded := (Versions.reaches_readOperand v cond).bounded hv
    have hafter := reaches_afterAll hbounded thenArm
    have hstart := hafter.elseStart hbounded
    have hlast := reaches_afterAll hstart elseArm
    rw [Inst.versioned_branch, Inst.entry_after_branch]
    dsimp only
    rw [definedVersions_cons, definedVersions_branch, Versions.definedVersions_join,
      Entry.joinVersions_eq, definedVersions_versionedAll hbounded name hthen,
      definedVersions_versionedAll hstart name helse]
    -- each arm, and the join, start where the one before has ended
    have hthenEnd : (((v.readOperand cond).2.elseStart thenArm).entry name).top =
        ((afterAll (v.readOperand cond).2 thenArm).entry name).top := rfl
    have helseEnd : (((v.readOperand cond).2.joinStart thenArm elseArm).entry name).top =
        ((afterAll ((v.readOperand cond).2.elseStart thenArm) elseArm).entry name).top := rfl
    have hthenLe := (hafter name).top_le
    have helseLe := (hlast name).top_le
    have hjoinLe := Entry.top_le_joined
      (((v.readOperand cond).2.joinStart thenArm elseArm).entry name)
      ((afterAll (v.readOperand cond).2 thenArm).entry name).current
      ((afterAll ((v.readOperand cond).2.elseStart thenArm) elseArm).entry name).current
    rw [Versions.top_readOperand] at hthenLe ⊢
    rw [hthenEnd] at helseLe ⊢
    rw [versionsBetween_append hthenLe helseLe]
    rw [helseEnd] at hjoinLe ⊢
    exact versionsBetween_append (Nat.le_trans hthenLe helseLe) hjoinLe

/-- Code defines the versions of a name in order, from the first that was
not handed out before. -/
theorem definedVersions_versionedAll {v : Versions} (hv : v.Bounded) (name : String) :
    ∀ {code : List Inst}, OverAll (·.plain = true) code →
      definedVersions name (versionedAll v code)
        = versionsBetween (v.entry name).top ((afterAll v code).entry name).top
  | [], _ => (versionsBetween_self _).symm
  | i :: rest, ⟨hi, hrest⟩ => by
    have hafter := i.reaches_after hv
    rw [versionedAll_cons, afterAll_cons, definedVersions_append,
      Inst.definedVersions_versioned hv name hi,
      definedVersions_versionedAll (hafter.bounded hv) name hrest]
    exact versionsBetween_append (hafter name).top_le
      (reaches_afterAll (hafter.bounded hv) rest name).top_le

end

/-- A name that is unknown behind code has no version in it. -/
theorem definedVersions_of_unknown {v : Versions} (hv : v.Bounded) {name : String}
    {code : List Inst} (hcode : OverAll (·.plain = true) code)
    (hunknown : ((afterAll v code).entry name).current = none) :
    definedVersions name (versionedAll v code) = [] := by
  have hsame := (reaches_afterAll hv code name).current_none hunknown
  rw [definedVersions_versionedAll hv name hcode, ← hsame, versionsBetween_self]

mutual

/-- What is seen behind a renamed instruction can be read off its
definitions. -/
theorem Inst.seen_after {v : Versions} (hv : v.Bounded) :
    ∀ {i : Inst}, i.Over (·.plain = true) →
      (i.after v).seen = seenBehind v.seen (i.versioned v)
  | .assign dest rhs, ⟨hdest, _⟩ => by
    funext name
    rw [Inst.after_assign, Inst.versioned_assign, Versions.seen_write _ hdest,
      Versions.seen_readRhs, seenBehind, definedVersions_assign]
  | .phi dest sources, ⟨hdest, _⟩ => by
    funext name
    rw [Inst.after_phi, Inst.versioned_phi, Versions.seen_write _ hdest,
      Versions.seen_readAll, seenBehind, definedVersions_phi]
  | .branch cond thenArm elseArm, ⟨_, hthen, helse⟩ => by
    funext name
    have hbounded := (Versions.reaches_readOperand v cond).bounded hv
    have hafter := reaches_afterAll hbounded thenArm
    have hstart := hafter.elseStart hbounded
    have hthenSeen := congrFun (seen_afterAll hbounded hthen) name
    have helseSeen := congrFun (seen_afterAll hstart helse) name
    rw [Inst.versioned_branch, seenBehind]
    dsimp only
    rw [definedVersions_cons, definedVersions_branch, Versions.definedVersions_join, Versions.seen,
      Inst.entry_after_branch, ← Versions.seen_readOperand v cond]
    exact Entry.seenVersion_joined (e := (v.readOperand cond).2.entry name) hthenSeen
      (definedVersions_of_unknown hbounded hthen) helseSeen
      (definedVersions_of_unknown hstart helse)

/-- Behind code, reads see the version that it defines last. -/
theorem seen_afterAll {v : Versions} (hv : v.Bounded) :
    ∀ {code : List Inst}, OverAll (·.plain = true) code →
      (afterAll v code).seen = seenBehind v.seen (versionedAll v code)
  | [], _ => rfl
  | i :: rest, ⟨hi, hrest⟩ => by
    rw [versionedAll_cons, afterAll_cons, seenBehind_append, ← Inst.seen_after hv hi]
    exact seen_afterAll ((i.reaches_after hv).bounded hv) hrest

end

end ExprGraph.SSA
