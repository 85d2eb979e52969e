/-
What the renaming does to its two tables, name by name.

The tables of all names change together, but never one because of another:
everything the renaming does to them is, for one name, a change of one
`Entry`. An entry can change in two ways only (`Entry.Reaches`): a name
that was not current is seen at version 0, or becomes current at a version
not handed out before. Code of any shape does one or the other, or nothing
(`reaches_afterAll`); that a join does no more than that, although it
compares the tables of two arms, is `Entry.joined_reaches`.
-/
import ExprGraph.SSA.Versions
import Mathlib.Data.List.Basic

namespace ExprGraph.SSA

-- ================================================================ one by one

theorem filterMap_cons_toList {α β : Type} (f : α → Option β) (a : α) (rest : List α) :
    (a :: rest).filterMap f = (f a).toList ++ rest.filterMap f := by
  rw [List.filterMap_cons]
  cases f a <;> rfl

/-- What is so for a list of names is so for the first of them, or for the
rest. -/
theorem ite_mem_cons {α : Type} (name first : String) (rest : List String) (x y : α) :
    (if name ∈ first :: rest then x else y)
      = if first = name then x else if name ∈ rest then x else y := by
  by_cases h : first = name
  · rw [if_pos h, if_pos (h ▸ List.mem_cons_self)]
  · have hmem : name ∈ first :: rest ↔ name ∈ rest :=
      List.mem_cons.trans (or_iff_right (Ne.symm h))
    simp only [if_neg h, hmem]

-- ================================================================= entries

/-- What the tables say of one name. -/
structure Entry where
  latest : Option Nat
  current : Option Nat

namespace Entry

/-- The next version. -/
def next (e : Entry) : Nat :=
  match e.latest with
  | some version => version + 1
  | none => 1

/-- The entry behind a read. -/
def seen (e : Entry) : Entry :=
  match e.current with
  | some _ => e
  | none => ⟨some (e.latest.getD 0), some 0⟩

/-- The entry behind a write. -/
def written (e : Entry) : Entry :=
  ⟨some e.next, some e.next⟩

/-- The entry behind a join of two arms, given what is current in them. -/
def joined (e : Entry) : Option Nat → Option Nat → Entry
  | some a, some b => if a = b then ⟨e.latest, some a⟩ else e.written
  | some a, none => ⟨e.latest, some a⟩
  | none, some b => ⟨e.latest, some b⟩
  | none, none => e

/-- The current version was handed out. -/
def Bounded (e : Entry) : Prop :=
  ∀ version, e.current = some version → version < e.next

/-- How an entry can change. -/
inductive Reaches (e : Entry) : Entry → Prop where
  | same : Reaches e e
  | seen : e.current = none → Reaches e ⟨some (e.latest.getD 0), some 0⟩
  | written {version : Nat} : e.next ≤ version → Reaches e ⟨some version, some version⟩

variable {e t u : Entry}

/-- The next version is one more than the last one handed out, the first is
1. -/
theorem next_eq (e : Entry) : e.next = e.latest.getD 0 + 1 := by
  obtain ⟨latest, current⟩ := e
  cases latest <;> rfl

/-- A read is one of the two ways to change. -/
theorem reaches_seen (e : Entry) : e.Reaches e.seen := by
  obtain ⟨latest, current⟩ := e
  cases current with
  | none => exact .seen rfl
  | some version => exact .same

/-- So is a write. -/
theorem reaches_written (e : Entry) : e.Reaches e.written :=
  .written (Nat.le_refl _)

/-- Versions are never handed out again. -/
theorem Reaches.next_le (h : e.Reaches t) : e.next ≤ t.next := by
  cases h with
  | same => exact Nat.le_refl _
  | seen _ =>
      have hnext : e.next = next ⟨some (e.latest.getD 0), some 0⟩ := next_eq e
      exact Nat.le_of_eq hnext
  | written hle => exact Nat.le_succ_of_le hle

/-- What is current stays among the versions handed out. -/
theorem Reaches.bounded (h : e.Reaches t) (he : e.Bounded) : t.Bounded := by
  cases h with
  | same => exact he
  | seen _ =>
      intro version hversion
      cases hversion
      exact Nat.succ_pos _
  | written hle =>
      intro version hversion
      cases hversion
      exact Nat.lt_succ_self _

/-- Two changes, one after the other, come to one. -/
theorem Reaches.trans (h : e.Reaches t) (h' : t.Reaches u) : e.Reaches u := by
  cases h' with
  | same => exact h
  | written hle => exact .written (Nat.le_trans h.next_le hle)
  | seen hnone =>
      cases h with
      | same => exact .seen hnone
      | seen _ => cases hnone
      | written _ => cases hnone

/-- A join of arms in which the name is as it was changes nothing. -/
theorem joined_self (e : Entry) : e.joined e.current e.current = e := by
  obtain ⟨latest, current⟩ := e
  cases current with
  | none => rfl
  | some version => exact if_pos rfl

/-- A version that became current in code was unknown in front of it, or
was handed out in it. -/
theorem Reaches.current_cases (h : e.Reaches t) {version : Nat}
    (hversion : t.current = some version) :
    e.current = some version ∨ (e.current = none ∧ version = 0) ∨ e.next ≤ version := by
  cases h with
  | same => exact .inl hversion
  | seen hnone =>
      cases hversion
      exact .inr (.inl ⟨hnone, rfl⟩)
  | written hle =>
      cases hversion
      exact .inr (.inr hle)

/-- A name that is not current in the end never was. -/
theorem Reaches.current_none (h : e.Reaches t) (hnone : t.current = none) : e = t := by
  cases h with
  | same => rfl
  | seen _ => cases hnone
  | written _ => cases hnone

/-- Behind a join an entry is what code without a branch could have made of
it: the second arm starts behind the versions of the first, but sees what
was current in front of the branch. -/
theorem joined_reaches (he : e.Bounded) (ht : e.Reaches t)
    (hu : Reaches ⟨t.latest, e.current⟩ u) :
    e.Reaches (joined ⟨u.latest, e.current⟩ t.current u.current) := by
  have hlater : ∀ {a b : Nat}, a ≠ b → e.next ≤ next ⟨u.latest, e.current⟩ →
      e.Reaches (joined ⟨u.latest, e.current⟩ (some a) (some b)) := by
    intro a b hne hle
    rw [joined, if_neg hne]
    exact .written hle
  have hnext : e.next ≤ u.next := Nat.le_trans ht.next_le hu.next_le
  obtain ⟨latest, current⟩ := e
  cases ht with
  | same =>
      cases hu with
      | same =>
          cases current with
          | none => exact .same
          | some a =>
              rw [joined, if_pos rfl]
              exact .same
      | seen hnone =>
          cases hnone
          exact .seen rfl
      | @written b hle =>
          cases current with
          | none => exact .written hle
          | some a => exact hlater (Nat.ne_of_lt (Nat.lt_of_lt_of_le (he a rfl) hle)) hnext
  | seen hnone =>
      cases hnone
      cases hu with
      | same => exact .seen rfl
      | seen _ =>
          rw [joined, if_pos rfl]
          exact .seen rfl
      | @written b hle =>
          exact hlater (Nat.ne_of_lt (Nat.lt_of_lt_of_le (Nat.succ_pos _) hle)) hnext
  | @written a hle =>
      have hpos : 0 < a := by
        rw [next_eq] at hle
        omega
      cases hu with
      | same =>
          cases current with
          | none => exact .written hle
          | some b =>
              exact hlater (Nat.ne_of_gt (Nat.lt_of_lt_of_le (he b rfl) hle)) hnext
      | seen hnone =>
          cases hnone
          exact hlater (Nat.ne_of_gt hpos) hnext
      | @written b hle' => exact hlater (Nat.ne_of_lt hle') hnext

end Entry

-- ================================================================== tables

namespace Versions

/-- What the tables say of a name. -/
def entry (v : Versions) (name : String) : Entry :=
  ⟨v.latest[name]?, v.current[name]?⟩

theorem next_entry (v : Versions) (name : String) : (v.entry name).next = v.next name := rfl

/-- A name that is current is read at its version. -/
theorem read_of_current {v : Versions} {name : String} {version : Nat}
    (h : v.current[name]? = some version) :
    v.read (.user name none) = (.user name (some version), v) := by
  simp only [read, h]

/-- Another name is read at version 0, and is current from then on. -/
theorem read_of_unknown {v : Versions} {name : String} (h : v.current[name]? = none) :
    v.read (.user name none) =
      (.user name (some 0), ⟨v.latest.insertIfNew name 0, v.current.insert name 0⟩) := by
  simp only [read, h]

theorem getElem?_insertIfNew_self (table : VersionTable) (name : String) (version : Nat) :
    (table.insertIfNew name version)[name]? = some (table[name]?.getD version) := by
  rw [Std.ExtTreeMap.getElem?_insertIfNew]
  by_cases h : name ∈ table
  · rw [if_neg (fun hnew => hnew.2 h), Std.ExtTreeMap.getElem?_eq_some_getElem h]
    rfl
  · rw [if_pos ⟨Std.ReflCmp.compare_self, h⟩, Std.ExtTreeMap.getElem?_eq_none h]
    rfl

/-- A read changes the entry of its own name, and no other. -/
theorem entry_read (v : Versions) (name other : String) :
    (v.read (.user name none)).2.entry other =
      if name = other then (v.entry other).seen else v.entry other := by
  cases hcurrent : v.current[name]? with
  | some version =>
      rw [read_of_current hcurrent]
      by_cases h : name = other
      · subst h
        rw [if_pos rfl]
        simp only [Entry.seen, entry, hcurrent]
      · rw [if_neg h]
  | none =>
      rw [read_of_unknown hcurrent]
      by_cases h : name = other
      · subst h
        rw [if_pos rfl]
        simp only [Entry.seen, entry, hcurrent, getElem?_insertIfNew_self,
          Std.ExtTreeMap.getElem?_insert_self]
      · rw [if_neg h]
        simp [entry, Std.ExtTreeMap.getElem?_insert, Std.ExtTreeMap.getElem?_insertIfNew, h]

/-- So does a write. -/
theorem entry_write (v : Versions) (name other : String) :
    (v.write (.user name none)).2.entry other =
      if name = other then (v.entry other).written else v.entry other := by
  by_cases h : name = other
  · subst h
    rw [if_pos rfl]
    simp only [write, entry, Std.ExtTreeMap.getElem?_insert_self]
    rfl
  · rw [if_neg h]
    simp [write, entry, Std.ExtTreeMap.getElem?_insert, h]

/-- So does making a version current. -/
theorem entry_adopt (v : Versions) (name other : String) (version : Nat) :
    (v.adopt name version).entry other =
      if name = other then ⟨(v.entry other).latest, some version⟩ else v.entry other := by
  by_cases h : name = other
  · subst h
    simp [adopt, entry]
  · simp [adopt, entry, Std.ExtTreeMap.getElem?_insert, h]

-- =================================================================== joins

section Join

variable (thenArm elseArm : VersionTable)

/-- Joining one name changes its entry, and no other. -/
theorem entry_joinName (out : List Inst) (v : Versions) (name other : String) :
    (joinName thenArm elseArm out v name).2.entry other =
      if name = other then (v.entry other).joined thenArm[other]? elseArm[other]?
      else v.entry other := by
  by_cases h : name = other
  · subst h
    rw [if_pos rfl]
    unfold joinName
    cases ha : thenArm[name]? with
    | none =>
        cases hb : elseArm[name]? with
        | none => rfl
        | some b =>
            simp only [entry_adopt, if_pos]
            rfl
    | some a =>
        cases hb : elseArm[name]? with
        | none =>
            simp only [entry_adopt, if_pos]
            rfl
        | some b =>
            by_cases hab : a = b
            · simp only [if_pos hab, entry_adopt, if_pos, Entry.joined]
            · simp only [if_neg hab, entry_write, if_pos, Entry.joined]
  · rw [if_neg h]
    unfold joinName
    cases thenArm[name]? with
    | none =>
        cases elseArm[name]? with
        | none => rfl
        | some b => simp only [entry_adopt, if_neg h]
    | some a =>
        cases elseArm[name]? with
        | none => simp only [entry_adopt, if_neg h]
        | some b =>
            by_cases hab : a = b
            · simp only [if_pos hab, entry_adopt, if_neg h]
            · simp only [if_neg hab, entry_write, if_neg h]

/-- Joining some names, each once, changes their entries. -/
theorem entry_joinNames {names : List String} (hnames : names.Nodup) (out : List Inst)
    (v : Versions) (other : String) :
    (names.foldl (fun (out, v) name => joinName thenArm elseArm out v name) (out, v)).2.entry
        other =
      if other ∈ names then (v.entry other).joined thenArm[other]? elseArm[other]?
      else v.entry other := by
  induction names generalizing out v with
  | nil => rfl
  | cons name names ih =>
      obtain ⟨hnot, hnames⟩ := List.nodup_cons.mp hnames
      rw [List.foldl_cons, ih hnames, entry_joinName, ite_mem_cons]
      by_cases h : name = other
      · subst h
        rw [if_neg hnot, if_pos rfl, if_pos rfl]
      · rw [if_neg h, if_neg h]

/-- The phi that joins a name, if the arms differ in it. -/
def joinPhi (v : Versions) (name : String) : Option Inst :=
  match thenArm[name]?, elseArm[name]? with
  | some a, some b =>
    if a = b then none
    else some (.phi (.user name (some (v.next name)))
      [.user name (some a), .user name (some b)])
  | _, _ => none

/-- A phi is put where the arms end at different versions of a name; it
writes the next one. -/
theorem joinPhi_eq_some {v : Versions} {name : String} {i : Inst}
    (h : joinPhi thenArm elseArm v name = some i) :
    ∃ a b, thenArm[name]? = some a ∧ elseArm[name]? = some b ∧ a ≠ b
      ∧ i = .phi (.user name (some (v.next name))) [.user name (some a), .user name (some b)] := by
  unfold joinPhi at h
  split at h
  · next a b ha hb =>
    split at h
    · cases h
    · next hne =>
      cases h
      exact ⟨a, b, ha, hb, hne, rfl⟩
  · cases h

theorem code_joinName (v : Versions) (name : String) :
    (joinName thenArm elseArm [] v name).1 = (joinPhi thenArm elseArm v name).toList := by
  unfold joinName joinPhi
  cases thenArm[name]? with
  | none => cases elseArm[name]? <;> rfl
  | some a =>
      cases elseArm[name]? with
      | none => rfl
      | some b =>
          by_cases hab : a = b
          · simp only [if_pos hab, Option.toList_none]
          · simp only [if_neg hab, write, Option.toList_some]

/-- One phi has no influence on another, for each defines a name of its
own. -/
theorem code_joinNames {names : List String} (hnames : names.Nodup) (v : Versions) :
    (names.foldl (fun (out, v) name => joinName thenArm elseArm out v name) ([], v)).1.reverse =
      names.filterMap (joinPhi thenArm elseArm v) := by
  induction names generalizing v with
  | nil => rfl
  | cons name names ih =>
      obtain ⟨hnot, hnames⟩ := List.nodup_cons.mp hnames
      have hrest : names.filterMap (joinPhi thenArm elseArm
            (joinName thenArm elseArm [] v name).2) =
          names.filterMap (joinPhi thenArm elseArm v) := by
        refine List.filterMap_congr fun other hmem => ?_
        have hne : name ≠ other := fun h => hnot (h ▸ hmem)
        have hentry := entry_joinName thenArm elseArm [] v name other
        rw [if_neg hne] at hentry
        unfold joinPhi
        rw [← next_entry, hentry, next_entry]
      rw [List.foldl_cons, foldl_joinName_eq, List.reverse_append, ih hnames, hrest,
        code_joinName, filterMap_cons_toList]
      cases joinPhi thenArm elseArm v name <;> rfl

/-- Every name is joined once. -/
theorem nodup_joinNames : (joinNames thenArm elseArm).Nodup :=
  Std.ExtTreeMap.nodup_keys

/-- Names that are not joined are not current in either arm. -/
theorem unknown_of_notMem_joinNames {name : String} (h : name ∉ joinNames thenArm elseArm) :
    thenArm[name]? = none ∧ elseArm[name]? = none := by
  unfold joinNames at h
  rw [Std.ExtTreeMap.mem_keys, Std.ExtTreeMap.mem_union_iff, not_or] at h
  exact ⟨Std.ExtTreeMap.getElem?_eq_none h.1, Std.ExtTreeMap.getElem?_eq_none h.2⟩

/-- The phis behind a branch come in the order of the names. -/
theorem code_join (v : Versions) :
    (join thenArm elseArm [] v).1.reverse =
      (joinNames thenArm elseArm).filterMap (joinPhi thenArm elseArm v) :=
  code_joinNames thenArm elseArm (nodup_joinNames thenArm elseArm) v

/-- A join joins every name, whatever the order. -/
theorem entry_join (out : List Inst) (v : Versions) (name : String) :
    (join thenArm elseArm out v).2.entry name =
      (v.entry name).joined thenArm[name]? elseArm[name]? := by
  unfold join
  rw [entry_joinNames thenArm elseArm (nodup_joinNames thenArm elseArm)]
  by_cases h : name ∈ joinNames thenArm elseArm
  · rw [if_pos h]
  · rw [if_neg h]
    obtain ⟨ha, hb⟩ := unknown_of_notMem_joinNames thenArm elseArm h
    rw [ha, hb]
    rfl

end Join

-- =============================================================== every table

/-- In every name, the current version was handed out. -/
def Bounded (v : Versions) : Prop :=
  ∀ name, (v.entry name).Bounded

/-- How tables can change. -/
def Reaches (v v' : Versions) : Prop :=
  ∀ name, (v.entry name).Reaches (v'.entry name)

variable {v v' : Versions}

theorem Reaches.refl (v : Versions) : v.Reaches v :=
  fun _ => .same

theorem Reaches.trans {v'' : Versions} (h : v.Reaches v') (h' : v'.Reaches v'') :
    v.Reaches v'' :=
  fun name => (h name).trans (h' name)

theorem Reaches.bounded (h : v.Reaches v') (hv : v.Bounded) : v'.Bounded :=
  fun name => (h name).bounded (hv name)

/-- A read changes every entry in one of the two ways, or not at all. -/
theorem reaches_read (v : Versions) (x : Var) : v.Reaches (v.read x).2 := by
  cases x with
  | temp number => exact .refl v
  | user name version =>
      cases version with
      | some version => exact .refl v
      | none =>
          intro other
          rw [entry_read]
          by_cases h : name = other
          · rw [if_pos h]
            exact Entry.reaches_seen _
          · rw [if_neg h]
            exact .same

theorem reaches_readOperand (v : Versions) (operand : Operand) :
    v.Reaches (v.readOperand operand).2 := by
  cases operand with
  | const value => exact .refl v
  | var x => exact reaches_read v x

theorem reaches_readRhs (v : Versions) (rhs : Rhs) : v.Reaches (v.readRhs rhs).2 := by
  cases rhs with
  | copy operand => exact reaches_readOperand v operand
  | unary op operand => exact reaches_readOperand v operand
  | binary op left right =>
      exact (reaches_readOperand v left).trans (reaches_readOperand _ right)

theorem reaches_readAll (v : Versions) (sources : List Var) :
    v.Reaches (v.readAll sources).2 := by
  induction sources generalizing v with
  | nil => exact .refl v
  | cons x sources ih => exact (reaches_read v x).trans (ih _)

/-- So does a write. -/
theorem reaches_write (v : Versions) (x : Var) : v.Reaches (v.write x).2 := by
  cases x with
  | temp number => exact .refl v
  | user name version =>
      cases version with
      | some version => exact .refl v
      | none =>
          intro other
          rw [entry_write]
          by_cases h : name = other
          · rw [if_pos h]
            exact Entry.reaches_written _
          · rw [if_neg h]
            exact .same

end Versions

-- ==================================================================== code

/-- An instruction with versions, and the joins behind it. -/
def Inst.versioned (v : Versions) (i : Inst) : List Inst :=
  (i.renameOnto [] v).1.reverse

/-- The tables behind an instruction. -/
def Inst.after (v : Versions) (i : Inst) : Versions :=
  (i.renameOnto [] v).2

/-- Code with versions. -/
def versionedAll (v : Versions) (code : List Inst) : List Inst :=
  (renameAll [] v code).1.reverse

/-- The tables behind some code. -/
def afterAll (v : Versions) (code : List Inst) : Versions :=
  (renameAll [] v code).2

/-- The tables in front of the second arm: the versions of the first arm
are taken, but not seen. -/
def Versions.elseStart (v : Versions) (thenArm : List Inst) : Versions :=
  ⟨(afterAll v thenArm).latest, v.current⟩

/-- The tables of both arms, and those in front of their join. -/
def Versions.joinStart (v : Versions) (thenArm elseArm : List Inst) : Versions :=
  ⟨(afterAll (v.elseStart thenArm) elseArm).latest, v.current⟩

theorem Inst.versioned_assign (v : Versions) (dest : Var) (rhs : Rhs) :
    (Inst.assign dest rhs).versioned v =
      [.assign ((v.readRhs rhs).2.write dest).1 (v.readRhs rhs).1] := rfl

theorem Inst.after_assign (v : Versions) (dest : Var) (rhs : Rhs) :
    (Inst.assign dest rhs).after v = ((v.readRhs rhs).2.write dest).2 := rfl

theorem Inst.versioned_phi (v : Versions) (dest : Var) (sources : List Var) :
    (Inst.phi dest sources).versioned v =
      [.phi ((v.readAll sources).2.write dest).1 (v.readAll sources).1] := rfl

theorem Inst.after_phi (v : Versions) (dest : Var) (sources : List Var) :
    (Inst.phi dest sources).after v = ((v.readAll sources).2.write dest).2 := rfl

theorem versionedAll_cons (v : Versions) (i : Inst) (rest : List Inst) :
    versionedAll v (i :: rest) = i.versioned v ++ versionedAll (i.after v) rest := by
  show (renameAll (i.renameOnto [] v).1 (i.renameOnto [] v).2 rest).1.reverse = _
  rw [renameAll_eq, List.reverse_append]
  rfl

theorem afterAll_cons (v : Versions) (i : Inst) (rest : List Inst) :
    afterAll v (i :: rest) = afterAll (i.after v) rest := by
  show (renameAll (i.renameOnto [] v).1 (i.renameOnto [] v).2 rest).2 = _
  rw [renameAll_eq]
  rfl

section Branch

variable (v : Versions) (cond : Operand) (thenArm elseArm : List Inst)

/-- The renamed branch: the arms are renamed one after the other, both from
the versions that are current in front of them, and the phis stand
behind. -/
theorem Inst.versioned_branch :
    (Inst.branch cond thenArm elseArm).versioned v =
      let w := (v.readOperand cond).2
      let t := (afterAll w thenArm).current
      let e := (afterAll (w.elseStart thenArm) elseArm).current
      .branch (v.readOperand cond).1 (versionedAll w thenArm)
          (versionedAll (w.elseStart thenArm) elseArm) ::
        (Versions.joinNames t e).filterMap
          (Versions.joinPhi t e (w.joinStart thenArm elseArm)) := by
  show (Versions.join _ _ [_] _).1.reverse = _
  rw [Versions.join_eq, List.reverse_append, Versions.code_join]
  rfl

/-- What a branch leaves of a name is the join of what its arms leave. -/
theorem Inst.entry_after_branch (name : String) :
    ((Inst.branch cond thenArm elseArm).after v).entry name =
      let w := (v.readOperand cond).2
      ((w.joinStart thenArm elseArm).entry name).joined
        ((afterAll w thenArm).entry name).current
        ((afterAll (w.elseStart thenArm) elseArm).entry name).current := by
  show (Versions.join _ _ [_] _).2.entry name = _
  rw [Versions.entry_join]
  rfl

end Branch

namespace Versions

/-- What an arm did to the tables the other arm does not undo. -/
theorem Reaches.elseStart {v : Versions} {thenArm : List Inst} (hv : v.Bounded)
    (h : v.Reaches (afterAll v thenArm)) : (v.elseStart thenArm).Bounded :=
  fun name version hversion => Nat.lt_of_lt_of_le (hv name version hversion) (h name).next_le

end Versions

mutual

/-- An instruction changes every entry in one of the two ways, or not at
all. For a branch the two arms and the join come to one change. -/
theorem Inst.reaches_after {v : Versions} (hv : v.Bounded) : ∀ i : Inst, v.Reaches (i.after v)
  | .assign dest rhs => (Versions.reaches_readRhs v rhs).trans (Versions.reaches_write _ dest)
  | .phi dest sources =>
    (Versions.reaches_readAll v sources).trans (Versions.reaches_write _ dest)
  | .branch cond thenArm elseArm => by
    have hcond := Versions.reaches_readOperand v cond
    have hbounded := hcond.bounded hv
    have hthen := reaches_afterAll hbounded thenArm
    have helse := reaches_afterAll (hthen.elseStart hbounded) elseArm
    refine hcond.trans fun name => ?_
    rw [Inst.entry_after_branch]
    exact Entry.joined_reaches (hbounded name) (hthen name) (helse name)

/-- So does code of any shape. -/
theorem reaches_afterAll {v : Versions} (hv : v.Bounded) :
    ∀ code : List Inst, v.Reaches (afterAll v code)
  | [] => .refl v
  | i :: rest => by
    rw [afterAll_cons]
    have hi := i.reaches_after hv
    exact hi.trans (reaches_afterAll (hi.bounded hv) rest)

end

end ExprGraph.SSA
