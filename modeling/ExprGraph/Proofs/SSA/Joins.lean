/-
Which phis the renaming puts in.

It decides by comparing versions in its tables. What it comes to can be
read off the code it was given: a name gets a phi behind a branch iff an
arm defines it, at any depth, and it is known at the end of both
(`Placed`). A name is known once it was met: on entry, in a read or a
definition on the way, or in either arm of a branch that was passed.

# One name

For one name, code turns the entry in one of three ways, according to
whether it mentions the name and whether it defines it (`Entry.Turns`).
Code that defines a name leaves it at a version handed out in the code,
and code that does not leaves it where it was, or at 0 if it was unknown.
So the versions at the ends of two arms differ iff one of them defines the
name (`Entry.Turns.differ_iff`).
-/
import ExprGraph.Proofs.ByteOrder
import ExprGraph.Proofs.SSA.RenameExecution

namespace ExprGraph.SSA

-- =============================================================== mentions

/-- Whether an operand reads the source variable `name`. -/
def Operand.mentions (name : String) : Operand → Bool
  | .const _ => false
  | .var x => x.isNamed name

/-- Whether a right-hand side reads it. -/
def Rhs.mentions (name : String) : Rhs → Bool
  | .copy operand => operand.mentions name
  | .unary _ operand => operand.mentions name
  | .binary _ left right => left.mentions name || right.mentions name

mutual

/-- Whether an instruction, or one in its arms, reads or defines the source
variable `name`. -/
def Inst.mentions (name : String) : Inst → Bool
  | .assign dest rhs => rhs.mentions name || dest.isNamed name
  | .branch cond thenArm elseArm =>
    cond.mentions name || (mentionsAny name thenArm || mentionsAny name elseArm)
  | .phi dest sources => sources.any (Var.isNamed name) || dest.isNamed name

/-- Whether some code reads or defines it, at any depth. -/
def mentionsAny (name : String) : List Inst → Bool
  | [] => false
  | i :: rest => i.mentions name || mentionsAny name rest

end

-- ================================================================ one name

namespace Entry

/-- How code turns the entry of a name, given whether it mentions the name
and whether it defines it. -/
inductive Turns (e : Entry) : Bool → Bool → Entry → Prop where
  | unmentioned : Turns e false false e
  | seen : Turns e true false e.seen
  | written {version : Nat} : e.next ≤ version → Turns e true true ⟨some version, some version⟩

variable {e t u : Entry} {m w m' w' : Bool}

/-- A name is seen once. -/
theorem seen_seen (e : Entry) : e.seen.seen = e.seen := by
  obtain ⟨latest, current⟩ := e
  cases current <;> rfl

/-- Arms that end at different versions make a new one. -/
theorem joined_of_ne (e : Entry) {a b : Nat} (h : a ≠ b) :
    e.joined (some a) (some b) = e.written :=
  if_neg h

namespace Turns

/-- The three ways are among the ways an entry can change. -/
theorem reaches (h : e.Turns m w t) : e.Reaches t := by
  cases h with
  | unmentioned => exact .same
  | seen => exact reaches_seen e
  | written hle => exact .written hle

/-- One stretch of code after the other. -/
theorem trans (h : e.Turns m w t) (h' : t.Turns m' w' u) :
    e.Turns (m || m') (w || w') u := by
  cases h' with
  | unmentioned =>
      rw [Bool.or_false, Bool.or_false]
      exact h
  | written hle =>
      rw [Bool.or_true, Bool.or_true]
      exact .written (Nat.le_trans h.reaches.next_le hle)
  | seen =>
      rw [Bool.or_true, Bool.or_false]
      cases h with
      | unmentioned => exact .seen
      | seen =>
          rw [seen_seen]
          exact .seen
      | written hle => exact .written hle

/-- Names are known once they were mentioned. -/
theorem current_isSome (h : e.Turns m w t) : t.current.isSome = (e.current.isSome || m) := by
  cases h with
  | unmentioned => exact (Bool.or_false _).symm
  | written hle => exact (Bool.or_true _).symm
  | seen =>
      obtain ⟨latest, current⟩ := e
      cases current <;> rfl

/-- Code that does not define a name leaves it where it was, or at 0. -/
theorem current_of_unwritten (h : e.Turns m false t) {a : Nat} (ha : t.current = some a) :
    a = e.current.getD 0 := by
  cases h with
  | unmentioned => rw [ha]; rfl
  | seen =>
      obtain ⟨latest, current⟩ := e
      cases current <;> cases ha <;> rfl

/-- Code that defines a name leaves it at a version handed out in the
code. -/
theorem current_of_written (h : e.Turns m true t) {a : Nat} (ha : t.current = some a) :
    e.next ≤ a ∧ a < t.next := by
  cases h with
  | written hle =>
      cases ha
      exact ⟨hle, Nat.lt_succ_self _⟩

/-- What a name is read at in front of the code was handed out before. -/
theorem getD_lt (he : e.Bounded) : e.current.getD 0 < e.next := by
  cases hcurrent : e.current with
  | none =>
      rw [next_eq]
      exact Nat.succ_pos _
  | some version => exact he version hcurrent

/-- The second arm starts behind the versions of the first, but sees what
was current in front of the branch. The versions at the ends differ iff
one of the arms defines the name. -/
theorem differ_iff (he : e.Bounded) (ht : e.Turns m w t)
    (hu : Turns ⟨t.latest, e.current⟩ m' w' u) {a b : Nat} (ha : t.current = some a)
    (hb : u.current = some b) : a ≠ b ↔ (w || w') = true := by
  have hlow : e.current.getD 0 < e.next := getD_lt he
  have hnext : e.next ≤ t.next := ht.reaches.next_le
  cases w with
  | false =>
      have ha' : a = e.current.getD 0 := ht.current_of_unwritten ha
      cases w' with
      | false =>
          have hb' : b = e.current.getD 0 := hu.current_of_unwritten hb
          simp [ha', hb']
      | true =>
          have hle : t.next ≤ b := (hu.current_of_written hb).1
          have hne : a ≠ b := by omega
          exact iff_of_true hne rfl
  | true =>
      obtain ⟨hle, hlt⟩ := ht.current_of_written ha
      cases w' with
      | false =>
          have hb' : b = e.current.getD 0 := hu.current_of_unwritten hb
          have hne : a ≠ b := by omega
          exact iff_of_true hne rfl
      | true =>
          have hle' : t.next ≤ b := (hu.current_of_written hb).1
          have hne : a ≠ b := by omega
          exact iff_of_true hne rfl

/-- A branch turns an entry as its arms do together. -/
theorem joined (he : e.Bounded) (ht : e.Turns m w t)
    (hu : Turns ⟨t.latest, e.current⟩ m' w' u) :
    e.Turns (m || m') (w || w') (joined ⟨u.latest, e.current⟩ t.current u.current) := by
  have hle : e.next ≤ next ⟨u.latest, e.current⟩ :=
    Nat.le_trans ht.reaches.next_le hu.reaches.next_le
  have hphi : ∀ a b, t.current = some a → u.current = some b → (w || w') = true →
      e.Turns true true (Entry.joined ⟨u.latest, e.current⟩ (some a) (some b)) := by
    intro a b ha hb hw
    rw [joined_of_ne _ ((differ_iff he ht hu ha hb).mpr hw)]
    exact .written hle
  have hkept : ∀ latest c, Turns ⟨latest, some c⟩ true false
      (Entry.joined ⟨latest, some c⟩ (some c) (some c)) := by
    intro latest c
    rw [Entry.joined, if_pos rfl]
    exact .seen
  obtain ⟨latest, current⟩ := e
  cases ht with
  | unmentioned =>
      cases hu with
      | unmentioned =>
          rw [joined_self]
          exact .unmentioned
      | seen =>
          cases current with
          | none => exact .seen
          | some c => exact hkept latest c
      | written hb =>
          cases current with
          | none => exact .written hb
          | some c => exact hphi _ _ rfl rfl rfl
  | seen =>
      cases hu with
      | unmentioned =>
          cases current with
          | none => exact .seen
          | some c => exact hkept latest c
      | seen =>
          cases current with
          | none => exact .seen
          | some c => exact hkept latest c
      | written hb =>
          cases current <;> exact hphi _ _ rfl rfl rfl
  | written ha =>
      cases hu with
      | unmentioned =>
          cases current with
          | none => exact .written ha
          | some c => exact hphi _ _ rfl rfl rfl
      | seen => cases current <;> exact hphi _ _ rfl rfl rfl
      | written hb => exact hphi _ _ rfl rfl rfl

end Turns

end Entry

-- =============================================================== all names

namespace Versions

/-- A read mentions its name and does not define it. -/
theorem turns_read (v : Versions) {x : Var} (hx : x.plain = true) (name : String) :
    (v.entry name).Turns (x.isNamed name) false ((v.read x).2.entry name) := by
  cases x with
  | temp number => exact .unmentioned
  | user other version =>
      cases version with
      | some version => cases hx
      | none =>
          rw [entry_read, Var.isNamed]
          by_cases h : other = name
          · rw [if_pos h, beq_iff_eq.mpr h]
            exact .seen
          · rw [if_neg h, beq_eq_false_iff_ne.mpr h]
            exact .unmentioned

/-- A write does both. -/
theorem turns_write (v : Versions) {x : Var} (hx : x.plain = true) (name : String) :
    (v.entry name).Turns (x.isNamed name) (x.isNamed name) ((v.write x).2.entry name) := by
  cases x with
  | temp number => exact .unmentioned
  | user other version =>
      cases version with
      | some version => cases hx
      | none =>
          rw [entry_write, Var.isNamed]
          by_cases h : other = name
          · rw [if_pos h, beq_iff_eq.mpr h]
            exact .written (Nat.le_refl _)
          · rw [if_neg h, beq_eq_false_iff_ne.mpr h]
            exact .unmentioned

theorem turns_readOperand (v : Versions) (name : String) :
    ∀ {o : Operand}, o.plain = true →
      (v.entry name).Turns (o.mentions name) false ((v.readOperand o).2.entry name)
  | .const _, _ => .unmentioned
  | .var _, h => v.turns_read h name

/-- A right-hand side mentions what it reads. -/
theorem turns_readRhs (v : Versions) (name : String) :
    ∀ {rhs : Rhs}, rhs.plain = true →
      (v.entry name).Turns (rhs.mentions name) false ((v.readRhs rhs).2.entry name)
  | .copy o, h => v.turns_readOperand (o := o) name h
  | .unary _ o, h => v.turns_readOperand (o := o) name h
  | .binary _ left right, h => by
    rw [Rhs.plain, Bool.and_eq_true] at h
    exact (v.turns_readOperand name h.1).trans (turns_readOperand _ name h.2)

/-- A phi mentions its sources. -/
theorem turns_readAll (v : Versions) (name : String) {sources : List Var}
    (h : sources.all Var.plain = true) :
    (v.entry name).Turns (sources.any (Var.isNamed name)) false
      ((v.readAll sources).2.entry name) := by
  induction sources generalizing v with
  | nil => exact .unmentioned
  | cons x sources ih =>
      rw [List.all_cons, Bool.and_eq_true] at h
      exact (v.turns_read h.1 name).trans (ih _ h.2)

end Versions

mutual

/-- An instruction turns an entry according to whether it mentions the name
and defines it, at any depth. -/
theorem Inst.turns_after {v : Versions} (hv : v.Bounded) (name : String) :
    ∀ {i : Inst}, i.plain = true →
      (v.entry name).Turns (i.mentions name) (i.writes name) ((i.after v).entry name)
  | .assign dest rhs, h => by
    rw [Inst.plain, Bool.and_eq_true] at h
    exact (v.turns_readRhs name h.2).trans (Versions.turns_write _ h.1 name)
  | .phi dest sources, h => by
    rw [Inst.plain, Bool.and_eq_true] at h
    exact (v.turns_readAll name h.2).trans (Versions.turns_write _ h.1 name)
  | .branch cond thenArm elseArm, h => by
    rw [Inst.plain, Bool.and_eq_true, Bool.and_eq_true] at h
    have hcond := v.turns_readOperand name h.1.1
    have hbounded := (Versions.reaches_readOperand v cond).bounded hv
    have hthen := turns_afterAll hbounded name h.1.2
    have helse := turns_afterAll
      ((reaches_afterAll hbounded thenArm).elseStart hbounded) name h.2
    rw [Inst.entry_after_branch]
    exact hcond.trans (hthen.joined (hbounded name) helse)

/-- Code turns the entry of a name as its instructions do one after the
other. -/
theorem turns_afterAll {v : Versions} (hv : v.Bounded) (name : String) :
    ∀ {code : List Inst}, plainAll code = true →
      (v.entry name).Turns (mentionsAny name code) (writesAny name code)
        ((afterAll v code).entry name)
  | [], _ => .unmentioned
  | i :: rest, h => by
    rw [plainAll, Bool.and_eq_true] at h
    rw [afterAll_cons]
    exact (i.turns_after hv name h.1).trans
      (turns_afterAll ((i.reaches_after hv).bounded hv) name h.2)

end

-- ======================================================== where phis are put

/-- A phi that merges two versions of a name in one. -/
def Inst.Merges (name : String) (i : Inst) : Prop :=
  ∃ version a b, a ≠ b ∧
    i = .phi (.user name (some version)) [.user name (some a), .user name (some b)]

/-- The names known behind code, given those known in front of it and
whether the code mentions a name. -/
def Met (known : String → Prop) (mentioned : String → Bool) : String → Prop :=
  fun name => known name ∨ mentioned name = true

/-- A name needs a phi behind two arms if one of them defines it, at any
depth, and it is known at the end of both. -/
def NeedsPhi (known : String → Prop) (thenArm elseArm : List Inst) (name : String) : Prop :=
  (writesAny name thenArm = true ∨ writesAny name elseArm = true)
    ∧ Met known (mentionsAny · thenArm) name ∧ Met known (mentionsAny · elseArm) name

/-- The second code is the first with versions, and with a phi for every
name that needs one behind each branch, in the order of the bytes of the
names. `known` are the names known in front of the code. -/
inductive Placed : (String → Prop) → List Inst → List Inst → Prop where
  | nil {known : String → Prop} : Placed known [] []
  | assign {known : String → Prop} {dest dest' : Var} {rhs rhs' : Rhs} {rest rest' : List Inst} :
      dest'.erase = dest → rhs'.erase = rhs →
      Placed (Met known ((Inst.assign dest rhs).mentions ·)) rest rest' →
      Placed known (.assign dest rhs :: rest) (.assign dest' rhs' :: rest')
  | phi {known : String → Prop} {dest dest' : Var} {sources sources' : List Var}
      {rest rest' : List Inst} :
      dest'.erase = dest → sources'.map Var.erase = sources →
      Placed (Met known ((Inst.phi dest sources).mentions ·)) rest rest' →
      Placed known (.phi dest sources :: rest) (.phi dest' sources' :: rest')
  | branch {known : String → Prop} {cond cond' : Operand}
      {thenArm thenArm' elseArm elseArm' phis rest rest' : List Inst} {names : List String} :
      cond'.erase = cond →
      Placed (Met known (cond.mentions ·)) thenArm thenArm' →
      Placed (Met known (cond.mentions ·)) elseArm elseArm' →
      (∀ name, name ∈ names ↔ NeedsPhi (Met known (cond.mentions ·)) thenArm elseArm name) →
      names.Pairwise (fun a b => bytes a < bytes b) → List.Forall₂ Inst.Merges names phis →
      Placed (Met known ((Inst.branch cond thenArm elseArm).mentions ·)) rest rest' →
      Placed known (.branch cond thenArm elseArm :: rest)
        (.branch cond' thenArm' elseArm' :: (phis ++ rest'))

-- =============================================================== the renaming

namespace Versions

/-- The names that the tables know. -/
def Knows (v : Versions) (known : String → Prop) : Prop :=
  ∀ name, known name ↔ (v.entry name).current.isSome = true

/-- Behind some code the names known are those known before and those it
mentions. -/
theorem Knows.met {v v' : Versions} {known : String → Prop} (h : v.Knows known)
    {mentioned written : String → Bool}
    (hturns : ∀ name, (v.entry name).Turns (mentioned name) (written name) (v'.entry name)) :
    v'.Knows (Met known mentioned) := by
  intro name
  rw [(hturns name).current_isSome, Bool.or_eq_true]
  exact or_congr_left (h name)

/-- On entry the parameters are known. -/
theorem knows_ofLiveIn (liveIn : List String) : (ofLiveIn liveIn).Knows (· ∈ liveIn) := by
  intro name
  rw [entry_ofLiveIn]
  by_cases h : name ∈ liveIn
  · rw [if_pos h]
    exact iff_of_true h rfl
  · rw [if_neg h]
    exact iff_of_false h nofun

section Join

variable {thenArm elseArm : VersionTable} {v : Versions} {name : String}

/-- A name gets a phi iff both arms know it, at different versions. -/
theorem isSome_joinPhi : (joinPhi thenArm elseArm v name).isSome = true ↔
    ∃ a b, thenArm[name]? = some a ∧ elseArm[name]? = some b ∧ a ≠ b := by
  constructor
  · intro h
    obtain ⟨i, hi⟩ := Option.isSome_iff_exists.mp h
    obtain ⟨a, b, ha, hb, hne, -⟩ := joinPhi_eq_some thenArm elseArm hi
    exact ⟨a, b, ha, hb, hne⟩
  · rintro ⟨a, b, ha, hb, hne⟩
    simp only [joinPhi, ha, hb, if_neg hne, Option.isSome_some]

/-- The phi merges the name that it is for. -/
theorem merges_of_joinPhi {i : Inst} (h : joinPhi thenArm elseArm v name = some i) :
    i.Merges name := by
  obtain ⟨a, b, -, -, hne, rfl⟩ := joinPhi_eq_some thenArm elseArm h
  exact ⟨_, a, b, hne, rfl⟩

/-- The names that get a phi. -/
def phiNames (thenArm elseArm : VersionTable) (v : Versions) : List String :=
  (joinNames thenArm elseArm).filter fun name => (joinPhi thenArm elseArm v name).isSome

/-- The names that get a phi, by the versions at the ends of the arms. -/
theorem mem_phiNames : name ∈ phiNames thenArm elseArm v ↔
    ∃ a b, thenArm[name]? = some a ∧ elseArm[name]? = some b ∧ a ≠ b := by
  unfold phiNames
  rw [List.mem_filter, isSome_joinPhi, and_iff_right_iff_imp]
  rintro ⟨a, b, ha, -, -⟩
  by_contra hnot
  have hnone := (unknown_of_notMem_joinNames thenArm elseArm hnot).1
  rw [ha] at hnone
  cases hnone

/-- They come in the order of their bytes, each once. -/
theorem pairwise_phiNames :
    (phiNames thenArm elseArm v).Pairwise fun a b => bytes a < bytes b :=
  (pairwise_bytes_keys _).filter _

/-- The phis come in the order of their names. -/
theorem merges_phiNames : List.Forall₂ Inst.Merges (phiNames thenArm elseArm v)
    ((joinNames thenArm elseArm).filterMap (joinPhi thenArm elseArm v)) := by
  unfold phiNames
  induction joinNames thenArm elseArm with
  | nil => exact .nil
  | cons name names ih =>
      cases hphi : joinPhi thenArm elseArm v name with
      | none =>
          rw [List.filterMap_cons_none hphi, List.filter_cons_of_neg (by simp [hphi])]
          exact ih
      | some i =>
          rw [List.filterMap_cons_some hphi, List.filter_cons_of_pos (by simp [hphi])]
          exact .cons (merges_of_joinPhi hphi) ih

end Join

end Versions

/-- The names that get a phi behind two arms are those that need one. -/
theorem mem_phiNames_arms {w : Versions} (hw : w.Bounded) {known : String → Prop}
    (hknown : w.Knows known) {thenArm elseArm : List Inst} (hthen : plainAll thenArm = true)
    (helse : plainAll elseArm = true) (v : Versions) (name : String) :
    name ∈ Versions.phiNames (afterAll w thenArm).current
        (afterAll (w.elseStart thenArm) elseArm).current v
      ↔ NeedsPhi known thenArm elseArm name := by
  have hstart : (w.elseStart thenArm).Bounded := (reaches_afterAll hw thenArm).elseStart hw
  have ht := fun name => turns_afterAll hw name hthen
  have he := fun name => turns_afterAll hstart name helse
  have hknownThen := hknown.met ht name
  -- the second arm starts with the names known in front of the branch
  have hsame : (w.elseStart thenArm).Knows known := hknown
  have hknownElse := hsame.met he name
  unfold NeedsPhi
  rw [Versions.mem_phiNames, ← Bool.or_eq_true, hknownThen, hknownElse]
  constructor
  · rintro ⟨a, b, ha, hb, hne⟩
    have hwrites := ((ht name).differ_iff (hw name) (he name) ha hb).mp hne
    exact ⟨hwrites, Option.isSome_of_eq_some ha, Option.isSome_of_eq_some hb⟩
  · rintro ⟨hwrites, hsomeThen, hsomeElse⟩
    obtain ⟨a, ha⟩ := Option.isSome_iff_exists.mp hsomeThen
    obtain ⟨b, hb⟩ := Option.isSome_iff_exists.mp hsomeElse
    exact ⟨a, b, ha, hb, ((ht name).differ_iff (hw name) (he name) ha hb).mpr hwrites⟩

mutual

/-- A renamed instruction has the phis behind it that it needs, and is
otherwise itself. -/
theorem Inst.placed_versioned {v : Versions} (hv : v.Bounded) {known : String → Prop}
    (hknown : v.Knows known) :
    ∀ {i : Inst} {rest rest' : List Inst}, i.plain = true →
      Placed (Met known (i.mentions ·)) rest rest' → Placed known (i :: rest) (i.versioned v ++ rest')
  | .assign dest rhs, rest, rest', h, hrest => by
    rw [Inst.plain, Bool.and_eq_true] at h
    exact .assign (Versions.erase_write h.1 _) (Versions.erase_readRhs h.2 v) hrest
  | .phi dest sources, rest, rest', h, hrest => by
    rw [Inst.plain, Bool.and_eq_true] at h
    exact .phi (Versions.erase_write h.1 _) (Versions.erase_readAll h.2 v) hrest
  | .branch cond thenArm elseArm, rest, rest', h, hrest => by
    rw [Inst.plain, Bool.and_eq_true, Bool.and_eq_true] at h
    obtain ⟨⟨hcond, hthen⟩, helse⟩ := h
    have hbounded := (Versions.reaches_readOperand v cond).bounded hv
    have hinside := hknown.met fun name => v.turns_readOperand name hcond
    have hstart := (reaches_afterAll hbounded thenArm).elseStart hbounded
    rw [Inst.versioned_branch]
    exact .branch (Versions.erase_readOperand hcond v)
      (placed_versionedAll hbounded hinside hthen) (placed_versionedAll hstart hinside helse)
      (mem_phiNames_arms hbounded hinside hthen helse _) Versions.pairwise_phiNames
      Versions.merges_phiNames hrest

/-- Renaming puts phis where they are needed. -/
theorem placed_versionedAll {v : Versions} (hv : v.Bounded) {known : String → Prop}
    (hknown : v.Knows known) :
    ∀ {code : List Inst}, plainAll code = true → Placed known code (versionedAll v code)
  | [], _ => .nil
  | i :: rest, h => by
    rw [plainAll, Bool.and_eq_true] at h
    rw [versionedAll_cons]
    refine Inst.placed_versioned hv hknown h.1 ?_
    exact placed_versionedAll ((i.reaches_after hv).bounded hv)
      (hknown.met fun name => i.turns_after hv name h.1) h.2

end

/-- Renaming adds versions and the phis that are needed, and nothing else:
taking the versions off and leaving these phis out gives the code back, and
behind each branch stands exactly one phi for each name that needs one, in
the order of the bytes of the names. -/
theorem placed_rename {code : List Inst} (hplain : plainAll code = true)
    (liveIn : List String) :
    stripAll (rename code liveIn) = code
      ∧ Placed (· ∈ liveIn) code (rename code liveIn) := by
  have hbounded : (Versions.ofLiveIn liveIn).Bounded :=
    fun name => (Versions.entry_start liveIn name).1
  exact ⟨stripAll_versionedAll _ code hplain,
    placed_versionedAll hbounded (Versions.knows_ofLiveIn liveIn) hplain⟩

/-- Two arms that define the same two names in different orders. -/
def crossed : List Inst :=
  [.branch (.var (.user "c" none))
    [.assign (.user "z" none) (.copy (.const 1.0)), .assign (.user "a" none) (.copy (.const 1.0))]
    [.assign (.user "a" none) (.copy (.const 2.0)), .assign (.user "z" none) (.copy (.const 2.0))]]

theorem placed_rename_crossed : plainAll crossed = true ∧
    stripAll (rename crossed ["p"]) = crossed
      ∧ Placed (· ∈ ["p"]) crossed (rename crossed ["p"]) :=
  ⟨rfl, placed_rename rfl ["p"]⟩

end ExprGraph.SSA
