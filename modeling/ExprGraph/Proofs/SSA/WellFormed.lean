/-
Built code is well formed.

Each source variable carries a version, and in the order of the lines a
name is defined at its versions one after the other. Each read of a source
variable is at the version seen there, which some line in front defines
unless it is the version on entry. Each temporary is read in the scope of
its definition. Each phi stands behind a branch, with other phis between
them at most, and takes from either arm a temporary of its top level, or
the version of its own name that is seen at the end of the arm
(`WellFormed`).

# Reads and arms

What a read sees is not what the lines in front of it define last: the
second arm of a branch sees nothing of the first. So it is followed down
the code from what is seen in front (`ResolvedAll`), an arm starting where
its branch does, and with it the branch that a phi belongs to. The joins
that the renaming puts behind a branch stand between it and the phi of a
choice; they are phis of the same branch, so the phi keeps it.
-/
import ExprGraph.Proofs.SSA.BuildExecution
import ExprGraph.Proofs.SSA.Scope
import ExprGraph.Proofs.SSA.VersionOrder

namespace ExprGraph.SSA

-- ============================================================ what reads see

/-- A source variable carries a version. -/
def Var.Versioned : Var → Prop
  | .temp _ => True
  | .user _ version => version.isSome = true

/-- A source variable is at the version seen. -/
def Var.Sees (seen : String → Nat) : Var → Prop
  | .temp _ => True
  | .user name version => version = some (seen name)

/-- What a phi may take from an arm: a temporary of its top level, or its
own name at the version seen at the end of the arm. -/
def Feeds (seen : String → Nat) (arm : List Inst) (dest : Var) : Var → Prop
  | .temp number => number ∈ topTemps arm
  | .user name version =>
    (∃ v, dest = .user name v) ∧ version = some (seenBehind seen arm name)

/-- A branch that phis stand behind: its arms, and what is seen in front of
it. -/
structure Joint where
  seen : String → Nat
  thenArm : List Inst
  elseArm : List Inst

/-- The branch that a phi behind the instruction belongs to. -/
def Inst.joint (seen : String → Nat) (behind : Option Joint) : Inst → Option Joint
  | .assign .. => none
  | .branch _ thenArm elseArm => some ⟨seen, thenArm, elseArm⟩
  | .phi .. => behind

mutual

/-- Operands and conditions are at the versions seen, and phis take from the
arms of the branch they belong to. -/
def Inst.Resolved (seen : String → Nat) (behind : Option Joint) : Inst → Prop
  | .assign _ rhs => rhs.Over (Var.Sees seen)
  | .branch cond thenArm elseArm =>
    cond.Over (Var.Sees seen) ∧ ResolvedAll seen none thenArm ∧ ResolvedAll seen none elseArm
  | .phi dest sources => ∃ joint a b, behind = some joint ∧ sources = [a, b]
    ∧ Feeds joint.seen joint.thenArm dest a ∧ Feeds joint.seen joint.elseArm dest b

/-- Every read in some code sees the version that stands in front of it,
given what is seen in front of the code and which branch a phi at its front
belongs to. -/
def ResolvedAll (seen : String → Nat) (behind : Option Joint) : List Inst → Prop
  | [] => True
  | i :: rest => i.Resolved seen behind
    ∧ ResolvedAll (seenBehind seen [i]) (i.joint seen behind) rest

end

/-- The variables that an instruction reads, its arms left out, are
such. -/
def Inst.Reads (P : Var → Prop) : Inst → Prop
  | .assign _ rhs => rhs.Over P
  | .branch cond _ _ => cond.Over P
  | .phi _ sources => ∀ x ∈ sources, P x

/-- The version is that on entry, or one of the lines defines it. -/
def Known (lines : List Inst) (name : String) (version : Nat) : Prop :=
  version = 0 ∨ ∃ i ∈ lines, i.definedVersion? name = some version

/-- A source variable is at a version that is known. -/
def Var.DefinedBy (lines : List Inst) : Var → Prop
  | .temp _ => True
  | .user name version => ∃ n, version = some n ∧ Known lines name n

/-- Well-formed code in SSA form. -/
structure WellFormed (code : List Inst) : Prop where
  /-- Every source variable carries a version. -/
  versioned : OverAll Var.Versioned code
  /-- The definitions of a name carry its versions from 1 on, in order. -/
  numbered : ∀ name, ∃ k, definedVersions name code = List.range' 1 k
  /-- Temporaries are read in the scope of their definitions. -/
  inScope : ScopedAll [] code
  /-- Reads see the versions defined last, and phis join arms. -/
  resolved : ResolvedAll (fun _ => 0) none code
  /-- What a line reads, but for versions on entry, a line in front of it
  defines. -/
  defined : ∀ front i behind, walk code = front ++ i :: behind → i.Reads (Var.DefinedBy front)

-- ============================================================= code in a row

section Rows

variable {seen : String → Nat} {behind : Option Joint}

/-- The branch that a phi behind some code belongs to. -/
def jointBehind (seen : String → Nat) (behind : Option Joint) : List Inst → Option Joint
  | [] => behind
  | i :: rest => jointBehind (seenBehind seen [i]) (i.joint seen behind) rest

/-- What is seen behind an instruction is seen in front of the rest. -/
theorem seenBehind_cons (seen : String → Nat) (i : Inst) (rest : List Inst) :
    seenBehind seen (i :: rest) = seenBehind (seenBehind seen [i]) rest :=
  seenBehind_append seen [i] rest

/-- The second part of some code is resolved against what the first
leaves. -/
theorem resolvedAll_append {a b : List Inst} :
    ResolvedAll seen behind (a ++ b) ↔
      ResolvedAll seen behind a ∧ ResolvedAll (seenBehind seen a) (jointBehind seen behind a) b := by
  induction a generalizing seen behind with
  | nil => exact (and_iff_right trivial).symm
  | cons i a ih =>
      rw [List.cons_append, ResolvedAll, ResolvedAll, ih, seenBehind_cons seen i a, jointBehind,
        and_assoc]

/-- A row of phis belongs to one branch. -/
theorem resolvedAll_phis {code : List Inst}
    (hphis : ∀ i ∈ code, ∃ dest sources, i = .phi dest sources)
    (h : ∀ i ∈ code, i.Resolved seen behind) : ResolvedAll seen behind code := by
  induction code generalizing seen with
  | nil => trivial
  | cons i code ih =>
      obtain ⟨dest, sources, rfl⟩ := hphis i List.mem_cons_self
      refine ⟨h _ List.mem_cons_self, ?_⟩
      refine ih (fun j hj => hphis j (List.mem_cons_of_mem _ hj)) fun j hj => ?_
      obtain ⟨dest', sources', rfl⟩ := hphis j (List.mem_cons_of_mem _ hj)
      exact h _ (List.mem_cons_of_mem _ hj)

/-- Phis read no operands. -/
theorem scopedAll_phis {temps : List Nat} {code : List Inst}
    (hphis : ∀ i ∈ code, ∃ dest sources, i = .phi dest sources) : ScopedAll temps code := by
  induction code generalizing temps with
  | nil => trivial
  | cons i code ih =>
      obtain ⟨dest, sources, rfl⟩ := hphis i List.mem_cons_self
      exact ⟨trivial, ih fun j hj => hphis j (List.mem_cons_of_mem _ hj)⟩

theorem overAll_of_forall {P : Var → Prop} {code : List Inst} (h : ∀ i ∈ code, i.Over P) :
    OverAll P code := by
  induction code with
  | nil => trivial
  | cons i code ih =>
      exact ⟨h i List.mem_cons_self, ih fun j hj => h j (List.mem_cons_of_mem _ hj)⟩

/-- Phis behind a branch belong to it, however many stand in between. -/
theorem jointBehind_phis {code : List Inst}
    (hphis : ∀ i ∈ code, ∃ dest sources, i = .phi dest sources) :
    jointBehind seen behind code = behind := by
  induction code generalizing seen with
  | nil => rfl
  | cons i code ih =>
      obtain ⟨dest, sources, rfl⟩ := hphis i List.mem_cons_self
      exact ih fun j hj => hphis j (List.mem_cons_of_mem _ hj)

end Rows

-- ============================================================= renamed reads

section Reads

variable {P Q : Var → Prop} {I : Versions → Prop}
  (h : ∀ {v : Versions} {x : Var}, I v → P x → Q (v.read x).1 ∧ I (v.read x).2)

include h

/-- What reading a variable establishes, reading several one after the
other establishes for each. -/
theorem over_readOperand {v : Versions} (hv : I v) :
    ∀ {o : Operand}, o.Over P → (v.readOperand o).1.Over Q ∧ I (v.readOperand o).2
  | .const _, _ => ⟨trivial, hv⟩
  | .var _, ho => h hv ho

/-- What a right-hand side reads is such, if every read is. -/
theorem over_readRhs {v : Versions} (hv : I v) :
    ∀ {rhs : Rhs}, rhs.Over P → (v.readRhs rhs).1.Over Q ∧ I (v.readRhs rhs).2
  | .copy _, ho => over_readOperand h hv ho
  | .unary .., ho => over_readOperand h hv ho
  | .binary .., ho => by
    obtain ⟨hl, hv'⟩ := over_readOperand h hv ho.1
    obtain ⟨hr, hv''⟩ := over_readOperand h hv' ho.2
    exact ⟨⟨hl, hr⟩, hv''⟩

/-- So is what a phi reads. -/
theorem over_readAll {sources : List Var} :
    ∀ {v : Versions}, I v → (∀ x ∈ sources, P x) →
      (∀ x ∈ (v.readAll sources).1, Q x) ∧ I (v.readAll sources).2 := by
  induction sources with
  | nil => exact fun hv _ => ⟨by nofun, hv⟩
  | cons x sources ih =>
      intro v hv hsources
      obtain ⟨hx, hv'⟩ := h hv (hsources x List.mem_cons_self)
      obtain ⟨hrest, hv''⟩ := ih hv' fun y hy => hsources y (List.mem_cons_of_mem _ hy)
      exact ⟨List.forall_mem_cons.mpr ⟨hx, hrest⟩, hv''⟩

end Reads

namespace Versions

/-- A read yields a versioned variable. -/
theorem versioned_read (v : Versions) (x : Var) : (v.read x).1.Versioned := by
  cases x with
  | temp number => trivial
  | user name version =>
      cases version with
      | some version => rfl
      | none =>
          cases hcurrent : v.current[name]? with
          | none => rw [read_of_unknown hcurrent]; rfl
          | some version => rw [read_of_current hcurrent]; rfl

/-- So does a write. -/
theorem versioned_write (v : Versions) (x : Var) : (v.write x).1.Versioned := by
  cases x with
  | temp number => trivial
  | user name version => cases version <;> rfl

theorem versioned_readOperand (v : Versions) :
    ∀ o : Operand, (v.readOperand o).1.Over Var.Versioned
  | .const _ => trivial
  | .var x => versioned_read v x

/-- So does every read in a right-hand side. -/
theorem versioned_readRhs (v : Versions) :
    ∀ rhs : Rhs, (v.readRhs rhs).1.Over Var.Versioned
  | .copy o => versioned_readOperand v o
  | .unary _ o => versioned_readOperand v o
  | .binary _ left right => ⟨versioned_readOperand v left, versioned_readOperand _ right⟩

/-- So does every read of a phi. -/
theorem versioned_readAll (v : Versions) (sources : List Var) :
    ∀ x ∈ (v.readAll sources).1, x.Versioned := by
  induction sources generalizing v with
  | nil => nofun
  | cons x sources ih => exact List.forall_mem_cons.mpr ⟨versioned_read v x, ih _⟩

/-- A read leaves temporaries as they are. -/
theorem among_read {temps : List Nat} (v : Versions) :
    ∀ {x : Var}, x.Among temps → (v.read x).1.Among temps
  | .temp _, h => h
  | .user name version, _ => by
    cases version with
    | some version => trivial
    | none =>
        cases hcurrent : v.current[name]? with
        | none => rw [read_of_unknown hcurrent]; trivial
        | some version => rw [read_of_current hcurrent]; trivial

/-- A read is at the version seen. -/
theorem sees_read (v : Versions) {x : Var} (hx : x.plain = true) : (v.read x).1.Sees v.seen := by
  cases x with
  | temp number => trivial
  | user name version =>
      cases version with
      | some version => cases hx
      | none =>
          cases hcurrent : v.current[name]? with
          | none =>
              rw [read_of_unknown hcurrent]
              show some 0 = some (v.current[name]?.getD 0)
              rw [hcurrent]
              rfl
          | some version =>
              rw [read_of_current hcurrent]
              show some version = some (v.current[name]?.getD 0)
              rw [hcurrent]
              rfl

/-- The phis of a join. -/
theorem joinPhi_of_mem {thenArm elseArm : VersionTable} {v : Versions} {i : Inst}
    (h : i ∈ (joinNames thenArm elseArm).filterMap (joinPhi thenArm elseArm v)) :
    ∃ name a b, thenArm[name]? = some a ∧ elseArm[name]? = some b
      ∧ i = .phi (.user name (some (v.next name))) [.user name (some a), .user name (some b)] := by
  obtain ⟨name, -, hphi⟩ := List.mem_filterMap.mp h
  obtain ⟨a, b, ha, hb, -, hi⟩ := joinPhi_eq_some thenArm elseArm hphi
  exact ⟨name, a, b, ha, hb, hi⟩

/-- What renaming puts behind a branch are phis. -/
theorem phi_of_mem_join {thenArm elseArm : VersionTable} {v : Versions} :
    ∀ i ∈ (joinNames thenArm elseArm).filterMap (joinPhi thenArm elseArm v),
      ∃ dest sources, i = Inst.phi dest sources := by
  intro i hi
  obtain ⟨name, a, b, -, -, rfl⟩ := joinPhi_of_mem hi
  exact ⟨_, _, rfl⟩

end Versions

-- ============================================================ renamed code

section Renamed

open Versions

mutual

/-- Renamed instructions have versioned variables only, whatever they had
before. -/
theorem Inst.overAll_versioned (v : Versions) :
    ∀ i : Inst, OverAll Var.Versioned (i.versioned v)
  | .assign dest rhs => ⟨⟨versioned_write _ dest, versioned_readRhs v rhs⟩, trivial⟩
  | .phi dest sources => ⟨⟨versioned_write _ dest, versioned_readAll v sources⟩, trivial⟩
  | .branch cond thenArm elseArm => by
    rw [Inst.versioned_branch]
    refine ⟨⟨versioned_readOperand v cond, overAll_versionedAll _ thenArm,
      overAll_versionedAll _ elseArm⟩, ?_⟩
    refine overAll_of_forall fun i hi => ?_
    obtain ⟨name, a, b, -, -, rfl⟩ := joinPhi_of_mem hi
    refine ⟨rfl, fun x hx => ?_⟩
    rcases List.mem_pair.mp hx with rfl | rfl
    · rfl
    · rfl

/-- Renamed code carries a version everywhere. -/
theorem overAll_versionedAll (v : Versions) :
    ∀ code : List Inst, OverAll Var.Versioned (versionedAll v code)
  | [] => trivial
  | i :: rest => by
    rw [versionedAll_cons]
    exact overAll_append.mpr ⟨i.overAll_versioned v, overAll_versionedAll _ rest⟩

end

/-- Joins define no temporaries. -/
theorem topTemps_joins (thenArm elseArm : VersionTable) (v : Versions) :
    topTemps ((joinNames thenArm elseArm).filterMap (joinPhi thenArm elseArm v)) = [] := by
  refine List.filterMap_eq_nil_iff.mpr fun i hi => ?_
  obtain ⟨name, a, b, -, -, rfl⟩ := joinPhi_of_mem hi
  rfl

/-- Renaming leaves temporaries alone. -/
theorem Inst.topTemps_versioned (v : Versions) (i : Inst) :
    topTemps (i.versioned v) = i.definedTemp?.toList := by
  cases i with
  | assign dest rhs =>
      rw [Inst.versioned_assign]
      cases dest with
      | temp number => rfl
      | user name version => cases version <;> rfl
  | phi dest sources =>
      rw [Inst.versioned_phi]
      cases dest with
      | temp number => rfl
      | user name version => cases version <;> rfl
  | branch cond thenArm elseArm =>
      rw [Inst.versioned_branch]
      dsimp only
      rw [topTemps_cons, topTemps_joins]
      rfl

/-- Renaming defines the same temporaries at the same level. -/
theorem topTemps_versionedAll (v : Versions) (code : List Inst) :
    topTemps (versionedAll v code) = topTemps code := by
  induction code generalizing v with
  | nil => rfl
  | cons i rest ih =>
      rw [versionedAll_cons, topTemps_append, ih, Inst.topTemps_versioned, ← topTemps_cons]

mutual

/-- Renaming leaves scopes as they are, instruction by instruction. -/
theorem Inst.scopedAll_versioned (v : Versions) {temps : List Nat} :
    ∀ {i : Inst}, i.Scoped temps → ScopedAll temps (i.versioned v)
  | .assign dest rhs, hrhs => by
    have hreads := (over_readRhs (I := fun _ => True) (fun _ hx => ⟨among_read _ hx, trivial⟩)
      (v := v) trivial hrhs).1
    exact ⟨hreads, trivial⟩
  | .phi .., _ => ⟨trivial, trivial⟩
  | .branch cond thenArm elseArm, ⟨hcond, hthen, helse⟩ => by
    have hreads := (over_readOperand (I := fun _ => True)
      (fun _ hx => ⟨among_read _ hx, trivial⟩) (v := v) trivial hcond).1
    rw [Inst.versioned_branch]
    exact ⟨⟨hreads, scopedAll_versionedAll _ hthen, scopedAll_versionedAll _ helse⟩,
      scopedAll_phis phi_of_mem_join⟩

/-- So it does for code. -/
theorem scopedAll_versionedAll (v : Versions) {temps : List Nat} :
    ∀ {code : List Inst}, ScopedAll temps code → ScopedAll temps (versionedAll v code)
  | [], _ => trivial
  | i :: rest, ⟨hi, hrest⟩ => by
    rw [versionedAll_cons]
    refine scopedAll_append.mpr ⟨Inst.scopedAll_versioned v hi, ?_⟩
    rw [Inst.topTemps_versioned]
    exact scopedAll_versionedAll _ hrest

end

/-- The branch that phis of renamed code belong to has the arms that the
code had, as far as temporaries go. -/
def Fits (temps : Option (List Nat × List Nat)) (behind : Option Joint) : Prop :=
  ∀ thenTemps elseTemps, temps = some (thenTemps, elseTemps) →
    ∃ joint, behind = some joint ∧ topTemps joint.thenArm = thenTemps
      ∧ topTemps joint.elseArm = elseTemps

/-- Code that expects no arms fits behind anything. -/
theorem fits_none (behind : Option Joint) : Fits none behind := by
  intro thenTemps elseTemps h
  cases h

/-- What reading leaves of the tables, as far as it is seen. -/
theorem over_sees {v w : Versions} {x : Var} (hw : w.seen = v.seen) (hx : x.plain = true) :
    (w.read x).1.Sees v.seen ∧ (w.read x).2.seen = v.seen :=
  ⟨hw ▸ sees_read w hx, (seen_read w x).trans hw⟩

section Join

variable {v : Versions} {cond : Operand} {thenArm elseArm : List Inst}

/-- A branch under new names, with what is seen in front of it. -/
def Versions.joint (v : Versions) (thenArm elseArm : List Inst) : Joint where
  seen := v.seen
  thenArm := versionedAll v thenArm
  elseArm := versionedAll (v.elseStart thenArm) elseArm

/-- A join takes from each arm the version seen at its end. -/
theorem resolved_join (hv : v.Bounded) (hthen : OverAll (·.plain = true) thenArm)
    (helse : OverAll (·.plain = true) elseArm) {w : Versions} {i : Inst}
    (h : i ∈ (joinNames (afterAll v thenArm).current
        (afterAll (v.elseStart thenArm) elseArm).current).filterMap
      (joinPhi (afterAll v thenArm).current (afterAll (v.elseStart thenArm) elseArm).current w))
    (seen : String → Nat) : i.Resolved seen (some (v.joint thenArm elseArm)) := by
  obtain ⟨name, a, b, ha, hb, rfl⟩ := joinPhi_of_mem h
  have hstart := (reaches_afterAll hv thenArm).elseStart hv
  have hthenSeen := congrFun (seen_afterAll hv hthen) name
  have helseSeen := congrFun (seen_afterAll hstart helse) name
  have haSeen : (afterAll v thenArm).seen name = a := by
    show ((afterAll v thenArm).current[name]?).getD 0 = a
    rw [ha]
    rfl
  have hbSeen : (afterAll (v.elseStart thenArm) elseArm).seen name = b := by
    show ((afterAll (v.elseStart thenArm) elseArm).current[name]?).getD 0 = b
    rw [hb]
    rfl
  refine ⟨_, _, _, rfl, rfl, ⟨⟨_, rfl⟩, ?_⟩, ⟨⟨_, rfl⟩, ?_⟩⟩
  · rw [← haSeen, hthenSeen]
    rfl
  · rw [← hbSeen, helseSeen]
    rfl

end Join

/-- Phis behind an instruction belong to the branch that they belonged to
before. -/
theorem Inst.fits_versioned (v : Versions) (i : Inst) {temps : Option (List Nat × List Nat)}
    {behind : Option Joint} (h : Fits temps behind) :
    Fits (i.armTemps temps) (jointBehind v.seen behind (i.versioned v)) := by
  cases i with
  | assign dest rhs => exact fits_none _
  | phi dest sources => exact h
  | branch cond thenArm elseArm =>
      rw [Inst.versioned_branch]
      dsimp only
      rw [jointBehind, jointBehind_phis phi_of_mem_join]
      intro thenTemps elseTemps htemps
      cases htemps
      exact ⟨_, rfl, topTemps_versionedAll _ _, topTemps_versionedAll _ _⟩

mutual

/-- A renamed instruction reads the versions that are current in front of
it. -/
theorem Inst.resolvedAll_versioned {v : Versions} (hv : v.Bounded)
    {temps : Option (List Nat × List Nat)} {behind : Option Joint} (hfits : Fits temps behind) :
    ∀ {i : Inst}, i.Over (·.plain = true) → i.Paired temps →
      ResolvedAll v.seen behind (i.versioned v)
  | .assign dest rhs, ⟨_, hrhs⟩, _ => by
    have hreads := (over_readRhs (I := fun w => w.seen = v.seen) over_sees rfl hrhs).1
    exact ⟨hreads, trivial⟩
  | .phi dest sources, _, ⟨thenTemps, elseTemps, a, b, htemps, hsources, ha, hb⟩ => by
    obtain ⟨joint, rfl, rfl, rfl⟩ := hfits thenTemps elseTemps htemps
    subst hsources
    exact ⟨⟨joint, .temp a, .temp b, rfl, rfl, ha, hb⟩, trivial⟩
  | .branch cond thenArm elseArm, ⟨hcond, hthen, helse⟩, ⟨hpaired, hpaired'⟩ => by
    have hreads := (over_readOperand (I := fun w => w.seen = v.seen) over_sees rfl hcond).1
    have hbounded := (reaches_readOperand v cond).bounded hv
    have hstart := (reaches_afterAll hbounded thenArm).elseStart hbounded
    have hseen := seen_readOperand v cond
    have hthenArm := resolvedAll_versionedAll hbounded (fits_none none) hthen hpaired
    have helseArm := resolvedAll_versionedAll hstart (fits_none none) helse hpaired'
    have hstartSeen : ((v.readOperand cond).2.elseStart thenArm).seen = v.seen := hseen
    rw [hseen] at hthenArm
    rw [hstartSeen] at helseArm
    rw [Inst.versioned_branch]
    refine ⟨⟨hreads, hthenArm, helseArm⟩, ?_⟩
    have hjoint : Inst.joint v.seen behind (.branch (v.readOperand cond).1
        (versionedAll (v.readOperand cond).2 thenArm)
        (versionedAll ((v.readOperand cond).2.elseStart thenArm) elseArm))
          = some ((v.readOperand cond).2.joint thenArm elseArm) := by
      rw [Inst.joint, Versions.joint, hseen]
    rw [hjoint]
    exact resolvedAll_phis phi_of_mem_join fun i hi => resolved_join hbounded hthen helse hi _

/-- Reads of renamed code are at the versions seen, and its phis take from
the arms of their branch. -/
theorem resolvedAll_versionedAll {v : Versions} (hv : v.Bounded)
    {temps : Option (List Nat × List Nat)} {behind : Option Joint} (hfits : Fits temps behind) :
    ∀ {code : List Inst}, OverAll (·.plain = true) code → PairedAll temps code →
      ResolvedAll v.seen behind (versionedAll v code)
  | [], _, _ => trivial
  | i :: rest, ⟨hi, hrest⟩, ⟨hpaired, hpaired'⟩ => by
    rw [versionedAll_cons]
    refine resolvedAll_append.mpr ⟨Inst.resolvedAll_versioned hv hfits hi hpaired, ?_⟩
    rw [← Inst.seen_after hv hi]
    exact resolvedAll_versionedAll ((i.reaches_after hv).bounded hv) (i.fits_versioned v hfits)
      hrest hpaired'

end

end Renamed

-- ============================================================ lines in order

section Lines

variable {front lines lines' : List Inst} {seen : String → Nat} {behind : Option Joint}

/-- Each line reads what the lines in front of it define. -/
def InOrder (front : List Inst) : List Inst → Prop
  | [] => True
  | i :: rest => i.Reads (Var.DefinedBy front) ∧ InOrder (front ++ [i]) rest

/-- Lines in order, one stretch behind the other. -/
theorem inOrder_append {a b : List Inst} :
    InOrder front (a ++ b) ↔ InOrder front a ∧ InOrder (front ++ a) b := by
  induction a generalizing front with
  | nil => rw [List.nil_append, List.append_nil]; exact (and_iff_right trivial).symm
  | cons i a ih =>
      rw [List.cons_append, InOrder, InOrder, ih, and_assoc, List.append_assoc,
        List.singleton_append]

/-- More lines define no less. -/
theorem Known.mono {name : String} {version : Nat} (hsub : lines ⊆ lines')
    (h : Known lines name version) : Known lines' name version :=
  h.imp_right fun ⟨i, hi, hversion⟩ => ⟨i, hsub hi, hversion⟩

/-- What is seen is known. -/
def KnownAll (lines : List Inst) (seen : String → Nat) : Prop :=
  ∀ name, Known lines name (seen name)

theorem KnownAll.mono (hsub : lines ⊆ lines') (h : KnownAll lines seen) : KnownAll lines' seen :=
  fun name => (h name).mono hsub

/-- What is seen behind code is known by its lines, if what is seen in front
of it is known. -/
theorem KnownAll.seenBehind (h : KnownAll front seen) (code : List Inst) :
    KnownAll (front ++ walk code) (SSA.seenBehind seen code) := by
  intro name
  unfold SSA.seenBehind
  cases hlast : (definedVersions name code).getLast? with
  | none => exact (h name).mono (List.subset_append_left _ _)
  | some version =>
      obtain ⟨i, hi, hversion⟩ := List.mem_filterMap.mp (List.mem_of_getLast? hlast)
      exact .inr ⟨i, List.mem_append_right _ hi, hversion⟩

/-- What is seen at the ends of the arms is known. -/
structure Joint.KnownBy (lines : List Inst) (joint : Joint) : Prop where
  thenArm : KnownAll lines (seenBehind joint.seen joint.thenArm)
  elseArm : KnownAll lines (seenBehind joint.seen joint.elseArm)

/-- What the arms of a branch leave stays known behind more lines. -/
theorem Joint.KnownBy.mono {joint : Joint} (hsub : lines ⊆ lines') (h : joint.KnownBy lines) :
    joint.KnownBy lines' :=
  ⟨h.thenArm.mono hsub, h.elseArm.mono hsub⟩

/-- What is seen was defined in front. -/
theorem Var.Sees.definedBy (h : KnownAll lines seen) :
    ∀ {x : Var}, x.Sees seen → x.DefinedBy lines
  | .temp _, _ => trivial
  | .user name _, hx => ⟨seen name, hx, h name⟩

/-- What a phi takes from an arm was defined in front of the end of that
arm. -/
theorem Feeds.definedBy {arm : List Inst} {dest : Var} (h : KnownAll lines (seenBehind seen arm)) :
    ∀ {x : Var}, Feeds seen arm dest x → x.DefinedBy lines
  | .temp _, _ => trivial
  | .user name _, hx => ⟨_, hx.2, h name⟩

/-- The branch that a phi behind an instruction belongs to. -/
theorem Inst.knownBy_joint (hseen : KnownAll front seen)
    (hbehind : ∀ joint, behind = some joint → joint.KnownBy front) (i : Inst) {joint : Joint}
    (h : i.joint seen behind = some joint) : joint.KnownBy (front ++ walk [i]) := by
  cases i with
  | assign dest rhs => cases h
  | phi dest sources => exact (hbehind joint h).mono (List.subset_append_left _ _)
  | branch cond thenArm elseArm =>
      cases h
      rw [walk_branch, walk_nil, List.append_nil]
      constructor
      · refine (hseen.seenBehind thenArm).mono ?_
        intro i hi
        rcases List.mem_append.mp hi with hi | hi
        · exact List.mem_append_left _ hi
        · exact List.mem_append_right _ (List.mem_cons_of_mem _ (List.mem_append_left _ hi))
      · refine (hseen.seenBehind elseArm).mono ?_
        intro i hi
        rcases List.mem_append.mp hi with hi | hi
        · exact List.mem_append_left _ hi
        · exact List.mem_append_right _ (List.mem_cons_of_mem _ (List.mem_append_right _ hi))

mutual

/-- Reads that see what stands in front of them stand behind its definition,
line by line. -/
theorem Inst.inOrder_of_resolved {front : List Inst} {seen : String → Nat}
    {behind : Option Joint} (hseen : KnownAll front seen)
    (hbehind : ∀ joint, behind = some joint → joint.KnownBy front) :
    ∀ {i : Inst}, i.Resolved seen behind → InOrder front (walk [i])
  | .assign dest rhs, hrhs => by
    rw [walk_assign]
    exact ⟨Rhs.Over.mono (fun hx => Var.Sees.definedBy hseen hx) hrhs, trivial⟩
  | .phi dest sources, ⟨joint, a, b, hjoint, hsources, ha, hb⟩ => by
    subst hsources
    rw [walk_phi]
    refine ⟨fun x hx => ?_, trivial⟩
    have hknown := hbehind joint hjoint
    rcases List.mem_pair.mp hx with rfl | rfl
    · exact ha.definedBy hknown.thenArm
    · exact hb.definedBy hknown.elseArm
  | .branch cond thenArm elseArm, ⟨hcond, hthen, helse⟩ => by
    rw [walk_branch, walk_nil, List.append_nil]
    refine ⟨Operand.Over.mono (fun hx => Var.Sees.definedBy hseen hx) hcond,
      inOrder_append.mpr ⟨?_, ?_⟩⟩
    · exact inOrder_of_resolvedAll (hseen.mono (List.subset_append_left _ _))
        (fun _ hjoint => by cases hjoint) hthen
    · refine inOrder_of_resolvedAll (hseen.mono ?_) (fun _ hjoint => by cases hjoint) helse
      rw [List.append_assoc]
      exact List.subset_append_left _ _

/-- Where reads are at the versions seen, lines read what is defined in
front of them. -/
theorem inOrder_of_resolvedAll {front : List Inst} {seen : String → Nat}
    {behind : Option Joint} (hseen : KnownAll front seen)
    (hbehind : ∀ joint, behind = some joint → joint.KnownBy front) :
    ∀ {code : List Inst}, ResolvedAll seen behind code → InOrder front (walk code)
  | [], _ => trivial
  | i :: rest, ⟨hi, hrest⟩ => by
    rw [show walk (i :: rest) = walk [i] ++ walk rest from walk_append [i] rest]
    refine inOrder_append.mpr ⟨Inst.inOrder_of_resolved hseen hbehind hi, ?_⟩
    exact inOrder_of_resolvedAll (hseen.seenBehind [i])
      (fun joint hjoint => i.knownBy_joint hseen hbehind hjoint) hrest

end

end Lines

-- ================================================================ the whole

/-- On entry every name is seen at version 0. -/
theorem Versions.seen_ofLiveIn (liveIn : List String) : (ofLiveIn liveIn).seen = fun _ => 0 := by
  funext name
  show ((ofLiveIn liveIn).entry name).current.getD 0 = 0
  rw [entry_ofLiveIn]
  by_cases h : name ∈ liveIn
  · rw [if_pos h]
    rfl
  · rw [if_neg h]
    rfl

/-- Renaming makes well-formed code of code whose temporaries are in
scope. -/
theorem wellFormed_rename {code : List Inst} (hplain : OverAll (·.plain = true) code)
    (hscoped : ScopedAll [] code) (hpaired : PairedAll none code) (liveIn : List String) :
    WellFormed (rename code liveIn) := by
  have hbounded : (Versions.ofLiveIn liveIn).Bounded :=
    fun name => (Versions.entry_start liveIn name).1
  have hresolved := resolvedAll_versionedAll hbounded (fits_none none) hplain hpaired
  rw [Versions.seen_ofLiveIn] at hresolved
  exact {
    versioned := overAll_versionedAll _ code
    numbered := fun name => by
      have hnumbered := definedVersions_versionedAll hbounded name hplain
      rw [(Versions.entry_start liveIn name).2.2] at hnumbered
      exact ⟨_, hnumbered⟩
    inScope := scopedAll_versionedAll _ hscoped
    resolved := hresolved
    defined := fun front i behind hwalk => by
      have hentry : KnownAll [] fun _ => 0 := fun _ => .inl rfl
      have horder := inOrder_of_resolvedAll hentry (fun _ hjoint => by cases hjoint) hresolved
      change walk (versionedAll (Versions.ofLiveIn liveIn) code) = _ at hwalk
      rw [hwalk] at horder
      exact (inOrder_append.mp horder).2.1 }

/-- Code that is built is well formed. -/
theorem wellFormed_build {b b' : Builder} {p : Program} {f : Function} {code : List Inst}
    (h : b.build p f = (.ok code, b')) : WellFormed code := by
  obtain ⟨liveIn, e, -, hlower, rfl⟩ := build_eq_ok h
  have hlowered := lowered_of_lowerBody hlower
  rw [renumber_eq_relabel]
  refine wellFormed_rename ?_ (hlowered.scoped []).relabel hlowered.paired.relabel liveIn
  refine overAll_relabel ?_ hlowered.within.1
  intro x hx
  rw [Var.plain_relabel]
  exact hx.plain

theorem wellFormed_build_double :
    Builder.build {} doubling double = (.ok doubled, ⟨4⟩) ∧ WellFormed doubled :=
  ⟨build_double, wellFormed_build build_double⟩

end ExprGraph.SSA
