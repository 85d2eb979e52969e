/-
Where temporaries are read.

A temporary may be read behind its definition in the same list, and in the
arms behind it (`ScopedAll`); the arms keep what they define to themselves.
Only phis read what an arm defined: each stands behind a branch, with
other phis between them at most, and takes from each arm a temporary of its
top level (`PairedAll`).

Lowered code is such (`Lowered.scoped`, `Lowered.paired`), because the
value of a node is left at the top level of its code. A copy that is pinned
goes behind the code that it copies from, and an arm is sealed at its end.
Numbering the temporaries anew changes nothing of it.
-/
import ExprGraph.Proofs.SSA.Relabelling

namespace ExprGraph.SSA

-- ================================================================= top level

/-- The temporaries that the top level of some code defines. -/
def topTemps (code : List Inst) : List Nat :=
  code.filterMap Inst.definedTemp?

theorem topTemps_cons (i : Inst) (rest : List Inst) :
    topTemps (i :: rest) = i.definedTemp?.toList ++ topTemps rest :=
  filterMap_cons_toList _ i rest

/-- The top level of code in two parts is that of the one and of the
other. -/
theorem topTemps_append (a b : List Inst) : topTemps (a ++ b) = topTemps a ++ topTemps b :=
  List.filterMap_append

/-- A temporary assigned last is of the top level. -/
theorem mem_topTemps_snoc (code : List Inst) (temp : Nat) (rhs : Rhs) :
    temp ∈ topTemps (code ++ [.assign (.temp temp) rhs]) := by
  rw [topTemps_append]
  exact List.mem_append_right _ List.mem_cons_self

/-- A temporary is one of these. -/
def Var.Among (temps : List Nat) : Var → Prop
  | .temp number => number ∈ temps
  | .user .. => True

/-- A temporary stays one of more. -/
theorem Var.Among.mono {temps temps' : List Nat} (h : temps ⊆ temps') :
    ∀ {x : Var}, x.Among temps → x.Among temps'
  | .temp _, hx => h hx
  | .user .., _ => trivial

-- ===================================================================== scope

mutual

/-- Operands and conditions read these temporaries only, or what is defined
in front of them. -/
def Inst.Scoped (temps : List Nat) : Inst → Prop
  | .assign _ rhs => rhs.Over (Var.Among temps)
  | .branch cond thenArm elseArm =>
    cond.Over (Var.Among temps) ∧ ScopedAll temps thenArm ∧ ScopedAll temps elseArm
  | .phi .. => True

/-- Some code reads these temporaries only, or what its top level defines
further in front. -/
def ScopedAll (temps : List Nat) : List Inst → Prop
  | [] => True
  | i :: rest => i.Scoped temps ∧ ScopedAll (temps ++ i.definedTemp?.toList) rest

end

/-- The top levels of the arms a phi behind the instruction takes from. -/
def Inst.armTemps (behind : Option (List Nat × List Nat)) : Inst → Option (List Nat × List Nat)
  | .assign .. => none
  | .branch _ thenArm elseArm => some (topTemps thenArm, topTemps elseArm)
  | .phi .. => behind

mutual

/-- A phi takes a temporary from the top level of each arm of the branch it
stands behind. -/
def Inst.Paired (behind : Option (List Nat × List Nat)) : Inst → Prop
  | .assign .. => True
  | .branch _ thenArm elseArm => PairedAll none thenArm ∧ PairedAll none elseArm
  | .phi _ sources => ∃ thenTemps elseTemps a b, behind = some (thenTemps, elseTemps)
    ∧ sources = [.temp a, .temp b] ∧ a ∈ thenTemps ∧ b ∈ elseTemps

/-- Every phi of some code takes from the arms of the branch that it stands
behind, or, at the front of the code, from these. -/
def PairedAll (behind : Option (List Nat × List Nat)) : List Inst → Prop
  | [] => True
  | i :: rest => i.Paired behind ∧ PairedAll (i.armTemps behind) rest

end

/-- The second part of some code may also read what the first defines at its
top level. -/
theorem scopedAll_append {temps : List Nat} {a b : List Inst} :
    ScopedAll temps (a ++ b) ↔ ScopedAll temps a ∧ ScopedAll (temps ++ topTemps a) b := by
  induction a generalizing temps with
  | nil => simp [ScopedAll, topTemps]
  | cons i a ih =>
      rw [List.cons_append, ScopedAll, ScopedAll, ih, topTemps_cons, and_assoc, List.append_assoc]

/-- Code without a phi at its front may stand anywhere. -/
theorem PairedAll.anywhere {code : List Inst} (h : PairedAll none code)
    (behind : Option (List Nat × List Nat)) : PairedAll behind code := by
  cases code with
  | nil => trivial
  | cons i rest =>
      cases i with
      | assign dest rhs => exact h
      | branch cond thenArm elseArm => exact h
      | phi dest sources =>
          obtain ⟨⟨_, _, _, _, hnone, -⟩, -⟩ := h
          cases hnone

/-- Code that expects no arms can go behind any code. -/
theorem PairedAll.append {behind : Option (List Nat × List Nat)} {a b : List Inst}
    (ha : PairedAll behind a) (hb : PairedAll none b) : PairedAll behind (a ++ b) := by
  induction a generalizing behind with
  | nil => exact hb.anywhere behind
  | cons i a ih => exact ⟨ha.1, ih ha.2⟩

-- ============================================================== lowered code

section Lowered

variable {p : Program} {id : ExprId} {lo hi next next' temp : Nat} {code code' : List Inst}
  {o : Operand} {value : Option Operand}

/-- A sealed arm leaves its value at its own top level, where a phi may take
it from. -/
theorem Sealed.mem_topTemps (h : Sealed code next o temp code' next')
    (ho : o.Over (Var.Among (topTemps code))) : temp ∈ topTemps code' := by
  cases h with
  | kept => exact ho
  | copied => exact mem_topTemps_snoc _ _ _

/-- Sealing reads the arm's value, which is of its top level. -/
theorem Sealed.scoped (h : Sealed code next o temp code' next')
    (hcode : ∀ temps, ScopedAll temps code) (ho : o.Over (Var.Among (topTemps code)))
    (temps : List Nat) : ScopedAll temps code' := by
  cases h with
  | kept => exact hcode temps
  | copied =>
      refine scopedAll_append.mpr ⟨hcode temps, ?_, trivial⟩
      exact ho.mono (Var.Among.mono (List.subset_append_right _ _))

/-- Sealing adds no phi. -/
theorem Sealed.paired (h : Sealed code next o temp code' next') (hcode : PairedAll none code) :
    PairedAll none code' := by
  cases h with
  | kept => exact hcode
  | copied => exact hcode.append ⟨trivial, trivial⟩

/-- The value of a node is left at the top level of its code. -/
theorem Lowered.value_among (h : Lowered p id lo hi code value) :
    ∀ o, value = some o → o.Over (Var.Among (topTemps code)) := by
  induction h with
  | number => rintro o ⟨⟩; trivial
  | var => rintro o ⟨⟩; trivial
  | empty => nofun
  | unary => rintro o ⟨⟩; exact mem_topTemps_snoc _ _ _
  | binary =>
      rintro o ⟨⟩
      rw [← List.append_assoc]
      exact mem_topTemps_snoc _ _ _
  | pinned =>
      rintro o ⟨⟩
      rw [← List.cons_append, ← List.append_assoc]
      exact mem_topTemps_snoc _ _ _
  | assign => rintro o ⟨⟩; trivial
  | stepped => rintro o ⟨⟩; trivial
  | kept => rintro o ⟨⟩; exact List.mem_cons_self
  | choice _ _ _ _ _ hmeets =>
      rintro o ⟨⟩
      cases hmeets with
      | fresh =>
          rw [topTemps_append]
          exact List.mem_append_right _ List.mem_cons_self
      | into => trivial
  | branch => nofun
  | seq _ _ _ _ ih' =>
      intro o ho
      refine (ih' o ho).mono (Var.Among.mono ?_)
      rw [topTemps_append]
      exact List.subset_append_right _ _

/-- Wherever the code of a node stands, it reads its own temporaries
only. -/
theorem Lowered.scoped (h : Lowered p id lo hi code value) :
    ∀ temps, ScopedAll temps code := by
  induction h with
  | number | var | empty => intro temps; trivial
  | unary _ hoperand ih =>
      intro temps
      refine scopedAll_append.mpr ⟨ih temps, ?_, trivial⟩
      exact (hoperand.value_among _ rfl).mono (Var.Among.mono (List.subset_append_right _ _))
  | binary _ hright hleft _ ih ih' =>
      intro temps
      refine scopedAll_append.mpr ⟨ih temps, scopedAll_append.mpr ⟨ih' _, ⟨?_, ?_⟩, trivial⟩⟩
      · exact (hleft.value_among _ rfl).mono (Var.Among.mono (List.subset_append_right _ _))
      · refine (hright.value_among _ rfl).mono (Var.Among.mono ?_)
        exact List.subset_append_of_subset_left _ (List.subset_append_right _ _)
  | pinned _ hright hleft ih ih' =>
      intro temps
      refine scopedAll_append.mpr ⟨ih temps, ?_, scopedAll_append.mpr ⟨ih' _, ⟨?_, ?_⟩, trivial⟩⟩
      · exact (hright.value_among _ rfl).mono (Var.Among.mono (List.subset_append_right _ _))
      · exact (hleft.value_among _ rfl).mono (Var.Among.mono (List.subset_append_right _ _))
      · exact List.mem_append_left _ (List.mem_append_right _ List.mem_cons_self)
  | assign _ _ hvalue ih =>
      intro temps
      refine scopedAll_append.mpr ⟨ih temps, ?_, trivial⟩
      exact (hvalue.value_among _ rfl).mono (Var.Among.mono (List.subset_append_right _ _))
  | stepped => intro temps; exact ⟨⟨trivial, trivial⟩, trivial⟩
  | kept => intro temps; exact ⟨trivial, ⟨trivial, trivial⟩, trivial⟩
  | choice hcond hthen hsealed helse hsealed' _ ih ih₁ ih₂ =>
      intro temps
      refine scopedAll_append.mpr ⟨ih temps, ⟨?_, ?_, ?_⟩, trivial, trivial⟩
      · exact (hcond.value_among _ rfl).mono (Var.Among.mono (List.subset_append_right _ _))
      · exact hsealed.scoped ih₁ (hthen.value_among _ rfl) _
      · exact hsealed'.scoped ih₂ (helse.value_among _ rfl) _
  | branch _ hcond _ _ ih ih₁ ih₂ =>
      intro temps
      refine scopedAll_append.mpr ⟨ih temps, ⟨?_, ih₁ _, ih₂ _⟩, trivial⟩
      exact (hcond.value_among _ rfl).mono (Var.Among.mono (List.subset_append_right _ _))
  | seq _ _ _ ih ih' =>
      intro temps
      exact scopedAll_append.mpr ⟨ih temps, ih' _⟩

/-- A phi stands right behind the branch whose arms it takes from. -/
theorem Lowered.paired (h : Lowered p id lo hi code value) : PairedAll none code := by
  induction h with
  | number | var | empty => trivial
  | unary _ _ ih => exact ih.append ⟨trivial, trivial⟩
  | binary _ _ _ _ ih ih' => exact ih.append (ih'.append ⟨trivial, trivial⟩)
  | pinned _ _ _ ih ih' => exact ih.append ⟨trivial, ih'.append ⟨trivial, trivial⟩⟩
  | assign _ _ _ ih => exact ih.append ⟨trivial, trivial⟩
  | stepped => exact ⟨trivial, trivial⟩
  | kept => exact ⟨trivial, trivial, trivial⟩
  | choice _ hthen hsealed helse hsealed' _ ih ih₁ ih₂ =>
      refine ih.append ⟨⟨hsealed.paired ih₁, hsealed'.paired ih₂⟩, ?_, trivial⟩
      exact ⟨_, _, _, _, rfl, rfl, hsealed.mem_topTemps (hthen.value_among _ rfl),
        hsealed'.mem_topTemps (helse.value_among _ rfl)⟩
  | branch _ _ _ _ ih ih₁ ih₂ => exact ih.append ⟨⟨ih₁, ih₂⟩, trivial⟩
  | seq _ _ _ ih ih' => exact ih.append ih'

end Lowered

-- =============================================================== new numbers

section Relabel

variable {f : Nat → Nat} {P Q : Var → Prop}

/-- What is so of the variables is so of the renumbered ones, operand by
operand. -/
theorem Operand.over_relabel (h : ∀ {x : Var}, P x → Q (x.relabel f)) :
    ∀ {o : Operand}, o.Over P → (o.relabel f).Over Q
  | .const _, _ => trivial
  | .var _, ho => h ho

theorem Rhs.over_relabel (h : ∀ {x : Var}, P x → Q (x.relabel f)) :
    ∀ {rhs : Rhs}, rhs.Over P → (rhs.relabel f).Over Q
  | .copy _, ho => Operand.over_relabel h ho
  | .unary .., ho => Operand.over_relabel h ho
  | .binary .., ho => ⟨Operand.over_relabel h ho.1, Operand.over_relabel h ho.2⟩

mutual

theorem Inst.over_relabel (h : ∀ {x : Var}, P x → Q (x.relabel f)) :
    ∀ {i : Inst}, i.Over P → (i.relabel f).Over Q
  | .assign .., hi => ⟨h hi.1, Rhs.over_relabel h hi.2⟩
  | .branch .., hi =>
    ⟨Operand.over_relabel h hi.1, overAll_relabel h hi.2.1, overAll_relabel h hi.2.2⟩
  | .phi .., hi => by
    refine ⟨h hi.1, fun x hx => ?_⟩
    obtain ⟨y, hy, rfl⟩ := List.mem_map.mp hx
    exact h (hi.2 y hy)

/-- What is so of the variables of some code is so of the renumbered ones,
if renumbering takes the one property to the other. -/
theorem overAll_relabel (h : ∀ {x : Var}, P x → Q (x.relabel f)) :
    ∀ {code : List Inst}, OverAll P code → OverAll Q (relabel f code)
  | [], _ => trivial
  | i :: rest, hcode => by
    have hrest := overAll_relabel h hcode.2
    rw [relabel_eq_map] at hrest
    rw [relabel_eq_map, List.map_cons]
    exact ⟨Inst.over_relabel h hcode.1, hrest⟩

end

/-- A temporary that is one of these is, renumbered, one of these
renumbered. -/
theorem Var.Among.relabel {temps : List Nat} :
    ∀ {x : Var}, x.Among temps → (x.relabel f).Among (temps.map f)
  | .temp _, h => List.mem_map_of_mem h
  | .user .., _ => trivial

theorem definedTemp?_relabel (i : Inst) : (i.relabel f).definedTemp? = i.definedTemp?.map f := by
  cases i with
  | assign dest rhs => cases dest <;> rfl
  | branch cond thenArm elseArm => rfl
  | phi dest sources => cases dest <;> rfl

/-- The top level of renumbered code is the renumbered top level. -/
theorem topTemps_relabel (code : List Inst) :
    topTemps (relabel f code) = (topTemps code).map f := by
  unfold topTemps
  rw [relabel_eq_map, List.filterMap_map, List.map_filterMap]
  exact List.filterMap_congr fun i _ => definedTemp?_relabel i

mutual

/-- An instruction reads the renumbered temporaries after renumbering. -/
theorem Inst.Scoped.relabel {temps : List Nat} :
    ∀ {i : Inst}, i.Scoped temps → (i.relabel f).Scoped (temps.map f)
  | .assign .., h => Rhs.over_relabel Var.Among.relabel h
  | .branch .., h =>
    ⟨Operand.over_relabel Var.Among.relabel h.1, ScopedAll.relabel h.2.1, ScopedAll.relabel h.2.2⟩
  | .phi .., _ => trivial

/-- So does code. -/
theorem ScopedAll.relabel {temps : List Nat} :
    ∀ {code : List Inst}, ScopedAll temps code → ScopedAll (temps.map f) (SSA.relabel f code)
  | [], _ => trivial
  | i :: rest, h => by
    have hrest := ScopedAll.relabel h.2
    rw [List.map_append, ← Option.toList_map, ← definedTemp?_relabel, relabel_eq_map] at hrest
    rw [relabel_eq_map, List.map_cons]
    exact ⟨h.1.relabel, hrest⟩

end

/-- The arms of a branch under new numbers. -/
def relabelTemps (f : Nat → Nat) :
    Option (List Nat × List Nat) → Option (List Nat × List Nat) :=
  Option.map fun (thenTemps, elseTemps) => (thenTemps.map f, elseTemps.map f)

/-- A phi stands behind the arms of the same branch after renumbering. -/
theorem armTemps_relabel (behind : Option (List Nat × List Nat)) (i : Inst) :
    (i.relabel f).armTemps (relabelTemps f behind) = relabelTemps f (i.armTemps behind) := by
  cases i with
  | assign dest rhs => rfl
  | branch cond thenArm elseArm =>
      rw [Inst.relabel_branch, Inst.armTemps, Inst.armTemps, topTemps_relabel, topTemps_relabel]
      rfl
  | phi dest sources => rfl

mutual

theorem Inst.Paired.relabel {behind : Option (List Nat × List Nat)} :
    ∀ {i : Inst}, i.Paired behind → (i.relabel f).Paired (relabelTemps f behind)
  | .assign .., _ => trivial
  | .branch .., h => ⟨PairedAll.relabel h.1, PairedAll.relabel h.2⟩
  | .phi .., ⟨thenTemps, elseTemps, a, b, hbehind, hsources, ha, hb⟩ =>
    ⟨thenTemps.map f, elseTemps.map f, f a, f b, by rw [hbehind]; rfl, by rw [hsources]; rfl,
      List.mem_map_of_mem ha, List.mem_map_of_mem hb⟩

/-- Phis take from the same arms after renumbering. -/
theorem PairedAll.relabel {behind : Option (List Nat × List Nat)} :
    ∀ {code : List Inst}, PairedAll behind code →
      PairedAll (relabelTemps f behind) (SSA.relabel f code)
  | [], _ => trivial
  | i :: rest, h => by
    have hrest := PairedAll.relabel h.2
    rw [← armTemps_relabel, relabel_eq_map] at hrest
    rw [relabel_eq_map, List.map_cons]
    exact ⟨h.1.relabel, hrest⟩

end

end Relabel

end ExprGraph.SSA
