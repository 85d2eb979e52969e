/-
Renaming code that was renamed before.

Behind the renaming every source variable carries a version, whatever the
code looked like (`overAll_versionedAll`). Code of that kind neither reads
the tables nor changes what they say of a name. So both arms of a branch
end with what was current in front of it, whatever that is, and their join
finds nothing to merge.
-/
import ExprGraph.Proofs.SSA.WellFormed

namespace ExprGraph.SSA

-- ======================================================== versioned variables

namespace Versions

/-- A versioned variable is read as it is, and the tables stay. -/
theorem read_of_versioned (v : Versions) : ∀ {x : Var}, x.Versioned → v.read x = (x, v)
  | .temp _, _ => rfl
  | .user _ (some _), _ => rfl

/-- A versioned variable is written as it is, and the tables stay. -/
theorem write_of_versioned (v : Versions) : ∀ {x : Var}, x.Versioned → v.write x = (x, v)
  | .temp _, _ => rfl
  | .user _ (some _), _ => rfl

theorem readOperand_of_versioned (v : Versions) :
    ∀ {o : Operand}, o.Over Var.Versioned → v.readOperand o = (o, v)
  | .const _, _ => rfl
  | .var x, h => by
    have hx : x.Versioned := h
    simp only [readOperand, v.read_of_versioned hx]

/-- A right-hand side over versioned variables stays, and so do the
tables. -/
theorem readRhs_of_versioned (v : Versions) :
    ∀ {rhs : Rhs}, rhs.Over Var.Versioned → v.readRhs rhs = (rhs, v)
  | .copy o, h => by
    have ho : o.Over Var.Versioned := h
    simp only [readRhs, v.readOperand_of_versioned ho]
  | .unary op o, h => by
    have ho : o.Over Var.Versioned := h
    simp only [readRhs, v.readOperand_of_versioned ho]
  | .binary op left right, h => by
    simp only [readRhs, v.readOperand_of_versioned h.1, v.readOperand_of_versioned h.2]

/-- Versioned sources stay, and so do the tables. -/
theorem readAll_of_versioned (v : Versions) {sources : List Var}
    (h : ∀ x ∈ sources, x.Versioned) : v.readAll sources = (sources, v) := by
  induction sources with
  | nil => rfl
  | cons x sources ih =>
      obtain ⟨hx, hsources⟩ := List.forall_mem_cons.mp h
      simp only [readAll, v.read_of_versioned hx, ih hsources]

end Versions

-- ================================================================== joins

/-- Arms that end alike need no phi. -/
theorem Versions.joinPhi_eq_none {thenArm elseArm : VersionTable} {name : String}
    (h : thenArm[name]? = elseArm[name]?) (v : Versions) :
    joinPhi thenArm elseArm v name = none := by
  unfold joinPhi
  rw [h]
  cases elseArm[name]? with
  | none => rfl
  | some version => exact if_pos rfl

-- ============================================================ versioned code

/-- The tables say the same of every name. -/
def Versions.Alike (v v' : Versions) : Prop :=
  ∀ name, v'.entry name = v.entry name

namespace Versions.Alike

variable {v v' v'' : Versions} {thenArm elseArm : List Inst}

/-- Tables that are alike one after the other are alike. -/
theorem trans (h : v.Alike v') (h' : v'.Alike v'') : v.Alike v'' :=
  fun name => (h' name).trans (h name)

theorem current_eq (h : v.Alike v') (name : String) :
    v'.current[name]? = v.current[name]? :=
  congrArg Entry.current (h name)

/-- The second arm starts like the first one, if that changed nothing. -/
theorem elseStart (h : v.Alike (afterAll v thenArm)) : v.Alike (v.elseStart thenArm) :=
  fun name => congrArg (Entry.mk · v.current[name]?) (congrArg Entry.latest (h name))

/-- If the second arm leaves all names alone, the join starts from what was
current in front of the branch. -/
theorem joinStart (h : v.Alike (afterAll (v.elseStart thenArm) elseArm)) :
    v.Alike (v.joinStart thenArm elseArm) :=
  fun name => congrArg (Entry.mk · v.current[name]?) (congrArg Entry.latest (h name))

end Versions.Alike

mutual

/-- Versioned instructions leave the tables alone. -/
theorem Inst.alike_after (v : Versions) :
    ∀ {i : Inst}, i.Over Var.Versioned → v.Alike (i.after v)
  | .assign dest rhs, ⟨hdest, hrhs⟩ => by
    rw [Inst.after_assign, v.readRhs_of_versioned hrhs, v.write_of_versioned hdest]
    exact fun _ => rfl
  | .phi dest sources, ⟨hdest, hsources⟩ => by
    rw [Inst.after_phi, v.readAll_of_versioned hsources, v.write_of_versioned hdest]
    exact fun _ => rfl
  | .branch cond thenArm elseArm, ⟨hcond, hthen, helse⟩ => by
    have ht := alike_afterAll v hthen
    have he := ht.elseStart.trans (alike_afterAll (v.elseStart thenArm) helse)
    intro name
    rw [Inst.entry_after_branch, v.readOperand_of_versioned hcond]
    simp only [he.joinStart name, ht name, he name]
    exact (v.entry name).joined_self

/-- Versioned code leaves every name at the version that it found. -/
theorem alike_afterAll (v : Versions) :
    ∀ {code : List Inst}, OverAll Var.Versioned code → v.Alike (afterAll v code)
  | [], _ => fun _ => rfl
  | i :: rest, ⟨hi, hrest⟩ => by
    intro name
    rw [afterAll_cons, alike_afterAll _ hrest, i.alike_after v hi]

end

mutual

/-- Versioned instructions are versioned already. -/
theorem Inst.versioned_eq_self (v : Versions) :
    ∀ {i : Inst}, i.Over Var.Versioned → i.versioned v = [i]
  | .assign dest rhs, ⟨hdest, hrhs⟩ => by
    rw [Inst.versioned_assign, v.readRhs_of_versioned hrhs, v.write_of_versioned hdest]
  | .phi dest sources, ⟨hdest, hsources⟩ => by
    rw [Inst.versioned_phi, v.readAll_of_versioned hsources, v.write_of_versioned hdest]
  | .branch cond thenArm elseArm, ⟨hcond, hthen, helse⟩ => by
    have ht := alike_afterAll v hthen
    have he := ht.elseStart.trans (alike_afterAll (v.elseStart thenArm) helse)
    have hsame : ∀ name, (afterAll v thenArm).current[name]?
        = (afterAll (v.elseStart thenArm) elseArm).current[name]? :=
      fun name => (ht.current_eq name).trans (he.current_eq name).symm
    rw [Inst.versioned_branch, v.readOperand_of_versioned hcond]
    simp only [versionedAll_eq_self _ hthen, versionedAll_eq_self _ helse]
    rw [List.filterMap_eq_nil_iff.mpr fun name _ => Versions.joinPhi_eq_none (hsame name) _]

/-- Versioned code is renamed to itself. -/
theorem versionedAll_eq_self (v : Versions) :
    ∀ {code : List Inst}, OverAll Var.Versioned code → versionedAll v code = code
  | [], _ => rfl
  | i :: rest, ⟨hi, hrest⟩ => by
    rw [versionedAll_cons, i.versioned_eq_self v hi, versionedAll_eq_self _ hrest]
    rfl

end

/-- Renaming a second time changes nothing: no version, and no phi is put
in, whatever is live on entry. -/
theorem rename_rename (code : List Inst) (liveIn liveIn' : List String) :
    rename (rename code liveIn) liveIn' = rename code liveIn :=
  versionedAll_eq_self (Versions.ofLiveIn liveIn')
    (overAll_versionedAll (Versions.ofLiveIn liveIn) code)

end ExprGraph.SSA
