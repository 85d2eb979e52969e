/-
Relabelled code does what the code did.

A relabelling need only keep those temporaries apart that the code
mentions: others may fall together with them, or with each other. The two
executions then go side by side, with the cell of a variable in the one
where the cell of the variable is in the other (`execAll_relabel`).

The numbering in the order of definitions is such a relabelling, of the
temporaries that are defined (`tellsApart_numbering`).
-/
import ExprGraph.Proofs.SSA.Temporaries

namespace ExprGraph.SSA

-- =========================================================== the executions

/-- Two executions, with the temporaries of the first under the numbers `f`
gives them in the second. -/
structure Relabelled (f : Nat → Nat) (P : Var → Prop) (st st' : State) : Prop where
  env : ∀ {x}, P x → st'.env (x.relabel f) = st.env x
  arm : st'.arm = st.arm
  arms : st'.trace.arms = st.trace.arms
  definitions : st'.trace.definitions = st.trace.definitions

/-- Whether variables that are such keep apart under new numbers. -/
def TellsApart (f : Nat → Nat) (P : Var → Prop) : Prop :=
  ∀ x y : Var, P x → P y → x.relabel f = y.relabel f → x = y

section Relabel

variable {f : Nat → Nat} {P : Var → Prop} {st st' : State} {choose : List Bool → Float → Bool}

/-- A temporary stays one. -/
theorem isTemp_relabel : ∀ x : Var, (x.relabel f).isTemp = x.isTemp
  | .temp _ => rfl
  | .user .. => rfl

namespace Relabelled

/-- An operand has the value that it had. -/
theorem operand_value (h : Relabelled f P st st') {v : Float} :
    ∀ {o : Operand}, o.Over P → o.value st.env = .ok v → (o.relabel f).value st'.env = .ok v
  | .const _, _, hvalue => hvalue
  | .var _, hx, hvalue =>
    Operand.value_var_iff.mpr ((h.env hx).trans (Operand.value_var_iff.mp hvalue))

/-- So has a right-hand side. -/
theorem rhs_value (h : Relabelled f P st st') {v : Float} :
    ∀ {rhs : Rhs}, rhs.Over P → rhs.value st.env = .ok v → (rhs.relabel f).value st'.env = .ok v
  | .copy _, ho, hvalue => h.operand_value ho hvalue
  | .unary _ _, ho, hvalue => by
    obtain ⟨value, hoperand, hlast⟩ := bind_eq_ok.mp hvalue
    exact bind_eq_ok.mpr ⟨value, h.operand_value ho hoperand, hlast⟩
  | .binary _ _ _, ho, hvalue => by
    obtain ⟨l, hleft, hvalue⟩ := bind_eq_ok.mp hvalue
    obtain ⟨r, hright, hlast⟩ := bind_eq_ok.mp hvalue
    exact bind_eq_ok.mpr ⟨l, h.operand_value ho.1 hleft,
      bind_eq_ok.mpr ⟨r, h.operand_value ho.2 hright, hlast⟩⟩

/-- A phi takes the value that it took. -/
theorem incoming (h : Relabelled f P st st') {sources : List Var}
    (hsources : ∀ x ∈ sources, P x) :
    st'.incoming (sources.map (Var.relabel f)) = st.incoming sources := by
  unfold State.incoming
  rw [h.arm, List.getElem?_map]
  cases hget : sources[if st.arm then 0 else 1]? with
  | none => rfl
  | some x => exact h.env (hsources x (List.mem_of_getElem? hget))

/-- The variable defined is told apart from every other. -/
theorem set (hinj : TellsApart f P)
    (h : Relabelled f P st st') {dest : Var} (hdest : P dest) (value : Option Float) {x : Var}
    (hx : P x) : st'.env.set (dest.relabel f) value (x.relabel f) = st.env.set dest value x := by
  by_cases heq : x = dest
  · rw [heq, Env.set_self, Env.set_self]
  · rw [Env.set_of_ne _ _ heq, Env.set_of_ne _ _ fun hlabel => heq (hinj x dest hx hdest hlabel)]
    exact h.env hx

/-- Two executions stay in step over an assignment, if the new numbers tell
its destination apart. -/
theorem assigned (hinj : TellsApart f P)
    (h : Relabelled f P st st') {dest : Var} (hdest : P dest) (rhs : Rhs) (value : Float) :
    Relabelled f P (st.assigned dest rhs value)
      (st'.assigned (dest.relabel f) (rhs.relabel f) value) where
  env := h.set hinj hdest _
  arm := h.arm
  arms := by
    unfold State.assigned
    rw [Events.arms_append, Events.arms_append, h.arms]
    rfl
  definitions := by
    unfold State.assigned
    rw [Events.definitions_append, Events.definitions_append, h.definitions]
    cases dest <;> rfl

/-- And over a phi. -/
theorem merged (hinj : TellsApart f P)
    (h : Relabelled f P st st') {dest : Var} (hdest : P dest) {sources : List Var}
    (hsources : ∀ x ∈ sources, P x) :
    Relabelled f P (st.merged dest sources)
      (st'.merged (dest.relabel f) (sources.map (Var.relabel f))) where
  env := by
    unfold State.merged
    rw [h.incoming hsources]
    exact h.set hinj hdest _
  arm := h.arm
  arms := by
    unfold State.merged
    rw [Events.arms_append, Events.arms_append, h.arms]
    rfl
  definitions := by
    unfold State.merged
    rw [Events.definitions_append, Events.definitions_append, h.definitions,
      h.incoming hsources]
    cases dest with
    | temp number => rfl
    | user name version =>
        have hany : ((sources.map (Var.relabel f)).any fun x => !x.isTemp) =
            sources.any fun x => !x.isTemp := by
          rw [List.any_map]
          congr 1
          funext x
          exact congrArg not (isTemp_relabel x)
        rw [Var.relabel, Events.definitions_merged, Events.definitions_merged, hany]

/-- And at the head of a branch, where the same arm is chosen. -/
theorem branched (choose : List Bool → Float → Bool) (h : Relabelled f P st st') (cond : Operand)
    (value : Float) :
    Relabelled f P (st.branched choose cond value)
      (st'.branched choose (cond.relabel f) value) where
  env := h.env
  arm := h.arm
  arms := by
    unfold State.branched
    rw [Events.arms_append, Events.arms_append, h.arms]
    rfl
  definitions := by
    unfold State.branched
    rw [Events.definitions_append, Events.definitions_append, h.definitions]
    rfl

end Relabelled

mutual

/-- A renumbered instruction executes as the instruction does. -/
theorem Inst.exec_relabel (hinj : TellsApart f P) {st st' st₁ : State} :
    ∀ i : Inst, i.Over P → Relabelled f P st st' → i.exec choose st = .ok st₁ →
      ∃ st₁', (i.relabel f).exec choose st' = .ok st₁' ∧ Relabelled f P st₁ st₁'
  | .assign dest rhs, ⟨hdest, hrhs⟩, h, hexec => by
    obtain ⟨value, hvalue, rfl⟩ := exec_assign_iff.mp hexec
    exact ⟨_, exec_assign_iff.mpr ⟨value, h.rhs_value hrhs hvalue, rfl⟩,
      h.assigned hinj hdest rhs value⟩
  | .branch cond thenArm elseArm, ⟨hcond, hthen, helse⟩, h, hexec => by
    obtain ⟨value, st₁, hvalue, harm, rfl⟩ := exec_branch_iff.mp hexec
    have hstart := h.branched choose cond value
    have hsame : choose st'.trace.arms value = choose st.trace.arms value := by rw [h.arms]
    rw [Inst.relabel_branch]
    split at harm
    · rename_i hchoice
      obtain ⟨st₁', harm', hrel⟩ := execAll_relabel hinj thenArm hthen hstart harm
      refine ⟨{ st₁' with arm := choose st.trace.arms value }, exec_branch_iff.mpr
        ⟨value, st₁', h.operand_value hcond hvalue, ?_, by rw [hsame]⟩, { hrel with arm := rfl }⟩
      rw [hsame, if_pos hchoice]
      exact harm'
    · rename_i hchoice
      obtain ⟨st₁', harm', hrel⟩ := execAll_relabel hinj elseArm helse hstart harm
      refine ⟨{ st₁' with arm := choose st.trace.arms value }, exec_branch_iff.mpr
        ⟨value, st₁', h.operand_value hcond hvalue, ?_, by rw [hsame]⟩, { hrel with arm := rfl }⟩
      rw [hsame, if_neg hchoice]
      exact harm'
  | .phi dest sources, ⟨hdest, hsources⟩, h, hexec => by
    cases hexec
    exact ⟨_, rfl, h.merged hinj hdest hsources⟩

/-- Relabelled code comes to its end where the code does, and with the same
values. -/
theorem execAll_relabel (hinj : TellsApart f P) {st st' st₁ : State} :
    ∀ code : List Inst, OverAll P code → Relabelled f P st st' → execAll choose st code = .ok st₁ →
      ∃ st₁', execAll choose st' (relabel f code) = .ok st₁' ∧ Relabelled f P st₁ st₁'
  | [], _, h, hexec => by
    cases hexec
    exact ⟨st', rfl, h⟩
  | i :: rest, ⟨hi, hrest⟩, h, hexec => by
    obtain ⟨st₂, hfirst, hlast⟩ := execAll_cons_iff.mp hexec
    obtain ⟨st₂', hfirst', hmid⟩ := i.exec_relabel hinj hi h hfirst
    obtain ⟨st₁', hlast', hrel⟩ := execAll_relabel hinj rest hrest hmid hlast
    rw [relabel_eq_map] at hlast'
    rw [relabel_eq_map, List.map_cons]
    exact ⟨st₁', execAll_cons_iff.mpr ⟨st₂', hfirst', hlast'⟩, hrel⟩

end

-- ============================================================== plain code

/-- New numbers add no version. -/
theorem Var.plain_relabel : ∀ x : Var, (x.relabel f).plain = x.plain
  | .temp _ => rfl
  | .user .. => rfl

theorem Operand.plain_relabel : ∀ o : Operand, (o.relabel f).plain = o.plain
  | .const _ => rfl
  | .var x => x.plain_relabel

theorem Rhs.plain_relabel : ∀ rhs : Rhs, (rhs.relabel f).plain = rhs.plain
  | .copy o => o.plain_relabel
  | .unary _ o => o.plain_relabel
  | .binary _ l r => congrArg₂ and l.plain_relabel r.plain_relabel

mutual

theorem Inst.plain_relabel : ∀ i : Inst, (i.relabel f).plain = i.plain
  | .assign dest rhs => congrArg₂ and dest.plain_relabel rhs.plain_relabel
  | .branch cond thenArm elseArm => by
    rw [Inst.relabel_branch, Inst.plain, Inst.plain, cond.plain_relabel, plainAll_relabel thenArm,
      plainAll_relabel elseArm]
  | .phi dest sources => by
    rw [Inst.relabel, Inst.plain, Inst.plain, List.all_map, dest.plain_relabel]
    congr 2
    funext x
    exact x.plain_relabel

/-- Source variables stay as they are. -/
theorem plainAll_relabel : ∀ code : List Inst, plainAll (relabel f code) = plainAll code
  | [] => rfl
  | i :: rest => by
    have hrest := plainAll_relabel rest
    rw [relabel_eq_map] at hrest
    rw [relabel_eq_map, List.map_cons, plainAll, plainAll, i.plain_relabel, hrest]

end

end Relabel

-- ========================================================== the numbering

/-- A table of numbers handed out so far, all below `next` and each to one
temporary. -/
structure KeepsApart (table : Numbering) (next : Nat) : Prop where
  bounded : ∀ {temp number : Nat}, table[temp]? = some number → number < next
  injective : ∀ {a b number : Nat}, table[a]? = some number → table[b]? = some number → a = b

/-- A number that was not given yet keeps temporaries apart. -/
theorem KeepsApart.insert {table : Numbering} {next : Nat} (h : KeepsApart table next)
    (temp : Nat) : KeepsApart (table.insert temp next) (next + 1) := by
  have hnew : ∀ {a number : Nat}, (table.insert temp next)[a]? = some number →
      a = temp ∧ number = next ∨ table[a]? = some number := by
    intro a number ha
    rw [Std.ExtTreeMap.getElem?_insert] at ha
    split at ha
    · rename_i heq
      cases ha
      exact .inl ⟨(Std.compare_eq_iff_eq.mp heq).symm, rfl⟩
    · exact .inr ha
  constructor
  · intro a number ha
    rcases hnew ha with ⟨-, rfl⟩ | hold
    · exact Nat.lt_succ_self _
    · exact Nat.lt_succ_of_lt (h.bounded hold)
  · intro a b number ha hb
    rcases hnew ha with ⟨rfl, rfl⟩ | hold
    · rcases hnew hb with ⟨rfl, -⟩ | hold'
      · rfl
      · exact absurd (h.bounded hold') (Nat.lt_irrefl _)
    · rcases hnew hb with ⟨rfl, rfl⟩ | hold'
      · exact absurd (h.bounded hold) (Nat.lt_irrefl _)
      · exact h.injective hold hold'

/-- Numbering more temporaries keeps the numbers handed out, and leaves no
temporary without one. -/
theorem numberAll_spec (temps : List Nat) :
    ∀ {table : Numbering} {next : Nat}, KeepsApart table next →
      ∃ table' next', (temps.foldl
        (fun (table, next) temp =>
          if temp ∈ table then (table, next) else (table.insert temp next, next + 1))
        (table, next)) = (table', next')
        ∧ KeepsApart table' next'
        ∧ ∀ temp, temp ∈ table ∨ temp ∈ temps → temp ∈ table' := by
  induction temps with
  | nil =>
      intro table next h
      exact ⟨table, next, rfl, h, fun temp htemp => htemp.elim id fun hin => by cases hin⟩
  | cons first temps ih =>
      intro table next h
      by_cases hfirst : first ∈ table
      · obtain ⟨table', next', hfold, hapart, hall⟩ := ih h
        refine ⟨table', next', ?_, hapart, fun temp htemp => hall temp ?_⟩
        · rw [List.foldl_cons]
          dsimp only
          rw [if_pos hfirst, hfold]
        · rcases htemp with hin | hin
          · exact .inl hin
          · rcases List.mem_cons.mp hin with rfl | hin
            · exact .inl hfirst
            · exact .inr hin
      · obtain ⟨table', next', hfold, hapart, hall⟩ := ih (h.insert first)
        refine ⟨table', next', ?_, hapart, fun temp htemp => hall temp ?_⟩
        · rw [List.foldl_cons]
          dsimp only
          rw [if_neg hfirst, hfold]
        · rcases htemp with hin | hin
          · exact .inl (Std.ExtTreeMap.mem_insert.mpr (.inr hin))
          · rcases List.mem_cons.mp hin with rfl | hin
            · exact .inl Std.ExtTreeMap.mem_insert_self
            · exact .inr hin

/-- Temporaries that are numbered are kept apart. -/
theorem numberFrom_injective {base : Nat} {temps : List Nat} {a b : Nat} (ha : a ∈ temps)
    (hb : b ∈ temps)
    (h : (numberFrom base temps)[a]?.getD a = (numberFrom base temps)[b]?.getD b) : a = b := by
  have hempty : KeepsApart ∅ base := by
    constructor
    · intro temp number hget
      rw [Std.ExtTreeMap.getElem?_empty] at hget
      cases hget
    · intro a b number hget
      rw [Std.ExtTreeMap.getElem?_empty] at hget
      cases hget
  obtain ⟨table, next, hfold, hapart, hall⟩ := numberAll_spec temps hempty
  unfold numberFrom at h
  rw [hfold] at h
  obtain ⟨m, hm⟩ := Option.isSome_iff_exists.mp
    (Std.ExtTreeMap.mem_iff_isSome_getElem?.mp (hall a (.inr ha)))
  obtain ⟨n, hn⟩ := Option.isSome_iff_exists.mp
    (Std.ExtTreeMap.mem_iff_isSome_getElem?.mp (hall b (.inr hb)))
  dsimp only at h
  rw [hm, hn] at h
  cases h
  exact hapart.injective hm hn

/-- The numbers that renumbering gives. -/
def numbering (base : Nat) (code : List Inst) (temp : Nat) : Nat :=
  (numberFrom base (definedTemps code))[temp]?.getD temp

theorem renumber_eq_relabel (base : Nat) (code : List Inst) :
    renumber base code = relabel (numbering base code) code := rfl

/-- Renumbering tells the temporaries of the code apart, if it defines all
it mentions. -/
theorem tellsApart_numbering (base : Nat) {lo hi : Nat} {code : List Inst}
    (hdefined : ∀ number, lo ≤ number ∧ number < hi → number ∈ definedTemps code) :
    TellsApart (numbering base code) (Var.Within lo hi)
  | .temp a, .temp b, ha, hb, h => by
    injection h with hsame
    rw [numberFrom_injective (hdefined a ha) (hdefined b hb) hsame]
  | .temp _, .user .., _, _, h => by cases h
  | .user .., .temp _, _, _, h => by cases h
  | .user .., .user .., _, _, h => h

end ExprGraph.SSA
