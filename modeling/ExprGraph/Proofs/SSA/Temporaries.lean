/-
The variables of lowered code.

A node that takes the temporaries from `lo` up to `hi` mentions no others
(`Lowered.within`) and defines exactly these (`Lowered.mem_definedTemps`).
The first says that what is held in temporaries taken before is safe from
the code; both together say that a numbering of the defined temporaries
numbers every temporary there is.

Code changes nothing but what it defines (`execAll_untouched`).
-/
import ExprGraph.Proofs.SSA.Erasure
import ExprGraph.Proofs.SSA.LoweredCode
import ExprGraph.SSA.Numbering

namespace ExprGraph.SSA

-- ========================================================== all variables

/-- The variable that an operand reads, if it reads one, is such. -/
def Operand.Over (P : Var → Prop) : Operand → Prop
  | .const _ => True
  | .var x => P x

/-- All variables that a right-hand side reads are such. -/
def Rhs.Over (P : Var → Prop) : Rhs → Prop
  | .copy operand => operand.Over P
  | .unary _ operand => operand.Over P
  | .binary _ left right => left.Over P ∧ right.Over P

mutual

/-- All variables that an instruction reads or defines are such. -/
def Inst.Over (P : Var → Prop) : Inst → Prop
  | .assign dest rhs => P dest ∧ rhs.Over P
  | .branch cond thenArm elseArm => cond.Over P ∧ OverAll P thenArm ∧ OverAll P elseArm
  | .phi dest sources => P dest ∧ ∀ x ∈ sources, P x

/-- All variables of some code are such, arms of branches included. -/
def OverAll (P : Var → Prop) : List Inst → Prop
  | [] => True
  | i :: rest => i.Over P ∧ OverAll P rest

end

section Over

variable {P Q : Var → Prop}

/-- Code in two parts is over what both parts are over. -/
theorem overAll_append {a b : List Inst} :
    OverAll P (a ++ b) ↔ OverAll P a ∧ OverAll P b := by
  induction a with
  | nil => exact (true_and _).symm ▸ Iff.rfl
  | cons i a ih => rw [List.cons_append, OverAll, OverAll, ih, and_assoc]

theorem Operand.Over.mono (hPQ : ∀ {x}, P x → Q x) : ∀ {o : Operand}, o.Over P → o.Over Q
  | .const _, _ => trivial
  | .var _, h => hPQ h

theorem Rhs.Over.mono (hPQ : ∀ {x}, P x → Q x) : ∀ {rhs : Rhs}, rhs.Over P → rhs.Over Q
  | .copy _, h => Operand.Over.mono hPQ h
  | .unary .., h => Operand.Over.mono hPQ h
  | .binary .., h => ⟨h.1.mono hPQ, h.2.mono hPQ⟩

mutual

/-- A weaker property holds of the variables too, instruction by
instruction. -/
theorem Inst.Over.mono (hPQ : ∀ {x}, P x → Q x) : ∀ {i : Inst}, i.Over P → i.Over Q
  | .assign .., h => ⟨hPQ h.1, h.2.mono hPQ⟩
  | .branch .., h => ⟨h.1.mono hPQ, OverAll.mono hPQ h.2.1, OverAll.mono hPQ h.2.2⟩
  | .phi .., h => ⟨hPQ h.1, fun x hx => hPQ (h.2 x hx)⟩

/-- Code is over whatever follows from what it is over. -/
theorem OverAll.mono (hPQ : ∀ {x}, P x → Q x) :
    ∀ {code : List Inst}, OverAll P code → OverAll Q code
  | [], _ => trivial
  | _ :: _, h => ⟨h.1.mono hPQ, OverAll.mono hPQ h.2⟩

end

theorem Operand.plain_of_over : ∀ {o : Operand}, o.Over (·.plain = true) → o.plain = true
  | .const _, _ => rfl
  | .var _, h => h

theorem Rhs.plain_of_over : ∀ {rhs : Rhs}, rhs.Over (·.plain = true) → rhs.plain = true
  | .copy _, h => Operand.plain_of_over h
  | .unary .., h => Operand.plain_of_over h
  | .binary .., h =>
    Bool.and_eq_true_iff.mpr ⟨Operand.plain_of_over h.1, Operand.plain_of_over h.2⟩

mutual

theorem Inst.plain_of_over : ∀ {i : Inst}, i.Over (·.plain = true) → i.plain = true
  | .assign .., h => Bool.and_eq_true_iff.mpr ⟨h.1, Rhs.plain_of_over h.2⟩
  | .branch .., h => by
    rw [Inst.plain, Operand.plain_of_over h.1, plainAll_of_over h.2.1, plainAll_of_over h.2.2]
    rfl
  | .phi .., h => Bool.and_eq_true_iff.mpr ⟨h.1, List.all_eq_true.mpr h.2⟩

/-- Code over variables without a version is plain, which is what renaming
and execution ask for. -/
theorem plainAll_of_over : ∀ {code : List Inst}, OverAll (·.plain = true) code →
    plainAll code = true
  | [], _ => rfl
  | _ :: _, h => Bool.and_eq_true_iff.mpr ⟨Inst.plain_of_over h.1, plainAll_of_over h.2⟩

end

end Over

-- ===================================================== the range of a node

/-- A source variable without a version, or a temporary from `lo` up to
`hi`. -/
def Var.Within (lo hi : Nat) : Var → Prop
  | .temp number => lo ≤ number ∧ number < hi
  | .user _ version => version = none

/-- A wider range holds the variable too. -/
theorem Var.Within.mono {lo lo' hi hi' : Nat} (hlo : lo' ≤ lo) (hhi : hi ≤ hi') :
    ∀ {x : Var}, x.Within lo hi → x.Within lo' hi'
  | .temp _, h => ⟨Nat.le_trans hlo h.1, Nat.lt_of_lt_of_le h.2 hhi⟩
  | .user .., h => h

/-- What is in a range has no version: temporaries have none, and source
variables are not renamed yet. -/
theorem Var.Within.plain {lo hi : Nat} : ∀ {x : Var}, x.Within lo hi → x.plain = true
  | .temp _, _ => rfl
  | .user _ version, h => by
    have hnone : version = none := h
    rw [hnone]
    rfl

section Range

variable {p : Program} {id : ExprId} {lo mid hi next next' temp : Nat} {code code' : List Inst}
  {o : Operand} {value : Option Operand}

/-- Sealing the value of an arm takes a temporary at most, so the next one
does not go down. -/
theorem Sealed.le (h : Sealed code next o temp code' next') : next ≤ next' := by
  cases h with
  | kept => exact Nat.le_refl _
  | copied => exact Nat.le_succ _

/-- So does the variable in which two arms meet. -/
theorem Meets.le {cond thenArm elseArm : ExprId} {dest : Var}
    (h : Meets p cond thenArm elseArm next id dest next') : next ≤ next' := by
  cases h with
  | fresh => exact Nat.le_succ _
  | into => exact Nat.le_refl _

/-- The range of a node goes up. -/
theorem Lowered.le (h : Lowered p id lo hi code value) : lo ≤ hi := by
  induction h with
  | number | var | empty | stepped => exact Nat.le_refl _
  | kept => exact Nat.le_succ _
  | unary _ _ ih => exact Nat.le_succ_of_le ih
  | binary _ _ _ _ ih ih' => exact Nat.le_succ_of_le (Nat.le_trans ih ih')
  | pinned _ _ _ ih ih' => omega
  | assign _ _ _ ih => exact ih
  | choice _ _ hsealed _ hsealed' hmeets ih ih₁ ih₂ =>
      have := hsealed.le
      have := hsealed'.le
      have := hmeets.le
      omega
  | branch _ _ _ _ ih ih₁ ih₂ => omega
  | seq _ _ _ ih ih' => exact Nat.le_trans ih ih'

/-- All variables of the code are in the range, and the operand's. -/
def Ranges (lo hi : Nat) (code : List Inst) (value : Option Operand) : Prop :=
  OverAll (Var.Within lo hi) code ∧ ∀ o, value = some o → o.Over (Var.Within lo hi)

/-- The code of a child is in the range of its parent. -/
theorem Ranges.mono {lo' hi' : Nat} (hlo : lo' ≤ lo) (hhi : hi ≤ hi')
    (h : Ranges lo hi code value) : Ranges lo' hi' code value :=
  ⟨h.1.mono (Var.Within.mono hlo hhi), fun o ho => (h.2 o ho).mono (Var.Within.mono hlo hhi)⟩

/-- A sealed arm stays in the range from `lo` up to the next temporary, and
so does the temporary it leaves its value in. -/
theorem Sealed.within (h : Sealed code next o temp code' next') (hle : lo ≤ next)
    (hrange : Ranges lo next code (some o)) :
    OverAll (Var.Within lo next') code' ∧ lo ≤ temp ∧ temp < next' := by
  obtain ⟨hcode, ho⟩ := hrange
  cases h with
  | kept => exact ⟨hcode, ho _ rfl⟩
  | copied =>
      have hup : ∀ {x : Var}, x.Within lo next → x.Within lo (next + 1) :=
        Var.Within.mono (Nat.le_refl lo) (Nat.le_succ next)
      have hnew : (Var.temp next).Within lo (next + 1) := ⟨hle, Nat.lt_succ_self next⟩
      refine ⟨overAll_append.mpr ⟨hcode.mono hup, ⟨hnew, ?_⟩, trivial⟩, hnew⟩
      exact (ho o rfl).mono hup

/-- Two arms meet in a source variable, or in the temporary that was taken
for them. -/
theorem Meets.within {cond thenArm elseArm : ExprId} {dest : Var}
    (h : Meets p cond thenArm elseArm next id dest next') : dest.Within next next' := by
  cases h with
  | fresh => exact ⟨Nat.le_refl _, Nat.lt_succ_self _⟩
  | into => rfl

/-- The code of a node, and its value, mention source variables and the
temporaries of the node's own range, and nothing else. -/
theorem Lowered.within (h : Lowered p id lo hi code value) : Ranges lo hi code value := by
  induction h with
  | number => exact ⟨trivial, by rintro o ⟨⟩; trivial⟩
  | var => exact ⟨trivial, by rintro o ⟨⟩; rfl⟩
  | empty => exact ⟨trivial, by nofun⟩
  | unary _ hoperand ih =>
      have hnew : (Var.temp _).Within _ _ := ⟨hoperand.le, Nat.lt_succ_self _⟩
      obtain ⟨hcode, ho⟩ := ih.mono (Nat.le_refl _) (Nat.le_succ _)
      exact ⟨overAll_append.mpr ⟨hcode, ⟨hnew, ho _ rfl⟩, trivial⟩, by rintro o ⟨⟩; exact hnew⟩
  | binary _ hright hleft _ ih ih' =>
      have hnew : (Var.temp _).Within _ _ :=
        ⟨Nat.le_trans hright.le hleft.le, Nat.lt_succ_self _⟩
      obtain ⟨hfront, hr⟩ := ih.mono (Nat.le_refl _) (Nat.le_succ_of_le hleft.le)
      obtain ⟨hbehind, hl⟩ := ih'.mono hright.le (Nat.le_succ _)
      refine ⟨overAll_append.mpr ⟨hfront, overAll_append.mpr ⟨hbehind, ?_⟩⟩,
        by rintro o ⟨⟩; exact hnew⟩
      exact ⟨⟨hnew, hl _ rfl, hr _ rfl⟩, trivial⟩
  | @pinned _ _ _ lo mid hi _ _ _ _ _ _ hright hleft ih ih' =>
      have hlo := Nat.le_trans hright.le hleft.le
      have hcopy : (Var.temp hi).Within lo (hi + 2) := ⟨hlo, by omega⟩
      have hnew : (Var.temp (hi + 1)).Within lo (hi + 2) := ⟨by omega, by omega⟩
      obtain ⟨hfront, hr⟩ := ih.mono (Nat.le_refl _) (Nat.le_add_right_of_le hleft.le)
      obtain ⟨hbehind, hl⟩ := ih'.mono hright.le (Nat.le_add_right hi 2)
      refine ⟨overAll_append.mpr ⟨hfront, ⟨hcopy, hr _ rfl⟩, overAll_append.mpr ⟨hbehind, ?_⟩⟩,
        by rintro o ⟨⟩; exact hnew⟩
      exact ⟨⟨hnew, hl _ rfl, hcopy⟩, trivial⟩
  | assign _ _ _ ih =>
      obtain ⟨hcode, ho⟩ := ih
      exact ⟨overAll_append.mpr ⟨hcode, ⟨rfl, ho _ rfl⟩, trivial⟩, by rintro o ⟨⟩; rfl⟩
  | stepped => exact ⟨⟨⟨rfl, rfl, trivial⟩, trivial⟩, by rintro o ⟨⟩; rfl⟩
  | @kept _ lo =>
      have hnew : (Var.temp lo).Within lo (lo + 1) := ⟨Nat.le_refl lo, Nat.lt_succ_self lo⟩
      exact ⟨⟨⟨hnew, rfl⟩, ⟨rfl, rfl, trivial⟩, trivial⟩, by rintro o ⟨⟩; exact hnew⟩
  | choice hcond hthen hsealed helse hsealed' hmeets ih ih₁ ih₂ =>
      obtain ⟨hthenArm, hge₁, hlt₁⟩ := hsealed.within hthen.le ih₁
      obtain ⟨helseArm, hge₂, hlt₂⟩ := hsealed'.within helse.le ih₂
      have hthenEnd := Nat.le_trans hthen.le hsealed.le
      have helseEnd := Nat.le_trans helse.le hsealed'.le
      have hstart := Nat.le_trans hcond.le hthenEnd
      have hend := Nat.le_trans helseEnd hmeets.le
      have hdest := hmeets.within.mono (Nat.le_trans hstart helseEnd) (Nat.le_refl _)
      obtain ⟨hcode, hc⟩ := ih.mono (Nat.le_refl _) (Nat.le_trans hthenEnd hend)
      refine ⟨overAll_append.mpr ⟨hcode, ⟨hc _ rfl, hthenArm.mono (Var.Within.mono hcond.le hend),
        helseArm.mono (Var.Within.mono hstart hmeets.le)⟩, ⟨hdest, ?_⟩, trivial⟩,
        by rintro o ⟨⟩; exact hdest⟩
      intro x hx
      rcases List.mem_pair.mp hx with rfl | rfl
      · exact ⟨Nat.le_trans hcond.le hge₁, Nat.lt_of_lt_of_le hlt₁ hend⟩
      · exact ⟨Nat.le_trans hstart hge₂, Nat.lt_of_lt_of_le hlt₂ hmeets.le⟩
  | branch _ hcond hthen helse ih ih₁ ih₂ =>
      obtain ⟨hcode, hc⟩ := ih.mono (Nat.le_refl _) (Nat.le_trans hthen.le helse.le)
      obtain ⟨hthenCode, -⟩ := ih₁.mono hcond.le helse.le
      obtain ⟨helseCode, -⟩ := ih₂.mono (Nat.le_trans hcond.le hthen.le) (Nat.le_refl _)
      exact ⟨overAll_append.mpr ⟨hcode, ⟨hc _ rfl, hthenCode, helseCode⟩, trivial⟩, by nofun⟩
  | seq _ hfirst hsecond ih ih' =>
      obtain ⟨hfront, -⟩ := ih.mono (Nat.le_refl _) hsecond.le
      obtain ⟨hbehind, hvalue⟩ := ih'.mono hfirst.le (Nat.le_refl _)
      exact ⟨overAll_append.mpr ⟨hfront, hbehind⟩, hvalue⟩

end Range

-- ==================================================== defined temporaries

/-- Definitions come in the order of the code. -/
theorem definedTemps_append (a b : List Inst) :
    definedTemps (a ++ b) = definedTemps a ++ definedTemps b := by
  rw [definedTemps, walk_append, List.filterMap_append]
  rfl

theorem definedTemps_cons (i : Inst) (rest : List Inst) :
    definedTemps (i :: rest) = definedTemps [i] ++ definedTemps rest :=
  definedTemps_append [i] rest

/-- The first arm of a branch comes before the second; the condition defines
nothing. -/
theorem definedTemps_branch (cond : Operand) (thenArm elseArm : List Inst) :
    definedTemps [.branch cond thenArm elseArm] =
      definedTemps thenArm ++ definedTemps elseArm := by
  rw [definedTemps, walk_branch, walk_nil, List.append_nil, List.filterMap_cons,
    List.filterMap_append]
  rfl

section Defined

variable {p : Program} {id : ExprId} {lo hi next next' temp : Nat} {code code' : List Inst}
  {o : Operand} {value : Option Operand}

/-- Sealing an arm defines the temporary that it takes, if it takes one. -/
theorem Sealed.mem_definedTemps (h : Sealed code next o temp code' next') (number : Nat) :
    number ∈ definedTemps code' ↔
      number ∈ definedTemps code ∨ next ≤ number ∧ number < next' := by
  cases h with
  | kept => exact (or_iff_left (by omega)).symm
  | copied =>
      rw [definedTemps_append, List.mem_append]
      exact or_congr_right (List.mem_singleton.trans (by omega))

/-- The phi behind a choice defines the temporary that was taken for it, if
one was. -/
theorem Meets.mem_definedTemps {cond thenArm elseArm : ExprId} {dest : Var} {sources : List Var}
    (h : Meets p cond thenArm elseArm next id dest next') (number : Nat) :
    number ∈ definedTemps [.phi dest sources] ↔ next ≤ number ∧ number < next' := by
  cases h with
  | fresh => exact List.mem_singleton.trans (by omega)
  | into => exact iff_of_false List.not_mem_nil (by omega)

/-- The code defines the temporaries of its range, and no others. -/
theorem Lowered.mem_definedTemps (h : Lowered p id lo hi code value) (number : Nat) :
    number ∈ definedTemps code ↔ lo ≤ number ∧ number < hi := by
  induction h with
  | number | var | empty | stepped => exact iff_of_false List.not_mem_nil (by omega)
  | unary _ hoperand ih =>
      have := hoperand.le
      rw [definedTemps_append, List.mem_append, ih]
      exact (or_congr_right List.mem_singleton).trans (by omega)
  | binary _ hright hleft _ ih ih' =>
      have := hright.le
      have := hleft.le
      rw [definedTemps_append, definedTemps_append, List.mem_append, List.mem_append, ih, ih']
      exact (or_congr_right (or_congr_right List.mem_singleton)).trans (by omega)
  | pinned _ hright hleft ih ih' =>
      have := hright.le
      have := hleft.le
      rw [definedTemps_append, definedTemps_cons, definedTemps_append, List.mem_append,
        List.mem_append, List.mem_append, ih, ih']
      exact (or_congr_right (or_congr List.mem_singleton
        (or_congr_right List.mem_singleton))).trans (by omega)
  | assign _ _ _ ih =>
      rw [definedTemps_append, List.mem_append, ih]
      exact or_iff_left List.not_mem_nil
  | kept => exact List.mem_singleton.trans (by omega)
  | choice hcond hthen hsealed helse hsealed' hmeets ih ih₁ ih₂ =>
      have := hcond.le
      have := hthen.le
      have := hsealed.le
      have := helse.le
      have := hsealed'.le
      have := hmeets.le
      rw [definedTemps_append, definedTemps_cons, definedTemps_branch, List.mem_append,
        List.mem_append, List.mem_append, ih, hsealed.mem_definedTemps, ih₁,
        hsealed'.mem_definedTemps, ih₂, hmeets.mem_definedTemps]
      omega
  | branch _ hcond hthen helse ih ih₁ ih₂ =>
      have := hcond.le
      have := hthen.le
      have := helse.le
      rw [definedTemps_append, definedTemps_branch, List.mem_append, List.mem_append, ih, ih₁, ih₂]
      omega
  | seq _ hfirst hsecond ih ih' =>
      have := hfirst.le
      have := hsecond.le
      rw [definedTemps_append, List.mem_append, ih, ih']
      omega

end Defined

-- ================================================= what code leaves alone

/-- Whether code does not define the variable; of a source variable, no
version. -/
def Var.UntouchedBy (code : List Inst) : Var → Prop
  | .temp number => number ∉ definedTemps code
  | .user name _ => writesAny name code = false

section Untouched

variable {x : Var} {choose : List Bool → Float → Bool}

/-- Code in two parts leaves alone what both parts leave alone. -/
theorem untouchedBy_append {a b : List Inst} :
    x.UntouchedBy (a ++ b) ↔ x.UntouchedBy a ∧ x.UntouchedBy b := by
  cases x with
  | temp number =>
      show ¬number ∈ _ ↔ _
      rw [definedTemps_append, List.mem_append, not_or]
      rfl
  | user name version =>
      show writesAny name _ = false ↔ _
      rw [writesAny_append, Bool.or_eq_false_iff]
      rfl

/-- A branch leaves alone what both of its arms leave alone. -/
theorem untouchedBy_branch {cond : Operand} {thenArm elseArm : List Inst}
    (h : x.UntouchedBy [.branch cond thenArm elseArm]) :
    x.UntouchedBy thenArm ∧ x.UntouchedBy elseArm := by
  cases x with
  | temp number =>
      have hnot : ¬number ∈ definedTemps [.branch cond thenArm elseArm] := h
      rwa [definedTemps_branch, List.mem_append, not_or] at hnot
  | user name version =>
      have hsilent : (writesAny name thenArm || writesAny name elseArm) = false :=
        (Bool.or_false _).symm.trans h
      exact Bool.or_eq_false_iff.mp hsilent

/-- An assignment or a phi touches its destination. -/
theorem ne_of_untouchedBy {i : Inst} {dest : Var} (h : x.UntouchedBy [i])
    (hdest : (∃ rhs, i = .assign dest rhs) ∨ ∃ sources, i = .phi dest sources) : x ≠ dest := by
  rintro rfl
  cases x with
  | temp number =>
      rcases hdest with ⟨rhs, rfl⟩ | ⟨sources, rfl⟩
      · exact h List.mem_cons_self
      · exact h List.mem_cons_self
  | user name version =>
      have hnamed : (name == name) = false := by
        rcases hdest with ⟨rhs, rfl⟩ | ⟨sources, rfl⟩
        · exact (Bool.or_false _).symm.trans h
        · exact (Bool.or_false _).symm.trans h
      rw [beq_self_eq_true] at hnamed
      cases hnamed

mutual

/-- An instruction that executes changes nothing but what it defines,
whichever arms are chosen in it. -/
theorem Inst.exec_untouched {st st' : State} :
    ∀ i : Inst, x.UntouchedBy [i] → i.exec choose st = .ok st' → st'.env x = st.env x
  | .assign dest rhs, hx, h => by
    obtain ⟨value, -, rfl⟩ := exec_assign_iff.mp h
    exact Env.set_of_ne _ _ (ne_of_untouchedBy hx (.inl ⟨rhs, rfl⟩))
  | .branch cond thenArm elseArm, hx, h => by
    obtain ⟨value, st₁, -, harm, rfl⟩ := exec_branch_iff.mp h
    obtain ⟨hthen, helse⟩ := untouchedBy_branch hx
    split at harm
    · have henv := execAll_untouched thenArm hthen harm
      exact henv
    · have henv := execAll_untouched elseArm helse harm
      exact henv
  | .phi dest sources, hx, h => by
    cases h
    exact Env.set_of_ne _ _ (ne_of_untouchedBy hx (.inr ⟨sources, rfl⟩))

/-- Code changes nothing but what it defines, so a variable that it leaves
alone has its value afterwards. -/
theorem execAll_untouched {st st' : State} :
    ∀ code : List Inst, x.UntouchedBy code → execAll choose st code = .ok st' →
      st'.env x = st.env x
  | [], _, h => by
    cases h
    rfl
  | i :: rest, hx, h => by
    obtain ⟨st₁, hfirst, hrest⟩ := execAll_cons_iff.mp h
    obtain ⟨hi, hx⟩ := untouchedBy_append (a := [i]).mp hx
    exact (execAll_untouched rest hx hrest).trans (i.exec_untouched hi hfirst)

end

end Untouched

end ExprGraph.SSA
