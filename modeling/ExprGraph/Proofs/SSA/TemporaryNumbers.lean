/-
The numbers of temporaries.

In the code of a builder that counts without bound, the temporaries are
defined in the order of their numbers, line by line, from the number the
builder stood at up to the number it stands at afterwards
(`definedTemps_build`).

# Why there is no gap

Lowering defines each temporary it takes exactly once, whatever the order
in which it takes them (`Lowered.perm_definedTemps`). On a list without
repetitions numbering counts up (`map_numberFrom`), so it sends the range
of temporaries taken onto itself.

# Why renumbering may as well come last

Renaming neither looks at a temporary nor defines one: what it does to
source variables is the same under any numbers (`rename_relabel`). So the
code is that of lowering and renaming alone, under new numbers.
-/
import ExprGraph.Proofs.SSA.WellFormed
import ExprGraph.SSA.Text
import Mathlib.Data.List.Intervals
import Mathlib.Data.Set.Function
import Mathlib.Order.Interval.Set.Defs

namespace ExprGraph.SSA

-- ===================================================================== lines

/-- A line of the text of code. -/
inductive Line where
  /-- The line of an instruction, the first one if it is a branch. -/
  | inst (depth : Nat) (i : Inst)
  /-- The line between the arms of a branch. -/
  | otherwise (depth : Nat)
  /-- The line behind the arms. -/
  | close (depth : Nat)

/-- The text of a line, indented by its depth. -/
def Line.text : Line → String
  | .inst depth (.assign dest value) =>
    indent "" depth ++ (dest.text ++ (" = " ++ (value.text ++ "\n")))
  | .inst depth (.branch cond _ _) => indent "" depth ++ ("if " ++ (cond.text ++ " \x7b\n"))
  | .inst depth (.phi dest sources) =>
    indent "" depth ++ (dest.text ++ (" = phi(" ++ (sourcesText sources ++ ")\n")))
  | .otherwise depth => indent "" depth ++ "\x7d else \x7b\n"
  | .close depth => indent "" depth ++ "\x7d\n"

/-- The instruction whose line it is. -/
def Line.inst? : Line → Option Inst
  | .inst _ i => some i
  | .otherwise _ | .close _ => none

mutual

/-- The lines of an instruction, those of its arms a block deeper. -/
def Inst.lines (depth : Nat) : Inst → List Line
  | .assign dest value => [.inst depth (.assign dest value)]
  | .branch cond thenArm elseArm =>
    .inst depth (.branch cond thenArm elseArm) :: (linesAll (depth + 1) thenArm
      ++ .otherwise depth :: (linesAll (depth + 1) elseArm ++ [.close depth]))
  | .phi dest sources => [.inst depth (.phi dest sources)]

/-- The lines of code that stands `depth` blocks deep. -/
def linesAll (depth : Nat) : List Inst → List Line
  | [] => []
  | i :: rest => i.lines depth ++ linesAll depth rest

end

/-- The text of lines behind `acc`. -/
def textOnto (acc : String) (lines : List Line) : String :=
  lines.foldl (fun acc line => acc ++ line.text) acc

/-- The lines of two stretches are written one after the other. -/
theorem textOnto_append (acc : String) (a b : List Line) :
    textOnto acc (a ++ b) = textOnto (textOnto acc a) b :=
  List.foldl_append

theorem textOnto_cons (acc : String) (line : Line) (rest : List Line) :
    textOnto acc (line :: rest) = textOnto (acc ++ line.text) rest := rfl

mutual

theorem Inst.renderOnto_eq_textOnto (depth : Nat) (acc : String) :
    ∀ i : Inst, i.renderOnto depth acc = textOnto acc (i.lines depth)
  | .assign .. | .phi .. => by
    rw [Inst.lines, textOnto_cons, Inst.renderOnto, indent_eq]
    simp only [Line.text, String.append_assoc]
    rfl
  | .branch cond thenArm elseArm => by
    obtain ⟨blanks, indented⟩ : ∃ s, ∀ acc, indent acc depth = acc ++ s :=
      ⟨_, fun acc => indent_eq acc depth⟩
    rw [Inst.lines, textOnto_cons, textOnto_append, textOnto_cons, textOnto_append, textOnto_cons,
      ← renderAll_eq_textOnto, ← renderAll_eq_textOnto, Inst.renderOnto]
    simp only [indented, Line.text, String.append_assoc, String.empty_append]
    rfl

/-- Writing code is writing its lines, whatever stands in front. -/
theorem renderAll_eq_textOnto (depth : Nat) (acc : String) :
    ∀ code : List Inst, renderAll depth acc code = textOnto acc (linesAll depth code)
  | [] => rfl
  | i :: rest => by
    rw [renderAll, linesAll, textOnto_append, Inst.renderOnto_eq_textOnto,
      renderAll_eq_textOnto]

end

/-- The text of code is the text of its lines. -/
theorem render_eq_textOnto (code : List Inst) : render code = textOnto "" (linesAll 0 code) :=
  renderAll_eq_textOnto 0 "" code

mutual

/-- The lines of an instruction are lines of what a walk through it meets,
in that order. -/
theorem Inst.filterMap_lines (depth : Nat) :
    ∀ i : Inst, (i.lines depth).filterMap Line.inst? = walk [i]
  | .assign .. | .phi .. => rfl
  | .branch cond thenArm elseArm => by
    rw [walk_branch, walk_nil, List.append_nil, Inst.lines, List.filterMap_cons,
      List.filterMap_append, List.filterMap_cons, List.filterMap_append, filterMap_linesAll,
      filterMap_linesAll]
    exact congrArg (_ :: walk thenArm ++ ·) (List.append_nil _)

/-- The instructions come in the order of their lines. -/
theorem filterMap_linesAll (depth : Nat) :
    ∀ code : List Inst, (linesAll depth code).filterMap Line.inst? = walk code
  | [] => rfl
  | i :: rest => by
    rw [linesAll, List.filterMap_append, Inst.filterMap_lines, filterMap_linesAll]
    exact (walk_append [i] rest).symm

end

-- ============================================================ relabelled code

section Relabel

variable {f : Nat → Nat}

theorem relabel_cons (f : Nat → Nat) (i : Inst) (rest : List Inst) :
    relabel f (i :: rest) = i.relabel f :: relabel f rest := by
  rw [relabel_eq_map, relabel_eq_map, List.map_cons]

mutual

theorem Inst.walk_relabel : ∀ i : Inst, walk [i.relabel f] = (walk [i]).map (Inst.relabel f)
  | .assign .. | .phi .. => rfl
  | .branch cond thenArm elseArm => by
    rw [Inst.relabel_branch, walk_branch, walk_branch, walk_relabel, walk_relabel, walk_nil,
      List.append_nil, List.append_nil, List.map_cons, List.map_append, Inst.relabel_branch]

/-- A walk meets the same instructions in the same order, renumbered. -/
theorem walk_relabel :
    ∀ code : List Inst, walk (relabel f code) = (walk code).map (Inst.relabel f)
  | [] => rfl
  | i :: rest => by
    have hcode : walk (i :: rest) = walk [i] ++ walk rest := walk_append [i] rest
    have hlabel : walk (i.relabel f :: relabel f rest)
        = walk [i.relabel f] ++ walk (relabel f rest) := walk_append [_] _
    rw [relabel_cons, hlabel, hcode, Inst.walk_relabel, walk_relabel, List.map_append]

end

/-- Renumbered code defines the renumbered temporaries, in the same
order. -/
theorem definedTemps_relabel (code : List Inst) :
    definedTemps (relabel f code) = (definedTemps code).map f := by
  unfold definedTemps
  rw [walk_relabel, List.filterMap_map, List.map_filterMap]
  exact List.filterMap_congr fun i _ => definedTemp?_relabel i

-- ================================================================ renaming

namespace Versions

/-- Reading renames source variables, whatever the temporaries. -/
theorem read_relabel (v : Versions) (x : Var) :
    v.read (x.relabel f) = ((v.read x).1.relabel f, (v.read x).2) := by
  cases x with
  | temp number => rfl
  | user name version =>
      cases version with
      | some version => rfl
      | none =>
          unfold read Var.relabel
          dsimp only
          cases v.current[name]? <;> rfl

/-- So does writing. -/
theorem write_relabel (v : Versions) (x : Var) :
    v.write (x.relabel f) = ((v.write x).1.relabel f, (v.write x).2) := by
  cases x with
  | temp number => rfl
  | user name version => cases version <;> rfl

theorem readOperand_relabel (v : Versions) (o : Operand) :
    v.readOperand (o.relabel f) = ((v.readOperand o).1.relabel f, (v.readOperand o).2) := by
  cases o with
  | const value => rfl
  | var x => rw [Operand.relabel, readOperand, read_relabel]; rfl

/-- A right-hand side is renamed alike under any numbers. -/
theorem readRhs_relabel (v : Versions) (rhs : Rhs) :
    v.readRhs (rhs.relabel f) = ((v.readRhs rhs).1.relabel f, (v.readRhs rhs).2) := by
  cases rhs with
  | copy o => rw [Rhs.relabel, readRhs, readOperand_relabel]; rfl
  | unary op o => rw [Rhs.relabel, readRhs, readOperand_relabel]; rfl
  | binary op l r =>
      rw [Rhs.relabel, readRhs, readOperand_relabel]
      dsimp only
      rw [readOperand_relabel]
      rfl

/-- The sources of a phi are renamed alike under any numbers. -/
theorem readAll_relabel (v : Versions) (sources : List Var) :
    v.readAll (sources.map (Var.relabel f))
      = ((v.readAll sources).1.map (Var.relabel f), (v.readAll sources).2) := by
  induction sources generalizing v with
  | nil => rfl
  | cons x sources ih =>
      rw [List.map_cons, readAll, read_relabel]
      dsimp only
      rw [ih]
      rfl

/-- Joins mention source variables only. -/
theorem joinName_relabel (thenArm elseArm : VersionTable) (out : List Inst) (v : Versions)
    (name : String) :
    joinName thenArm elseArm (out.map (Inst.relabel f)) v name
      = ((joinName thenArm elseArm out v name).1.map (Inst.relabel f),
        (joinName thenArm elseArm out v name).2) := by
  unfold joinName
  cases thenArm[name]? with
  | none => cases elseArm[name]? <;> rfl
  | some a =>
      cases elseArm[name]? with
      | none => rfl
      | some b => dsimp only; split <;> rfl

/-- The phis behind a branch are over source variables, which no numbering
touches. -/
theorem join_relabel (thenArm elseArm : VersionTable) (out : List Inst) (v : Versions) :
    join thenArm elseArm (out.map (Inst.relabel f)) v
      = ((join thenArm elseArm out v).1.map (Inst.relabel f), (join thenArm elseArm out v).2) := by
  unfold join
  induction joinNames thenArm elseArm generalizing out v with
  | nil => rfl
  | cons name names ih =>
      rw [List.foldl_cons, List.foldl_cons]
      dsimp only
      rw [joinName_relabel, ih]

end Versions

mutual

/-- An instruction is renamed alike under any numbers, and leaves the tables
alike. -/
theorem Inst.renameOnto_relabel (out : List Inst) (v : Versions) :
    ∀ i : Inst, (i.relabel f).renameOnto (out.map (Inst.relabel f)) v
      = ((i.renameOnto out v).1.map (Inst.relabel f), (i.renameOnto out v).2)
  | .assign dest value => by
    rw [Inst.relabel, Inst.renameOnto, Versions.readRhs_relabel]
    dsimp only
    rw [Versions.write_relabel]
    rfl
  | .branch cond thenArm elseArm => by
    rw [Inst.relabel_branch, Inst.renameOnto, Versions.readOperand_relabel]
    dsimp only
    have hthen := renameAll_relabel [] (v.readOperand cond).2 thenArm
    rw [List.map_nil] at hthen
    rw [hthen]
    dsimp only
    have helse := renameAll_relabel []
      ⟨(renameAll [] (v.readOperand cond).2 thenArm).2.latest, (v.readOperand cond).2.current⟩
      elseArm
    rw [List.map_nil] at helse
    rw [helse]
    dsimp only
    rw [← List.map_reverse, ← List.map_reverse, ← relabel_eq_map, ← relabel_eq_map,
      ← Inst.relabel_branch, ← List.map_cons, Versions.join_relabel]
    rfl
  | .phi dest sources => by
    rw [Inst.relabel, Inst.renameOnto, Versions.readAll_relabel]
    dsimp only
    rw [Versions.write_relabel]
    rfl

/-- So is code. -/
theorem renameAll_relabel (out : List Inst) (v : Versions) :
    ∀ code : List Inst, renameAll (out.map (Inst.relabel f)) v (relabel f code)
      = ((renameAll out v code).1.map (Inst.relabel f), (renameAll out v code).2)
  | [] => rfl
  | i :: rest => by
    rw [relabel_cons, renameAll, Inst.renameOnto_relabel]
    dsimp only
    rw [renameAll_relabel _ _ rest]
    rfl

end

/-- Renaming takes temporaries as they come. -/
theorem rename_relabel (f : Nat → Nat) (code : List Inst) (liveIn : List String) :
    rename (relabel f code) liveIn = relabel f (rename code liveIn) := by
  have hall := renameAll_relabel (f := f) [] (Versions.ofLiveIn liveIn) code
  rw [List.map_nil] at hall
  rw [rename, hall, rename, relabel_eq_map, List.map_reverse]

end Relabel

section Renamed

open Versions

/-- The phis that renaming puts in define no temporary. -/
theorem definedTemps_joins (thenArm elseArm : VersionTable) (v : Versions) :
    definedTemps ((joinNames thenArm elseArm).filterMap (joinPhi thenArm elseArm v)) = [] := by
  induction joinNames thenArm elseArm with
  | nil => rfl
  | cons name names ih =>
      rw [filterMap_cons_toList, definedTemps_append, ih, List.append_nil]
      cases hphi : joinPhi thenArm elseArm v name with
      | none => rfl
      | some i =>
          obtain ⟨a, b, -, -, -, rfl⟩ := joinPhi_eq_some thenArm elseArm hphi
          rfl

mutual

/-- A renamed instruction defines the temporaries that it defined. -/
theorem Inst.definedTemps_versioned (v : Versions) :
    ∀ i : Inst, definedTemps (i.versioned v) = definedTemps [i]
  | .assign dest rhs => by
    rw [Inst.versioned_assign]
    cases dest with
    | temp number => rfl
    | user name version => cases version <;> rfl
  | .phi dest sources => by
    rw [Inst.versioned_phi]
    cases dest with
    | temp number => rfl
    | user name version => cases version <;> rfl
  | .branch cond thenArm elseArm => by
    rw [Inst.versioned_branch]
    dsimp only
    rw [definedTemps_cons, definedTemps_joins, List.append_nil, definedTemps_branch,
      definedTemps_branch, definedTemps_versionedAll, definedTemps_versionedAll]

/-- Renaming defines no temporaries, and leaves them in their order. -/
theorem definedTemps_versionedAll (v : Versions) :
    ∀ code : List Inst, definedTemps (versionedAll v code) = definedTemps code
  | [] => rfl
  | i :: rest => by
    rw [versionedAll_cons, definedTemps_append, Inst.definedTemps_versioned,
      definedTemps_versionedAll, ← definedTemps_cons]

end

/-- Renaming defines no temporary, and drops none. -/
theorem definedTemps_rename (code : List Inst) (liveIn : List String) :
    definedTemps (rename code liveIn) = definedTemps code :=
  definedTemps_versionedAll _ code

end Renamed

-- ===================================================== one definition each

section Once

variable {p : Program} {id : ExprId} {lo mid hi next next' temp : Nat} {code code' : List Inst}
  {o : Operand} {value : Option Operand} {a b : List Nat}

/-- The temporaries of one stretch and those of the next. -/
theorem perm_Ico_append (hlo : lo ≤ mid) (hhi : mid ≤ hi) (ha : a.Perm (List.Ico lo mid))
    (hb : b.Perm (List.Ico mid hi)) : (a ++ b).Perm (List.Ico lo hi) :=
  List.Ico.append_consecutive hlo hhi ▸ ha.append hb

/-- One more temporary at the end of a range that is taken. -/
theorem perm_Ico_snoc (hle : lo ≤ hi) (ha : a.Perm (List.Ico lo hi)) :
    (a ++ [hi]).Perm (List.Ico lo (hi + 1)) :=
  perm_Ico_append hle (Nat.le_succ hi) ha (List.Ico.succ_singleton ▸ .refl _)

/-- Sealing an arm takes the next temporary at most, and defines it once. -/
theorem Sealed.perm_definedTemps (h : Sealed code next o temp code' next') (hle : lo ≤ next)
    (hcode : (definedTemps code).Perm (List.Ico lo next)) :
    (definedTemps code').Perm (List.Ico lo next') := by
  cases h with
  | kept => exact hcode
  | copied =>
      rw [definedTemps_append]
      exact perm_Ico_snoc hle hcode

/-- The phi behind a choice defines the temporary taken for it, once, or
none. -/
theorem Meets.definedTemps_phi {cond thenArm elseArm : ExprId} {dest : Var} {sources : List Var}
    (h : Meets p cond thenArm elseArm next id dest next') :
    definedTemps [.phi dest sources] = List.Ico next next' := by
  cases h with
  | fresh => exact List.Ico.succ_singleton.symm
  | into => exact List.Ico.self_empty.symm

/-- Each temporary taken is defined, and once only. -/
theorem Lowered.perm_definedTemps (h : Lowered p id lo hi code value) :
    (definedTemps code).Perm (List.Ico lo hi) := by
  induction h with
  | number | var | empty | stepped => exact List.Ico.self_empty.symm ▸ .refl _
  | kept => exact List.Ico.succ_singleton.symm ▸ .refl _
  | unary _ hoperand ih =>
      rw [definedTemps_append]
      exact perm_Ico_snoc hoperand.le ih
  | binary _ hright hleft _ ih ih' =>
      rw [definedTemps_append, definedTemps_append, ← List.append_assoc]
      exact perm_Ico_snoc (Nat.le_trans hright.le hleft.le)
        (perm_Ico_append hright.le hleft.le ih ih')
  | @pinned _ _ _ lo mid hi _ front behind _ _ _ hright hleft ih ih' =>
      have hboth := perm_Ico_append hright.le hleft.le ih ih'
      have hlo := Nat.le_trans hright.le hleft.le
      rw [definedTemps_append, definedTemps_cons, definedTemps_append]
      -- the copy is taken last but one, and stands in front of the left operand
      have hmoved : (definedTemps front ++ ([hi] ++ (definedTemps behind ++ [hi + 1]))).Perm
          (definedTemps front ++ definedTemps behind ++ [hi] ++ [hi + 1]) := by
        rw [List.append_assoc, List.append_assoc]
        refine List.Perm.append_left _ ?_
        rw [← List.append_assoc, ← List.append_assoc]
        exact List.perm_append_comm.append_right _
      exact hmoved.trans (perm_Ico_snoc (Nat.le_succ_of_le hlo) (perm_Ico_snoc hlo hboth))
  | assign _ _ _ ih =>
      rw [definedTemps_append]
      exact (List.append_nil _).symm ▸ ih
  | choice hcond hthen hsealed helse hsealed' hmeets ih ih₁ ih₂ =>
      have hthenEnd := Nat.le_trans hthen.le hsealed.le
      have helseEnd := Nat.le_trans helse.le hsealed'.le
      rw [definedTemps_append, definedTemps_cons, definedTemps_branch, hmeets.definedTemps_phi]
      refine perm_Ico_append hcond.le (Nat.le_trans hthenEnd (Nat.le_trans helseEnd hmeets.le)) ih
        (perm_Ico_append (Nat.le_trans hthenEnd helseEnd) hmeets.le ?_ (.refl _))
      exact perm_Ico_append hthenEnd helseEnd (hsealed.perm_definedTemps hthen.le ih₁)
        (hsealed'.perm_definedTemps helse.le ih₂)
  | branch _ hcond hthen helse ih ih₁ ih₂ =>
      rw [definedTemps_append, definedTemps_branch]
      exact perm_Ico_append hcond.le (Nat.le_trans hthen.le helse.le) ih
        (perm_Ico_append hthen.le helse.le ih₁ ih₂)
  | seq _ hfirst hsecond ih ih' =>
      rw [definedTemps_append]
      exact perm_Ico_append hfirst.le hsecond.le ih ih'

end Once

-- ================================================================ numbering

/-- Number one more temporary, unless it has a number. -/
def numberNext : Numbering × Nat → Nat → Numbering × Nat
  | (table, next), temp =>
    if temp ∈ table then (table, next) else (table.insert temp next, next + 1)

theorem numberFrom_eq_foldl (base : Nat) (temps : List Nat) :
    numberFrom base temps = (temps.foldl numberNext (∅, base)).1 := rfl

/-- Temporaries that are all new get consecutive numbers, the others keep
theirs. -/
theorem getElem?_foldl_numberNext {temps : List Nat} (hnodup : temps.Nodup) :
    ∀ {table : Numbering} {next : Nat}, (∀ temp ∈ temps, temp ∉ table) → ∀ temp,
      (temps.foldl numberNext (table, next)).1[temp]?
        = if temp ∈ temps then some (next + temps.idxOf temp) else table[temp]? := by
  induction temps with
  | nil => exact fun _ _ => rfl
  | cons first temps ih =>
      intro table next hnew temp
      obtain ⟨hfirst, hnodup⟩ := List.nodup_cons.mp hnodup
      have hrest : ∀ other ∈ temps, other ∉ table.insert first next := by
        intro other hother hin
        rcases Std.ExtTreeMap.mem_insert.mp hin with heq | hin
        · exact hfirst (Std.compare_eq_iff_eq.mp heq ▸ hother)
        · exact hnew other (List.mem_cons_of_mem _ hother) hin
      rw [List.foldl_cons, numberNext, if_neg (hnew first List.mem_cons_self), ih hnodup hrest]
      by_cases heq : first = temp
      · subst heq
        rw [if_neg hfirst, if_pos List.mem_cons_self, List.idxOf_cons_self,
          Std.ExtTreeMap.getElem?_insert_self]
        rfl
      · have hmem : temp ∈ first :: temps ↔ temp ∈ temps :=
          List.mem_cons.trans (or_iff_right (Ne.symm heq))
        have hother : (table.insert first next)[temp]? = table[temp]? := by
          rw [Std.ExtTreeMap.getElem?_insert, if_neg fun h => heq (Std.compare_eq_iff_eq.mp h)]
        simp only [hmem, hother, List.idxOf_cons_ne _ heq]
        congr 2
        omega

/-- Temporaries without repetitions are numbered one by one. -/
theorem map_numberFrom {temps : List Nat} (hnodup : temps.Nodup) (base : Nat) :
    temps.map (fun temp => (numberFrom base temps)[temp]?.getD temp)
      = List.range' base temps.length := by
  refine List.ext_getElem (by rw [List.length_map, List.length_range']) fun i hi hi' => ?_
  have hlt : i < temps.length := by rwa [List.length_map] at hi
  have hget := @getElem?_foldl_numberNext temps hnodup ∅ base
    (fun _ _ => Std.ExtTreeMap.not_mem_empty) temps[i]
  rw [if_pos (List.getElem_mem hlt), hnodup.idxOf_getElem i hlt, ← numberFrom_eq_foldl] at hget
  rw [List.getElem_map, List.getElem_range', hget, Option.getD_some, Nat.one_mul]

-- =============================================================== built code

section Mentioned

open Versions

variable {temps : List Nat}

/-- Writing a variable leaves temporaries as they are. -/
theorem Versions.among_write (v : Versions) :
    ∀ {x : Var}, x.Among temps → (v.write x).1.Among temps
  | .temp _, h => h
  | .user _ (some _), _ => trivial
  | .user _ none, _ => trivial

mutual

/-- Renamed code mentions no temporaries but those it mentioned. -/
theorem Inst.overAll_among_versioned (v : Versions) :
    ∀ {i : Inst}, i.Over (Var.Among temps) → OverAll (Var.Among temps) (i.versioned v)
  | .assign dest rhs, ⟨hdest, hrhs⟩ => by
    have hreads := (over_readRhs (I := fun _ => True) (fun _ hx => ⟨among_read _ hx, trivial⟩)
      (v := v) trivial hrhs).1
    exact ⟨⟨among_write _ hdest, hreads⟩, trivial⟩
  | .phi dest sources, ⟨hdest, hsources⟩ => by
    have hreads := (over_readAll (I := fun _ => True) (fun _ hx => ⟨among_read _ hx, trivial⟩)
      (v := v) trivial hsources).1
    exact ⟨⟨among_write _ hdest, hreads⟩, trivial⟩
  | .branch cond thenArm elseArm, ⟨hcond, hthen, helse⟩ => by
    have hreads := (over_readOperand (I := fun _ => True)
      (fun _ hx => ⟨among_read _ hx, trivial⟩) (v := v) trivial hcond).1
    rw [Inst.versioned_branch]
    refine ⟨⟨hreads, overAll_among_versionedAll _ hthen, overAll_among_versionedAll _ helse⟩, ?_⟩
    refine overAll_of_forall fun i hi => ?_
    obtain ⟨name, a, b, -, -, rfl⟩ := joinPhi_of_mem hi
    refine ⟨trivial, fun x hx => ?_⟩
    rcases List.mem_pair.mp hx with rfl | rfl
    · trivial
    · trivial

/-- Renaming mentions no temporary that was not mentioned before. -/
theorem overAll_among_versionedAll (v : Versions) :
    ∀ {code : List Inst}, OverAll (Var.Among temps) code →
      OverAll (Var.Among temps) (versionedAll v code)
  | [], _ => trivial
  | i :: rest, ⟨hi, hrest⟩ => by
    rw [versionedAll_cons]
    exact overAll_append.mpr
      ⟨Inst.overAll_among_versioned v hi, overAll_among_versionedAll _ hrest⟩

end

/-- The temporaries of a range, as a list. -/
theorem Var.Within.among {lo hi : Nat} : ∀ {x : Var}, x.Within lo hi → x.Among (List.Ico lo hi)
  | .temp _, h => List.Ico.mem.mpr h
  | .user .., _ => trivial

end Mentioned

section Whole

variable {p : Program} {id : ExprId} {lo hi : Nat} {code : List Inst} {value : Option Operand}

/-- Renumbering sends the temporaries taken onto their own range, in the
order of their definitions. -/
theorem Lowered.map_numbering (h : Lowered p id lo hi code value) :
    (definedTemps code).map (numbering lo code) = List.Ico lo hi := by
  have hperm := h.perm_definedTemps
  rw [List.Ico, ← List.Ico.length, ← hperm.length_eq]
  exact map_numberFrom (hperm.nodup_iff.mpr (List.Ico.nodup lo hi)) lo

/-- Numbering lowered code sends the range of its temporaries onto itself,
one to one. -/
theorem Lowered.bijOn_numbering (h : Lowered p id lo hi code value) :
    Set.BijOn (numbering lo code) (Set.Ico lo hi) (Set.Ico lo hi) := by
  have hmem : ∀ {number : Nat}, number ∈ Set.Ico lo hi ↔ number ∈ definedTemps code :=
    fun {number} => (h.mem_definedTemps number).symm
  have himage : ∀ {number : Nat}, number ∈ Set.Ico lo hi ↔
      number ∈ (definedTemps code).map (numbering lo code) := fun {number} => by
    rw [h.map_numbering, List.Ico.mem]
    exact Iff.rfl
  refine ⟨fun a ha => himage.mpr (List.mem_map_of_mem (hmem.mp ha)), fun a ha b hb hsame => ?_,
    fun number hnumber => ?_⟩
  · exact numberFrom_injective (hmem.mp ha) (hmem.mp hb) hsame
  · obtain ⟨temp, htemp, rfl⟩ := List.mem_map.mp (himage.mp hnumber)
    exact ⟨temp, hmem.mpr htemp, rfl⟩

/-- A builder stands where lowering left its counter. -/
theorem temps_of_build {b b' : Builder} {p : Program} {f : Function} {code : List Inst}
    {e : Emission} (h : b.build p f = (.ok code, b'))
    (hlower : lowerBody p f.body ⟨.empty, none, b.temps⟩ = .ok e) : b' = ⟨e.temps⟩ := by
  unfold Builder.build at h
  cases hparams : paramNames p f.body f.params with
  | error refusal => rw [hparams] at h; cases h
  | ok liveIn =>
      rw [hparams, hlower] at h
      cases h
      rfl

/-- Built code mentions the temporaries its builder took for it, and no
others. -/
theorem among_of_build {b b' : Builder} {p : Program} {f : Function} {code : List Inst}
    (h : b.build p f = (.ok code, b')) :
    OverAll (Var.Among (List.Ico b.temps b'.temps)) code := by
  obtain ⟨liveIn, e, -, hlower, rfl⟩ := build_eq_ok h
  obtain rfl := temps_of_build h hlower
  have hlowered := lowered_of_lowerBody hlower
  rw [renumber_eq_relabel]
  refine overAll_among_versionedAll _ (overAll_relabel ?_ hlowered.within.1)
  intro x hx
  have hlabel := (hx.among).relabel (f := numbering b.temps e.code.insts)
  refine Var.Among.mono (fun number hnumber => ?_) hlabel
  obtain ⟨temp, htemp, rfl⟩ := List.mem_map.mp hnumber
  exact List.Ico.mem.mpr (hlowered.bijOn_numbering.mapsTo (List.Ico.mem.mp htemp))

/-- The lines of built code define the temporaries taken one after the
other. -/
theorem definedTemps_build {b b' : Builder} {p : Program} {f : Function} {code : List Inst}
    (h : b.build p f = (.ok code, b')) : definedTemps code = List.Ico b.temps b'.temps := by
  obtain ⟨liveIn, e, -, hlower, rfl⟩ := build_eq_ok h
  obtain rfl := temps_of_build h hlower
  rw [definedTemps_rename, renumber_eq_relabel, definedTemps_relabel,
    (lowered_of_lowerBody hlower).map_numbering]

/-- But for their numbers, built code is what lowering and renaming make of
the body. -/
theorem relabelled_build {b b' : Builder} {p : Program} {f : Function} {code : List Inst}
    (h : b.build p f = (.ok code, b')) :
    ∃ liveIn e σ, paramNames p f.body f.params = .ok liveIn
      ∧ lowerBody p f.body ⟨.empty, none, b.temps⟩ = .ok e ∧ b' = ⟨e.temps⟩
      ∧ Set.BijOn σ (Set.Ico b.temps b'.temps) (Set.Ico b.temps b'.temps)
      ∧ OverAll (Var.Within b.temps b'.temps) e.code.insts
      ∧ code = relabel σ (rename e.code.insts liveIn) := by
  obtain ⟨liveIn, e, hparams, hlower, hcode⟩ := build_eq_ok h
  obtain rfl := temps_of_build h hlower
  have hlowered := lowered_of_lowerBody hlower
  refine ⟨liveIn, e, numbering b.temps e.code.insts, hparams, hlower, rfl,
    hlowered.bijOn_numbering, hlowered.within.1, ?_⟩
  rw [hcode, renumber_eq_relabel, rename_relabel]

end Whole

end ExprGraph.SSA
