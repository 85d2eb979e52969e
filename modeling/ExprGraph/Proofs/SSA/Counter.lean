/-
The counter of 32 bits.

As long as the count of temporaries stays below 2^32, a builder whose
counter has 32 bits is one that counts without bound, whatever the counter
does behind its last value (`build_of_room`, `serveAll_of_room`). So built
code has its temporaries in the order of its lines
(`build_numbers_in_order`), and what a builder was asked before only shifts
its numbering (`history_shifts`).

# The bound is exact

Checked arithmetic answers the requests only if the count stays below 2^32
(`serveAll_panics_iff`). Unchecked arithmetic answers them all: a step of
the counter is a step of the count, wrapped (`fresh_wrapped`), so the
numbers are those of the count modulo 2^32 (`definedTemps_build_wraps`).
Shared nodes make the bound easy to pass: a chain of twenty sums, each of
the one before and itself, takes 2^20 - 1 temporaries. The code of its build
number 4097 ends below where it began (`numbering_wraps`), and shares
temporaries with that of the first (`history_wraps`).
-/
import ExprGraph.Proofs.SSA.History
import Mathlib.Data.List.Nodup

namespace ExprGraph.SSA

-- =========================================================== wrapped numbers

/-- A number that fits is not changed. -/
theorem wrapped_of_lt {number : Nat} (h : number < UInt32.size) : wrapped number = number :=
  Nat.mod_eq_of_lt h

/-- Counting in 32 bits is counting, wrapped. -/
theorem toNat_ofNat (number : Nat) : (UInt32.ofNat number).toNat = wrapped number :=
  UInt32.toNat_ofNat'

/-- A counter of 32 bits takes the steps that the count takes, and shows the
number of each temporary wrapped. -/
theorem fresh_wrapped (e : Emission) :
    e.fresh.1.relabel wrapped = .temp (UInt32.ofNat e.temps).toNat
    ∧ UInt32.ofNat e.fresh.2.temps = UInt32.ofNat e.temps + 1 :=
  ⟨congrArg Var.temp (toNat_ofNat e.temps).symm, UInt32.ofNat_add e.temps 1⟩

/-- In a range of 2^32 numbers no two are wrapped alike. -/
theorem wrapped_inj {lo hi a b : Nat} (hfew : hi ≤ lo + UInt32.size) (ha : lo ≤ a ∧ a < hi)
    (hb : lo ≤ b ∧ b < hi) (h : wrapped a = wrapped b) : a = b := by
  simp only [wrapped, UInt32.size] at h hfew
  omega

section Keeps

variable {f : Nat → Nat} {P : Var → Prop} {number : Nat}

theorem Operand.relabel_of_over : ∀ {o : Operand}, o.Over (fun x => x.relabel f = x) →
    o.relabel f = o
  | .const _, _ => rfl
  | .var _, h => congrArg Operand.var h

theorem Rhs.relabel_of_over : ∀ {rhs : Rhs}, rhs.Over (fun x => x.relabel f = x) →
    rhs.relabel f = rhs
  | .copy _, h => congrArg Rhs.copy (Operand.relabel_of_over h)
  | .unary op _, h => congrArg (Rhs.unary op) (Operand.relabel_of_over h)
  | .binary op .., h =>
    congrArg₂ (Rhs.binary op) (Operand.relabel_of_over h.1) (Operand.relabel_of_over h.2)

mutual

/-- An instruction keeps its numbers if all its variables do. -/
theorem Inst.relabel_of_over : ∀ {i : Inst}, i.Over (fun x => x.relabel f = x) → i.relabel f = i
  | .assign .., h => congrArg₂ Inst.assign h.1 (Rhs.relabel_of_over h.2)
  | .branch .., h => by
    rw [Inst.relabel_branch, Operand.relabel_of_over h.1, relabel_of_overAll h.2.1,
      relabel_of_overAll h.2.2]
  | .phi .., h => congrArg₂ Inst.phi h.1 ((List.map_congr_left h.2).trans (List.map_id _))

/-- Code keeps its numbers if all its variables do. -/
theorem relabel_of_overAll :
    ∀ {code : List Inst}, OverAll (fun x => x.relabel f = x) code → relabel f code = code
  | [], _ => rfl
  | i :: rest, h => by rw [relabel_cons, Inst.relabel_of_over h.1, relabel_of_overAll h.2]

end

mutual

/-- What holds of the variables of an instruction holds of the temporaries
it defines. -/
theorem Inst.Over.of_mem_definedTemps :
    ∀ {i : Inst}, i.Over P → number ∈ definedTemps [i] → P (.temp number)
  | .assign (.temp _) _, h, hmem | .phi (.temp _) _, h, hmem => List.mem_singleton.mp hmem ▸ h.1
  | .assign (.user ..) _, _, hmem | .phi (.user ..) _, _, hmem => by cases hmem
  | .branch .., h, hmem => by
    rw [definedTemps_branch, List.mem_append] at hmem
    exact hmem.elim (OverAll.of_mem_definedTemps h.2.1) (OverAll.of_mem_definedTemps h.2.2)

/-- What holds of the variables of code holds of the temporaries it
defines. -/
theorem OverAll.of_mem_definedTemps :
    ∀ {code : List Inst}, OverAll P code → number ∈ definedTemps code → P (.temp number)
  | [], _, hmem => by cases hmem
  | i :: rest, h, hmem => by
    rw [definedTemps_cons, List.mem_append] at hmem
    exact hmem.elim h.1.of_mem_definedTemps h.2.of_mem_definedTemps

end

end Keeps

/-- Numbers that fit in 32 bits are kept. -/
theorem relabel_wrapped {lo hi : Nat} {code : List Inst} (hroom : hi ≤ UInt32.size)
    (h : OverAll (Var.Among (List.Ico lo hi)) code) : relabel wrapped code = code := by
  refine relabel_of_overAll (h.mono fun {x} hx => ?_)
  cases x with
  | temp number =>
      exact congrArg Var.temp
        (wrapped_of_lt (Nat.lt_of_lt_of_le (List.Ico.mem.mp hx).2 hroom))
  | user name version => rfl

-- ================================================================== one build

namespace Builder32

/-- The builder at the same number that counts without bound. -/
def unbounded (b : Builder32) : Builder :=
  ⟨b.temps.toNat⟩

end Builder32

section Build

variable {overflow : Overflow} {b b' : Builder32} {p : Program} {f : Function}
  {code : List Inst}

/-- A count that fits is kept, whatever overflow does. -/
theorem counted_of_lt {α : Type} {temps : Nat} (answer : α) (h : temps < UInt32.size) :
    Builder32.counted overflow temps answer = some (answer, ⟨.ofNat temps⟩) :=
  if_neg fun hfull => Nat.not_le.mpr h hfull.2

/-- A count that does not fit is no answer where overflow panics. -/
theorem counted_panics {α : Type} {temps : Nat} (answer : α) (h : UInt32.size ≤ temps) :
    Builder32.counted .panics temps answer = none :=
  if_pos ⟨rfl, h⟩

/-- Where overflow wraps there is always an answer. -/
theorem counted_wraps {α : Type} (temps : Nat) (answer : α) :
    Builder32.counted .wraps temps answer = some (answer, ⟨.ofNat temps⟩) :=
  if_neg fun hpanics => by cases hpanics.1

/-- What a 32-bit build comes to: the answer of the unbounded one, its code
put in order with wrapped numbers, if the counter can follow. -/
theorem build_eq (overflow : Overflow) (b : Builder32) (p : Program) (f : Function) :
    ∃ answer, b.build overflow p f
        = Builder32.counted overflow (b.unbounded.build p f).2.temps answer
      ∧ ((∃ refusal, answer = .error refusal ∧ (b.unbounded.build p f).1 = .error refusal)
        ∨ ∃ liveIn e, answer = .ok (finish32 b.temps liveIn e.code)
          ∧ paramNames p f.body f.params = .ok liveIn
          ∧ lowerBody p f.body ⟨.empty, none, b.temps.toNat⟩ = .ok e
          ∧ b.unbounded.build p f = (.ok (finish b.temps.toNat liveIn e.code), ⟨e.temps⟩)) := by
  unfold Builder32.build Builder.build Builder32.unbounded
  cases paramNames p f.body f.params with
  | error refusal =>
      refine ⟨.error refusal, ?_, .inl ⟨refusal, rfl, rfl⟩⟩
      rw [counted_of_lt _ b.temps.toNat_lt_size, UInt32.ofNat_toNat]
  | ok liveIn =>
      dsimp only
      cases lowerBody p f.body ⟨.empty, none, b.temps.toNat⟩ with
      | error stop => exact ⟨_, rfl, .inl ⟨stop.refusal, rfl, rfl⟩⟩
      | ok e => exact ⟨_, rfl, .inr ⟨liveIn, e, rfl, rfl, rfl, rfl⟩⟩

/-- A build that leaves the count below 2^32 is the unbounded one. -/
theorem build_of_room (hroom : (b.unbounded.build p f).2.temps < UInt32.size) :
    b.build overflow p f
      = some ((b.unbounded.build p f).1, ⟨.ofNat (b.unbounded.build p f).2.temps⟩) := by
  obtain ⟨answer, hbuild, hanswer⟩ := build_eq overflow b p f
  rw [hbuild, counted_of_lt _ hroom]
  rcases hanswer with ⟨refusal, rfl, hrefused⟩ | ⟨liveIn, e, rfl, -, hlower, hsame⟩
  · rw [hrefused]
  · have hlowered := (lowered_of_lowerBody hlower).within.1.mono Var.Within.among
    have hbuilt := among_of_build hsame
    rw [hsame] at hroom ⊢
    have hfinish : finish32 b.temps liveIn e.code = finish b.temps.toNat liveIn e.code := by
      rw [finish32, relabel_wrapped (Nat.le_of_lt hroom) hlowered, rename_relabel]
      exact relabel_wrapped (Nat.le_of_lt hroom) hbuilt
    rw [hfinish]

/-- A build that needs more temporaries than there are numbers panics. -/
theorem build_panics (hfull : UInt32.size ≤ (b.unbounded.build p f).2.temps) :
    b.build .panics p f = none := by
  obtain ⟨answer, hbuild, -⟩ := build_eq .panics b p f
  rw [hbuild, counted_panics _ hfull]

/-- With unchecked arithmetic the temporaries of a build follow each other
modulo 2^32, if it takes no more than there are. -/
theorem definedTemps_build_wraps (h : b.build .wraps p f = some (.ok code, b'))
    (hfew : (b.unbounded.build p f).2.temps ≤ b.temps.toNat + UInt32.size) :
    definedTemps code
      = (List.Ico b.temps.toNat (b.unbounded.build p f).2.temps).map wrapped := by
  obtain ⟨answer, hbuild, hanswer⟩ := build_eq .wraps b p f
  rw [hbuild, counted_wraps] at h
  rcases hanswer with ⟨refusal, rfl, -⟩ | ⟨liveIn, e, rfl, -, hlower, hsame⟩
  · cases h
  · cases h
    rw [hsame] at hfew ⊢
    have hperm := (lowered_of_lowerBody hlower).perm_definedTemps
    have hnodup : ((definedTemps e.code.insts).map wrapped).Nodup := by
      refine List.Nodup.map_on (fun x hx y hy hxy => ?_)
        (hperm.nodup_iff.mpr (List.Ico.nodup _ _))
      exact wrapped_inj hfew (List.Ico.mem.mp (hperm.mem_iff.mp hx))
        (List.Ico.mem.mp (hperm.mem_iff.mp hy)) hxy
    have hnumbers := map_numberFrom hnodup b.temps.toNat
    rw [List.length_map, hperm.length_eq, List.Ico.length] at hnumbers
    rw [finish32, definedTemps_rename, definedTemps_relabel, renumber_eq_relabel,
      definedTemps_relabel, definedTemps_relabel]
    refine congrArg (List.map wrapped) (Eq.trans ?_ hnumbers)
    unfold numbering
    rw [definedTemps_relabel]

/-- The lines of built code define the temporaries taken one after the
other, and but for their numbers the code is what lowering and renaming
make of the body, unless an unchecked counter starts again at zero. -/
theorem build_numbers_in_order (h : b.build overflow p f = some (.ok code, b'))
    (hroom : overflow = .panics ∨ (b.unbounded.build p f).2.temps < UInt32.size) :
    b.temps ≤ b'.temps
    ∧ definedTemps code = List.Ico b.temps.toNat b'.temps.toNat
    ∧ render code = textOnto "" (linesAll 0 code)
    ∧ (linesAll 0 code).filterMap Line.inst? = walk code
    ∧ ∃ liveIn e σ, paramNames p f.body f.params = .ok liveIn
      ∧ lowerBody p f.body ⟨.empty, none, b.temps.toNat⟩ = .ok e
      ∧ Set.BijOn σ (Set.Ico b.temps.toNat b'.temps.toNat)
        (Set.Ico b.temps.toNat b'.temps.toNat)
      ∧ OverAll (Var.Among (List.Ico b.temps.toNat b'.temps.toNat))
        (rename (relabel wrapped e.code.insts) liveIn)
      ∧ code = relabel σ (rename (relabel wrapped e.code.insts) liveIn) := by
  have hfits : (b.unbounded.build p f).2.temps < UInt32.size := by
    rcases hroom with rfl | hfits
    · refine Nat.lt_of_not_le fun hfull => ?_
      rw [build_panics hfull] at h
      cases h
    · exact hfits
  rw [build_of_room hfits] at h
  obtain ⟨hcode, rfl⟩ := Prod.mk.inj (Option.some.inj h)
  have hbuild : b.unbounded.build p f = (.ok code, (b.unbounded.build p f).2) :=
    Prod.ext hcode rfl
  obtain ⟨liveIn, e, σ, hparams, hlower, htemps, hσ, hwithin, hrelabel⟩ := relabelled_build hbuild
  have hamong := hwithin.mono Var.Within.among
  have hkept : relabel wrapped e.code.insts = e.code.insts :=
    relabel_wrapped (Nat.le_of_lt hfits) hamong
  have hle : b.unbounded.temps ≤ (b.unbounded.build p f).2.temps := by
    rw [htemps]
    exact (lowered_of_lowerBody hlower).le
  rw [UInt32.le_iff_toNat_le, UInt32.toNat_ofNat_of_lt' hfits]
  refine ⟨hle, definedTemps_build hbuild, render_eq_textOnto code, filterMap_linesAll 0 code,
    liveIn, e, σ, hparams, hlower, hσ, ?_⟩
  rw [hkept]
  exact ⟨overAll_among_versionedAll _ hamong, hrelabel⟩

/-- `doubled` takes the first four numbers. -/
theorem build_numbers_in_order_double :
    Builder32.build .wraps {} doubling double = some (.ok doubled, ⟨4⟩)
      ∧ definedTemps doubled = [0, 1, 2, 3] := by
  have hunbounded : Builder.build (Builder32.unbounded {}) doubling double = (.ok doubled, ⟨4⟩) :=
    build_double
  have hroom : (Builder.build (Builder32.unbounded {}) doubling double).2.temps < UInt32.size := by
    rw [hunbounded]
    decide
  have hbuild : Builder32.build .wraps {} doubling double = some (.ok doubled, ⟨4⟩) := by
    rw [build_of_room hroom, hunbounded]
    rfl
  exact ⟨hbuild, (build_numbers_in_order hbuild (.inr hroom)).2.1⟩

end Build

-- ================================================================ one builder

namespace Builder32

/-- Serve a request, unless that panics. -/
def serve (overflow : Overflow) (b : Builder32) (p : Program) :
    Request → Option (Except Refusal (List Inst) × Builder32)
  | .function f => b.build overflow p f
  | .named name => b.buildNamed overflow p name

/-- What a builder answers to requests, one after the other, and the builder
behind them; nothing if one of them panics. -/
def serveAll (overflow : Overflow) (b : Builder32) (p : Program) :
    List Request → Option (List (Except Refusal (List Inst)) × Builder32)
  | [] => some ([], b)
  | r :: rest => do
    let (answer, b) ← b.serve overflow p r
    let (answers, b) ← serveAll overflow b p rest
    return (answer :: answers, b)

end Builder32

section Serve

variable {overflow : Overflow} {b : Builder32} {p : Program}

/-- A request is for a function, or refused by every builder alike. -/
theorem serve_cases (p : Program) (r : Request) :
    (∃ f, (∀ b : Builder, b.serve p r = b.build p f)
      ∧ ∀ overflow (b : Builder32), b.serve overflow p r = b.build overflow p f)
    ∨ ∃ refusal, (∀ b : Builder, b.serve p r = (.error refusal, b))
      ∧ ∀ overflow (b : Builder32), b.serve overflow p r = some (.error refusal, b) := by
  cases r with
  | function f => exact .inl ⟨f, fun _ => rfl, fun _ _ => rfl⟩
  | named name =>
      simp only [Builder.serve, Builder32.serve, Builder.buildNamed, Builder32.buildNamed]
      cases p.function? name with
      | none => exact .inr ⟨_, fun _ => rfl, fun _ _ => rfl⟩
      | some f => exact .inl ⟨f, fun _ => rfl, fun _ _ => rfl⟩

/-- A request with room for it is served as without a bound. -/
theorem serve_of_room {r : Request} (hroom : (b.unbounded.serve p r).2.temps < UInt32.size) :
    b.serve overflow p r
      = some ((b.unbounded.serve p r).1, ⟨.ofNat (b.unbounded.serve p r).2.temps⟩) := by
  rcases serve_cases p r with ⟨f, hserve, hserve32⟩ | ⟨refusal, hserve, hserve32⟩
  · rw [hserve] at hroom ⊢
    rw [hserve32, build_of_room hroom]
  · rw [hserve, hserve32]
    refine congrArg (fun b => some (_, b)) ?_
    exact congrArg Builder32.mk UInt32.ofNat_toNat.symm

/-- One without room panics. -/
theorem serve_panics {r : Request} (hfull : UInt32.size ≤ (b.unbounded.serve p r).2.temps) :
    b.serve .panics p r = none := by
  rcases serve_cases p r with ⟨f, hserve, hserve32⟩ | ⟨refusal, hserve, hserve32⟩
  · rw [hserve] at hfull
    rw [hserve32, build_panics hfull]
  · rw [hserve] at hfull
    exact absurd b.temps.toNat_lt_size (Nat.not_lt.mpr hfull)

/-- A count that fits can be read back. -/
theorem unbounded_ofNat {temps : Nat} (h : temps < UInt32.size) :
    Builder32.unbounded ⟨.ofNat temps⟩ = ⟨temps⟩ :=
  congrArg Builder.mk (UInt32.toNat_ofNat_of_lt' h)

/-- Requests only add to the count. -/
theorem le_after (p : Program) (requests : List Request) :
    ∀ b : Builder, b.temps ≤ (b.after p requests).temps := by
  induction requests with
  | nil => exact fun b => Nat.le_refl _
  | cons r requests ih =>
      intro b
      refine Nat.le_trans ?_ (ih (b.serve p r).2)
      rw [serve_later b p r]
      exact Nat.le_add_right _ _

/-- Requests are served one after the other. -/
theorem after_append (b : Builder) (p : Program) (front back : List Request) :
    b.after p (front ++ back) = (b.after p front).after p back :=
  List.foldl_append

/-- The first request is served first, and its builder serves the rest. -/
theorem serveAll_cons (overflow : Overflow) (b : Builder32) (p : Program) (r : Request)
    (rest : List Request) :
    b.serveAll overflow p (r :: rest) = (b.serve overflow p r).bind fun first =>
      (first.2.serveAll overflow p rest).map fun later => (first.1 :: later.1, later.2) := by
  rw [Builder32.serveAll]
  cases b.serve overflow p r with
  | none => rfl
  | some first => cases h : first.2.serveAll overflow p rest <;> simp [h]

/-- The second part is served by the builder that the first leaves. -/
theorem serveAll_append (overflow : Overflow) (p : Program) (front back : List Request) :
    ∀ b : Builder32, b.serveAll overflow p (front ++ back)
      = (b.serveAll overflow p front).bind fun first =>
        (first.2.serveAll overflow p back).map fun later => (first.1 ++ later.1, later.2) := by
  induction front with
  | nil =>
      intro b
      exact Option.map_id'.symm
  | cons r front ih =>
      intro b
      rw [List.cons_append, serveAll_cons, serveAll_cons]
      cases b.serve overflow p r with
      | none => rfl
      | some first =>
          rw [Option.bind_some, Option.bind_some, ih]
          cases first.2.serveAll overflow p front with
          | none => rfl
          | some middle =>
              simp only [Option.bind_some, Option.map_some, Option.map_map]
              rfl

/-- Requests that leave the count below 2^32 are answered as by the
unbounded builder. -/
theorem serveAll_of_room (overflow : Overflow) {requests : List Request} :
    ∀ {b : Builder32}, (b.unbounded.after p requests).temps < UInt32.size →
      b.serveAll overflow p requests = some (b.unbounded.answers p requests,
        ⟨.ofNat (b.unbounded.after p requests).temps⟩) := by
  induction requests with
  | nil =>
      intro b _
      exact congrArg (fun temps => some ([], Builder32.mk temps)) UInt32.ofNat_toNat.symm
  | cons r requests ih =>
      intro b hroom
      have hfirst : (b.unbounded.serve p r).2.temps < UInt32.size :=
        Nat.lt_of_le_of_lt (le_after p requests _) hroom
      have hnext := unbounded_ofNat hfirst
      have hrest := @ih ⟨.ofNat (b.unbounded.serve p r).2.temps⟩ (hnext ▸ hroom)
      rw [hnext] at hrest
      rw [serveAll_cons, serve_of_room hfirst, Option.bind_some, hrest]
      rfl

/-- Checked arithmetic answers requests only if the count stays below
2^32. -/
theorem serveAll_panics_iff {requests : List Request} :
    ∀ {b : Builder32}, b.serveAll .panics p requests = none
      ↔ UInt32.size ≤ (b.unbounded.after p requests).temps := by
  induction requests with
  | nil => exact fun {b} => iff_of_false nofun (Nat.not_le.mpr b.temps.toNat_lt_size)
  | cons r requests ih =>
      intro b
      rcases Nat.lt_or_ge (b.unbounded.serve p r).2.temps UInt32.size with hlt | hge
      · have hrest := @ih ⟨.ofNat (b.unbounded.serve p r).2.temps⟩
        rw [unbounded_ofNat hlt] at hrest
        rw [serveAll_cons, serve_of_room hlt, Option.bind_some, Option.map_eq_none_iff]
        exact hrest
      · rw [serveAll_cons, serve_panics hge, Option.bind_none]
        exact iff_of_true rfl (Nat.le_trans hge (le_after p requests _))

/-- As long as the count stays below 2^32, what a builder was asked before
only shifts its numbering: a request comes to what it comes to on a new
builder, with what was taken before added to each temporary, and takes as
many. So the answers of a builder have no temporary in common. -/
theorem history_shifts (overflow : Overflow) {requests : List Request}
    (hroom : (b.unbounded.after p requests).temps < UInt32.size) :
    ∃ answers last, b.serveAll overflow p requests = some (answers, last)
      ∧ answers.Pairwise Apart
      ∧ ∀ front r back, requests = front ++ r :: back → ∃ before now outcome alone,
        b.serveAll overflow p front = some (before, now)
        ∧ Builder32.serve overflow {} p r = some (outcome, alone)
        ∧ now.serve overflow p r = some (outcome.map (relabel (· + now.temps.toNat)),
          ⟨now.temps + alone.temps⟩)
        ∧ (now.temps + alone.temps).toNat = now.temps.toNat + alone.temps.toNat := by
  refine ⟨_, _, serveAll_of_room overflow hroom, pairwise_answers p requests _, ?_⟩
  rintro front r back rfl
  rw [after_append] at hroom
  have hback := Nat.lt_of_le_of_lt (le_after p back _) hroom
  have hlater := serve_later (b.unbounded.after p front) p r
  have hsum : (b.unbounded.after p front).temps + (Builder.serve {} p r).2.temps < UInt32.size := by
    have hboth : ((b.unbounded.after p front).serve p r).2.temps < UInt32.size := hback
    rwa [hlater] at hboth
  have hfront := Nat.lt_of_le_of_lt (Nat.le_add_right _ _) hsum
  have halone := Nat.lt_of_le_of_lt (Nat.le_add_left _ _) hsum
  have hnow := unbounded_ofNat hfront
  refine ⟨_, _, (Builder.serve {} p r).1, ⟨.ofNat (Builder.serve {} p r).2.temps⟩,
    serveAll_of_room overflow hfront, @serve_of_room overflow {} p r halone, ?_, ?_⟩
  · have hserve := @serve_of_room overflow ⟨.ofNat (b.unbounded.after p front).temps⟩ p r
    rw [hnow, hlater] at hserve
    rw [hserve hsum, UInt32.toNat_ofNat_of_lt' hfront, UInt32.ofNat_add]
    rfl
  · rw [UInt32.toNat_add, UInt32.toNat_ofNat_of_lt' hfront, UInt32.toNat_ofNat_of_lt' halone]
    exact Nat.mod_eq_of_lt hsum

end Serve

/-- Asked twice for `double`, a builder gives the second time what it gave
the first, with four added to each temporary. -/
theorem history_shifts_double :
    (Builder.after {} doubling [.function double, .function double]).temps < UInt32.size
    ∧ ∃ now, Builder32.serveAll .wraps {} doubling [.function double] = some ([.ok doubled], now)
      ∧ now.serve .wraps doubling (.function double)
        = some (.ok (relabel (· + 4) doubled), ⟨8⟩) := by
  have hfirst : Builder.serve {} doubling (.function double) = (.ok doubled, ⟨4⟩) := build_double
  have hafter : Builder.after {} doubling [.function double, .function double] = ⟨8⟩ := by
    show (Builder.serve (Builder.serve {} doubling (.function double)).2 doubling _).2 = _
    rw [hfirst, serve_later, hfirst]
    rfl
  have hroom : (Builder.after {} doubling [.function double, .function double]).temps
      < UInt32.size := by
    rw [hafter]
    decide
  have hone : Builder32.serve .wraps {} doubling (.function double)
      = some (.ok doubled, ⟨4⟩) := build_numbers_in_order_double.1
  refine ⟨hroom, ?_⟩
  obtain ⟨_, _, -, -, heach⟩ := history_shifts (b := {}) .wraps hroom
  obtain ⟨before, now, outcome, alone, hbefore, halone, hnow, -⟩ :=
    heach [.function double] _ [] rfl
  rw [hone] at halone
  obtain ⟨rfl, rfl⟩ := Prod.mk.inj (Option.some.inj halone)
  rw [serveAll_cons, hone] at hbefore
  obtain ⟨rfl, rfl⟩ := Prod.mk.inj (Option.some.inj hbefore)
  exact ⟨_, by rw [serveAll_cons, hone]; rfl, hnow⟩

-- ============================================================= past the bound

/-- The code of a build that succeeds, from its stations. -/
theorem build_of_lower {b : Builder} {p : Program} {f : Function} {liveIn : List String}
    {e : Emission} (hparams : paramNames p f.body f.params = .ok liveIn)
    (hlower : lowerBody p f.body ⟨.empty, none, b.temps⟩ = .ok e) :
    b.build p f = (.ok (finish b.temps liveIn e.code), ⟨e.temps⟩) := by
  unfold Builder.build
  rw [hparams]
  dsimp only
  rw [hlower]

/-- A chain of sums: node `n + 1` adds node `n` to itself, twenty times. -/
def sums : Program where
  arena := { nodes := (Expr.number 1.0 :: (List.range 20).map fun n =>
    .binary .add ⟨.ofNat n⟩ ⟨.ofNat n⟩).toArray }

/-- The last sum. -/
def sum : Function := ⟨"sum", [], ⟨20⟩⟩

/-- The temporaries that the sum at node `n` takes. -/
def sumTemps : Nat → Nat
  | 0 => 0
  | n + 1 => 2 * sumTemps n + 1

/-- Each node of the chain is the sum of the one before with itself. -/
theorem expr?_sums {n : Nat} (hn : n < 20) :
    sums.expr? ⟨.ofNat (n + 1)⟩ = some (.binary .add ⟨.ofNat n⟩ ⟨.ofNat n⟩) := by
  have hindex : (ExprId.mk (.ofNat (n + 1))).index = n + 1 :=
    UInt32.toNat_ofNat_of_lt' (Nat.lt_trans (Nat.succ_lt_succ hn) (by decide))
  rw [Program.expr?, Arena.get?, hindex, sums, List.getElem?_toArray, List.getElem?_cons_succ,
    List.getElem?_map, List.getElem?_range hn]
  rfl

/-- Each sum is lowered twice as often as the one above it. -/
theorem lower_sums {n : Nat} (hn : n ≤ 20) :
    ∀ {depth : Nat}, n < depth → ∀ e, ∃ e' o, lower sums depth ⟨.ofNat n⟩ e = .ok e'
      ∧ e'.value = some o ∧ e'.temps = e.temps + sumTemps n
      ∧ ∀ (e₁ : Emission) mark, e₁.pin mark o = (o, e₁) := by
  induction n with
  | zero =>
      intro depth hdepth e
      obtain ⟨depth, rfl⟩ := Nat.exists_eq_add_one_of_ne_zero (Nat.ne_of_gt hdepth)
      exact ⟨_, .const 1.0, rfl, rfl, rfl, fun _ _ => rfl⟩
  | succ n ih =>
      intro depth hdepth e
      obtain ⟨depth, rfl⟩ := Nat.exists_eq_add_one_of_ne_zero (Nat.ne_zero_of_lt hdepth)
      have hbelow := @ih (Nat.le_of_succ_le hn) depth (Nat.lt_of_succ_lt_succ hdepth)
      obtain ⟨e₁, right, hright, hvalue, htemps, hpin⟩ := hbelow e
      obtain ⟨e₂, left, hleft, hvalue', htemps', -⟩ := hbelow e₁
      have hboth : lower sums (depth + 1) ⟨.ofNat (n + 1)⟩ e
          = .ok (e₂.define (.binary .add left right)) := by
        rw [lower, expr?_sums hn]
        refine bind_eq_ok.mpr ⟨e₁, hright, bind_eq_ok.mpr ⟨right, ?_, ?_⟩⟩
        · rw [Emission.operand, hvalue]
        refine bind_eq_ok.mpr ⟨e₂, hleft, bind_eq_ok.mpr ⟨left, ?_, ?_⟩⟩
        · rw [Emission.operand, hvalue']
        rw [hpin]
        rfl
      refine ⟨_, .var (.temp e₂.temps), hboth, rfl, ?_, fun _ _ => rfl⟩
      show e₂.temps + 1 = _
      rw [htemps', htemps, sumTemps, Nat.two_mul]
      omega

/-- What one build of the chain takes: one number short of a 4096th of them
all. -/
theorem sumTemps_twenty : sumTemps 20 = 1048575 := by
  decide

/-- The last sum takes 2^20 - 1 temporaries. -/
theorem build_sums (base : Nat) :
    ∃ code, Builder.build ⟨base⟩ sums sum = (.ok code, ⟨base + sumTemps 20⟩) := by
  have hdepth : 20 < enoughDepth sums := by
    rw [enoughDepth, Arena.size, sums, List.size_toArray, List.length_cons, List.length_map,
      List.length_range]
    decide
  obtain ⟨e, o, hlower, -, htemps, -⟩ := lower_sums (Nat.le_refl 20) hdepth ⟨.empty, none, base⟩
  rw [← lowerBody_eq_lower] at hlower
  have hcount : e.temps = base + sumTemps 20 := htemps
  have hbuild := build_of_lower (b := ⟨base⟩) (f := sum) rfl hlower
  rw [hcount] at hbuild
  exact ⟨_, hbuild⟩

/-- The counter wraps as it goes on. -/
theorem build_sums_wraps (b : Builder32) :
    ∃ code, b.build .wraps sums sum = some (.ok code, ⟨b.temps + .ofNat (sumTemps 20)⟩)
      ∧ definedTemps code
        = (List.Ico b.temps.toNat (b.temps.toNat + sumTemps 20)).map wrapped := by
  obtain ⟨code, hunbounded⟩ := build_sums b.temps.toNat
  have hbuild : b.unbounded.build sums sum = (.ok code, ⟨b.temps.toNat + sumTemps 20⟩) :=
    hunbounded
  obtain ⟨answer, hanswer, hcases⟩ := build_eq .wraps b sums sum
  rw [hbuild, counted_wraps, UInt32.ofNat_add, UInt32.ofNat_toNat] at hanswer
  rcases hcases with ⟨refusal, -, hrefused⟩ | ⟨liveIn, e, rfl, -⟩
  · rw [hbuild] at hrefused
    cases hrefused
  · refine ⟨_, hanswer, ?_⟩
    have hdefined := definedTemps_build_wraps hanswer
    rw [hbuild] at hdefined
    have hfew : sumTemps 20 ≤ UInt32.size := by
      rw [sumTemps_twenty]
      decide
    exact hdefined (Nat.add_le_add_left hfew _)

/-- A wrapping builder builds the chain as often as it is asked to. -/
theorem serveAll_sums (count : Nat) :
    ∀ b : Builder32, ∃ answers, b.serveAll .wraps sums (List.replicate count (.function sum))
      = some (answers, ⟨b.temps + .ofNat (count * sumTemps 20)⟩) := by
  induction count with
  | zero =>
      intro b
      refine ⟨[], congrArg (fun temps => some ([], Builder32.mk temps)) ?_⟩
      rw [Nat.zero_mul]
      exact (UInt32.add_zero b.temps).symm
  | succ count ih =>
      intro b
      obtain ⟨code, hfirst, -⟩ := build_sums_wraps b
      obtain ⟨answers, hrest⟩ := ih ⟨b.temps + .ofNat (sumTemps 20)⟩
      have hserve : b.serve .wraps sums (.function sum)
          = some (.ok code, ⟨b.temps + .ofNat (sumTemps 20)⟩) := hfirst
      refine ⟨.ok code :: answers, ?_⟩
      rw [List.replicate_succ, serveAll_cons, hserve, Option.bind_some, hrest, Nat.succ_mul,
        Nat.add_comm _ (sumTemps 20), UInt32.ofNat_add, ← UInt32.add_assoc]
      rfl

/-- A builder that counts without bound takes as much for each of them. -/
theorem after_sums (count : Nat) :
    ∀ b : Builder, (b.after sums (List.replicate count (.function sum))).temps
      = b.temps + count * sumTemps 20 := by
  induction count with
  | zero => exact fun b => (Nat.zero_mul _).symm ▸ rfl
  | succ count ih =>
      intro b
      obtain ⟨code, hbuild⟩ := build_sums b.temps
      have hserve : b.serve sums (.function sum) = (.ok code, ⟨b.temps + sumTemps 20⟩) := hbuild
      show (Builder.after (b.serve sums (.function sum)).2 sums _).temps = _
      rw [hserve, ih, Nat.succ_mul, Nat.add_comm (count * _), ← Nat.add_assoc]

/-- After 4096 builds of the last sum the next one ends below where it
began, although it defines temporaries. -/
theorem numbering_wraps :
    ∃ answers b code b',
      Builder32.serveAll .wraps {} sums (List.replicate 4096 (.function sum)) = some (answers, b)
      ∧ b.build .wraps sums sum = some (.ok code, b') ∧ b'.temps < b.temps
      ∧ definedTemps code ≠ List.Ico b.temps.toNat b'.temps.toNat := by
  obtain ⟨answers, hanswers⟩ := serveAll_sums 4096 {}
  obtain ⟨code, hbuild, hdefined⟩ := build_sums_wraps ⟨0 + .ofNat (4096 * sumTemps 20)⟩
  have hback : (0 : UInt32) + .ofNat (4096 * sumTemps 20) + .ofNat (sumTemps 20)
      < 0 + .ofNat (4096 * sumTemps 20) := by
    rw [sumTemps_twenty]
    decide
  refine ⟨answers, _, code, _, hanswers, hbuild, hback, fun hsame => ?_⟩
  have hempty : List.Ico ((0 : UInt32) + .ofNat (4096 * sumTemps 20)).toNat
      ((0 : UInt32) + .ofNat (4096 * sumTemps 20) + .ofNat (sumTemps 20)).toNat = [] :=
    List.Ico.eq_nil_of_le (Nat.le_of_lt hback)
  have hlength := congrArg List.length (hdefined.symm.trans (hsame.trans hempty))
  rw [List.length_map, List.Ico.length, Nat.add_sub_cancel_left, sumTemps_twenty] at hlength
  cases hlength

/-- Of 4097 builds of the last sum, the last shares a temporary with the
first if the counter wraps; if it panics there is no last. -/
theorem history_wraps :
    (∃ answers b, Builder32.serveAll .wraps {} sums (List.replicate 4097 (.function sum))
        = some (answers, b) ∧ ¬ answers.Pairwise Apart)
    ∧ Builder32.serveAll .panics {} sums (List.replicate 4097 (.function sum)) = none := by
  constructor
  · obtain ⟨first, hfirst, hdefined⟩ := build_sums_wraps {}
    obtain ⟨middle, hmiddle⟩ := serveAll_sums 4095 ⟨0 + .ofNat (sumTemps 20)⟩
    obtain ⟨last, hlast, hdefined'⟩ :=
      build_sums_wraps ⟨0 + .ofNat (sumTemps 20) + .ofNat (4095 * sumTemps 20)⟩
    have hrequests : List.replicate 4097 (Request.function sum)
        = .function sum :: (List.replicate 4095 (.function sum) ++ [.function sum]) := by
      rw [← List.replicate_succ', ← List.replicate_succ]
    have hall : ∃ b, Builder32.serveAll .wraps {} sums (List.replicate 4097 (.function sum))
        = some (.ok first :: (middle ++ [.ok last]), b) := by
      have hserve : Builder32.serve .wraps {} sums (.function sum) = _ := hfirst
      have hserve' : Builder32.serve .wraps _ sums (.function sum) = _ := hlast
      rw [hrequests, serveAll_cons, hserve, Option.bind_some, serveAll_append, hmiddle,
        Option.bind_some, serveAll_cons, hserve', Option.bind_some]
      exact ⟨_, rfl⟩
    -- the first list has the temporary 0, and so has the last, behind 2^32 - 1
    have hzero : 0 ∈ definedTemps first := by
      rw [hdefined]
      refine List.mem_map.mpr ⟨0, List.Ico.mem.mpr ⟨Nat.le_refl 0, ?_⟩, rfl⟩
      rw [sumTemps_twenty]
      decide
    have hzero' : 0 ∈ definedTemps last := by
      rw [hdefined']
      refine List.mem_map.mpr ⟨UInt32.size, List.Ico.mem.mpr ⟨?_, ?_⟩, rfl⟩
      · exact Nat.le_of_lt (UInt32.toNat_lt_size _)
      · rw [sumTemps_twenty]
        decide
    obtain ⟨b, hall⟩ := hall
    refine ⟨_, b, hall, fun hapart => ?_⟩
    have hends := (List.pairwise_cons.mp hapart).1 (.ok last)
      (List.mem_append_right _ List.mem_cons_self)
    rcases hends first last rfl rfl 0 with hfree | hfree
    · exact hfree.of_mem_definedTemps hzero rfl
    · exact hfree.of_mem_definedTemps hzero' rfl
  · refine serveAll_panics_iff.mpr ?_
    rw [after_sums, sumTemps_twenty]
    decide

end ExprGraph.SSA
