/-
What is written for a double reads back as that double.

Two things are shown of the search. Whatever grid it stops at, its answer
lies in the rounding interval (`readsBack_shortest`). And it passes over a
grid only if no multiple there lies in the interval
(`onGrid_eq_none_iff`): the interval is on both sides of the double, so if
it holds any multiple it holds one of the double's two neighbours.
-/
import ExprGraph.Decimal.Shortest

namespace ExprGraph.Decimal

-- ========================================================= the common unit

/-- Steps have a size, on every grid. -/
theorem scale_pos {base : Nat} (positive : 0 < base) (e : Int) : 0 < scale base e :=
  Nat.pow_pos positive

theorem Binary.grid_ten_pos (b : Binary) (power : Int) : 0 < (b.grid power).ten :=
  Nat.mul_pos (scale_pos (by decide) _) (scale_pos (by decide) _)

theorem Binary.grid_quarter_pos (b : Binary) (power : Int) : 0 < (b.grid power).quarter :=
  Nat.mul_pos (scale_pos (by decide) _) (scale_pos (by decide) _)

/-- On its own grid the exact value of `b` is four quarter steps for each
unit of the mantissa. -/
theorem exact_mul_ten (b : Binary) :
    (exact b).digits * (b.grid (exact b).power).ten =
      4 * b.mantissa * (b.grid (exact b).power).quarter := by
  obtain ⟨m, e⟩ := b
  simp only [exact, Binary.grid, scale]
  by_cases negative : e < 0
  · obtain ⟨n, rfl⟩ : ∃ n : Nat, e = -(n : Int) := ⟨e.natAbs, by omega⟩
    have e1 : (2 - (-(n : Int))).toNat = n + 2 := by omega
    have e2 : (-(n : Int) - 2).toNat = 0 := by omega
    have e3 : (- -(n : Int)).toNat = n := by omega
    have e4 : (-(n : Int)).toNat = 0 := by omega
    have tens : Nat.pow 10 n = Nat.pow 2 n * Nat.pow 5 n := Nat.mul_pow 2 5 n
    have quarters : Nat.pow 2 (n + 2) = Nat.pow 2 n * 4 := Nat.mul_assoc (Nat.pow 2 n) 2 2
    rw [if_pos negative, e1, e2, e3, e4, tens, quarters]
    show m * 1 * Nat.pow 5 n * (1 * (Nat.pow 2 n * 4)) =
      4 * m * (1 * (Nat.pow 2 n * Nat.pow 5 n))
    ac_nf
  · obtain ⟨n, rfl⟩ : ∃ n : Nat, e = n := ⟨e.natAbs, by omega⟩
    have e1 : (-(n : Int)).toNat = 0 := by omega
    rw [if_neg negative, e1, Int.toNat_natCast]
    show m * Nat.pow 2 n * 1 * (1 * Nat.pow 2 (2 - (n : Int)).toNat) =
      4 * m * (Nat.pow 2 ((n : Int) - 2).toNat * 1)
    cases n with
    | zero => show m * 1 * 1 * (1 * 4) = 4 * m * (1 * 1); omega
    | succ n =>
      cases n with
      | zero => show m * 2 * 1 * (1 * 2) = 4 * m * (1 * 1); omega
      | succ k =>
        have e2 : (2 - ((k + 1 + 1 : Nat) : Int)).toNat = 0 := by omega
        have e3 : (((k + 1 + 1 : Nat) : Int) - 2).toNat = k := by omega
        rw [e2, e3]
        show m * (Nat.pow 2 k * 2 * 2) * 1 * (1 * 1) = 4 * m * (Nat.pow 2 k * 1)
        rw [Nat.mul_assoc (Nat.pow 2 k) 2 2]
        simp only [Nat.mul_one]
        ac_nf

-- ============================================================ the interval

/-- The interval goes down from the double, by a quarter step or two. -/
theorem Binary.lowerQuarters_le (b : Binary) : b.lowerQuarters ≤ 4 * b.mantissa := by
  simp only [Binary.lowerQuarters]
  split <;> omega

/-- Something is below a double that is not zero. -/
theorem Binary.lowerQuarters_lt {b : Binary} (positive : 0 < b.mantissa) :
    b.lowerQuarters < 4 * b.mantissa := by
  simp only [Binary.lowerQuarters]
  split <;> omega

/-- Something is above every double. -/
theorem Binary.lt_upperQuarters (b : Binary) : 4 * b.mantissa < b.upperQuarters :=
  Nat.lt_add_of_pos_right (by decide)

/-- A multiple in the interval below `b` stays in it when it moves towards
`b`. -/
theorem Grid.holds_of_le {g : Grid} {b : Binary} {digits closer : Nat}
    (h : g.holds b digits = true) (le : digits ≤ closer)
    (below : closer * g.ten ≤ 4 * b.mantissa * g.quarter) (positive : 0 < g.quarter) :
    g.holds b closer = true := by
  have moved : digits * g.ten ≤ closer * g.ten := Nat.mul_le_mul_right _ le
  have upper : 4 * b.mantissa * g.quarter < b.upperQuarters * g.quarter :=
    Nat.mul_lt_mul_of_pos_right b.lt_upperQuarters positive
  simp only [Grid.holds] at h ⊢
  split at h <;>
    simp only [*, Bool.and_eq_true, decide_eq_true_eq, if_true, if_false] at h ⊢ <;> omega

/-- A multiple in the interval above `b` stays in it when it moves towards
`b`. -/
theorem Grid.holds_of_ge {g : Grid} {b : Binary} {digits closer : Nat}
    (h : g.holds b digits = true) (le : closer ≤ digits)
    (above : 4 * b.mantissa * g.quarter < closer * g.ten) : g.holds b closer = true := by
  have moved : closer * g.ten ≤ digits * g.ten := Nat.mul_le_mul_right _ le
  have lower : b.lowerQuarters * g.quarter ≤ 4 * b.mantissa * g.quarter :=
    Nat.mul_le_mul_right _ b.lowerQuarters_le
  simp only [Grid.holds] at h ⊢
  split at h <;>
    simp only [*, Bool.and_eq_true, decide_eq_true_eq, if_true, if_false] at h ⊢ <;> omega

-- ================================================================ one grid

/-- What is found on a grid lies in the interval. -/
theorem readsBack_of_onGrid {b : Binary} {power : Int} {d : Number} (h : onGrid b power = some d) :
    readsBack b d = true := by
  simp only [onGrid] at h
  split at h
  · rename_i upper
    cases h
    exact (Bool.and_eq_true_iff.mp upper).1
  · split at h
    · rename_i lower
      cases h
      exact (Bool.and_eq_true_iff.mp lower).2
    · cases h

/-- A grid is passed over iff no multiple on it reads back. -/
theorem onGrid_eq_none_iff {b : Binary} {power : Int} :
    onGrid b power = none ↔ ∀ digits, 0 < digits → readsBack b ⟨digits, power⟩ = false := by
  constructor
  · intro passed digits positive
    apply Bool.eq_false_iff.mpr
    intro found
    simp only [onGrid] at passed
    by_cases le : digits ≤ (b.grid power).below b
    · have low := Grid.holds_of_le found le (Nat.div_mul_le_self _ _) (b.grid_quarter_pos power)
      have nonzero : (b.grid power).below b ≠ 0 := by omega
      split at passed <;> simp_all
    · have next : 4 * b.mantissa * (b.grid power).quarter <
          ((b.grid power).below b + 1) * (b.grid power).ten := by
        rw [Nat.add_mul, Nat.one_mul]
        exact Nat.lt_div_mul_add (b.grid_ten_pos power)
      have high := Grid.holds_of_ge found (Nat.lt_of_not_le le) next
      split at passed <;> simp_all
  · intro nothing
    have high := nothing ((b.grid power).below b + 1) (Nat.succ_pos _)
    have low := nothing ((b.grid power).below b)
    simp only [readsBack] at high low
    simp only [onGrid, high, Bool.false_and, Bool.false_eq_true, if_false]
    split
    · rename_i lowHolds
      obtain ⟨nonzero, holds⟩ := Bool.and_eq_true_iff.mp lowHolds
      simp [low (Nat.pos_of_ne_zero (by simpa using nonzero))] at holds
    · rfl

-- ============================================================== the answer

/-- The exact value reads back. -/
theorem readsBack_exact {b : Binary} (positive : 0 < b.mantissa) : readsBack b (exact b) = true := by
  have lower := Nat.mul_lt_mul_of_pos_right (Binary.lowerQuarters_lt positive)
    (b.grid_quarter_pos (exact b).power)
  have upper := Nat.mul_lt_mul_of_pos_right b.lt_upperQuarters
    (b.grid_quarter_pos (exact b).power)
  simp only [readsBack, Grid.holds, exact_mul_ten]
  split <;> simp only [Bool.and_eq_true, decide_eq_true_eq] <;> omega

/-- The search answers with what was found on a grid, or with the exact
value. -/
theorem readsBack_search {b : Binary} (positive : 0 < b.mantissa) (tries : Nat) (power : Int) :
    readsBack b (search b tries power) = true := by
  induction tries generalizing power with
  | zero => exact readsBack_exact positive
  | succ tries ih =>
    simp only [search]
    split
    · exact readsBack_of_onGrid ‹_›
    · exact ih _

/-- What is written for a double reads back as it. -/
theorem readsBack_shortest {b : Binary} (positive : 0 < b.mantissa) :
    readsBack b (shortest b) = true :=
  readsBack_search positive _ _

end ExprGraph.Decimal
