/-
No decimal reads back as two doubles.

The doubles are put in a row by exponent and then by mantissa. Of two
neighbours the interval of the one ends where that of the other begins, at
the latest; and if the two share that end, one of the mantissas is odd, so
the end belongs to one of them only (`upperQuarters_cases`). Across a change
of the exponent this needs the narrower gap below a power of two: the last
mantissa in front of it is odd.
-/
import ExprGraph.Decimal.ReadBack
import Mathlib.Algebra.Order.Field.Power
import Mathlib.Algebra.Order.Field.Rat
import Mathlib.Tactic.Positivity
import Mathlib.Tactic.Ring

namespace ExprGraph.Decimal

-- ============================================================ exact values

/-- The exact value of a decimal. -/
def Number.value (d : Number) : ℚ :=
  d.digits * 10 ^ d.power

/-- A quarter of the spacing of doubles at `b`. -/
def Binary.quarterStep (b : Binary) : ℚ :=
  2 ^ (b.exponent - 2)

theorem Binary.quarterStep_pos (b : Binary) : 0 < b.quarterStep :=
  zpow_pos two_pos _

/-- The two scales of an exponent make a power. -/
theorem scale_eq (base : Nat) (hbase : base ≠ 0) (e : Int) :
    (scale base e : ℚ) = base ^ e * scale base (-e) := by
  have hne : (base : ℚ) ≠ 0 := Nat.cast_ne_zero.mpr hbase
  have hscale : ∀ e : Int, (scale base e : ℚ) = base ^ (e.toNat : Int) := by
    intro e
    rw [zpow_natCast]
    exact Nat.cast_pow base e.toNat
  rw [hscale, hscale, ← zpow_add₀ hne]
  congr 1
  omega

/-- A grid puts its power of ten in proportion to the quarter step. -/
theorem Binary.grid_ratio (b : Binary) (power : Int) :
    ((b.grid power).ten : ℚ) * b.quarterStep = (b.grid power).quarter * 10 ^ power := by
  have hten := scale_eq 10 (by decide) power
  have htwo := scale_eq 2 (by decide) (b.exponent - 2)
  rw [Int.neg_sub] at htwo
  unfold grid quarterStep
  push_cast at hten htwo ⊢
  rw [hten, htwo]
  ring

theorem Binary.grid_value (b : Binary) (d : Number) :
    (d.digits : ℚ) * (b.grid d.power).ten * b.quarterStep
      = d.value * (b.grid d.power).quarter := by
  rw [mul_assoc, b.grid_ratio, Number.value]
  ring

/-- Whether a multiple on a grid is below, or above, some quarter steps is
a matter of the values alone. -/
theorem Binary.grid_le_iff (b : Binary) (d : Number) (quarters : Nat) :
    d.digits * (b.grid d.power).ten ≤ quarters * (b.grid d.power).quarter
      ↔ d.value ≤ quarters * b.quarterStep := by
  have hquarter : (0 : ℚ) < (b.grid d.power).quarter :=
    Nat.cast_pos.mpr (b.grid_quarter_pos d.power)
  rw [← @Nat.cast_le ℚ, Nat.cast_mul, Nat.cast_mul,
    ← mul_le_mul_iff_of_pos_right b.quarterStep_pos, b.grid_value, mul_right_comm,
    mul_le_mul_iff_of_pos_right hquarter]

theorem Binary.le_grid_iff (b : Binary) (d : Number) (quarters : Nat) :
    quarters * (b.grid d.power).quarter ≤ d.digits * (b.grid d.power).ten
      ↔ quarters * b.quarterStep ≤ d.value := by
  have hquarter : (0 : ℚ) < (b.grid d.power).quarter :=
    Nat.cast_pos.mpr (b.grid_quarter_pos d.power)
  rw [← @Nat.cast_le ℚ, Nat.cast_mul, Nat.cast_mul,
    ← mul_le_mul_iff_of_pos_right b.quarterStep_pos, b.grid_value, mul_right_comm _ _ b.quarterStep,
    mul_le_mul_iff_of_pos_right hquarter]

/-- A decimal that reads back as `b` lies in the interval of `b`, and on
an end of it only if the mantissa is even. -/
theorem readsBack_bounds {b : Binary} {d : Number} (h : readsBack b d = true) :
    b.lowerQuarters * b.quarterStep ≤ d.value ∧ d.value ≤ b.upperQuarters * b.quarterStep
      ∧ (b.mantissa % 2 = 1 → b.lowerQuarters * b.quarterStep < d.value
        ∧ d.value < b.upperQuarters * b.quarterStep) := by
  rw [← b.le_grid_iff, ← b.grid_le_iff, ← not_le (a := d.value), ← not_le (b := d.value),
    ← b.le_grid_iff, ← b.grid_le_iff, Nat.not_le, Nat.not_le]
  unfold readsBack Grid.holds at h
  dsimp only at h
  split at h
  · simp only [Bool.and_eq_true, decide_eq_true_eq] at h
    exact ⟨h.1, h.2, fun hodd => by omega⟩
  · simp only [Bool.and_eq_true, decide_eq_true_eq] at h
    exact ⟨Nat.le_of_lt h.1, Nat.le_of_lt h.2, fun _ => h⟩

-- ================================================================ the row

/-- The mantissa and the exponent of a double: all doubles but the least
have the hidden bit. -/
structure Binary.Canonical (b : Binary) : Prop where
  mantissa_pos : 0 < b.mantissa
  mantissa_lt : b.mantissa < 2 * minNormalMantissa
  minExponent_le : minExponent ≤ b.exponent
  normal : minExponent < b.exponent → minNormalMantissa ≤ b.mantissa

/-- `b` stands in front of `c` in the row. -/
def Binary.Precedes (b c : Binary) : Prop :=
  b.exponent < c.exponent ∨ b.exponent = c.exponent ∧ b.mantissa < c.mantissa

theorem Binary.precedes_total (b c : Binary) : b.Precedes c ∨ b = c ∨ c.Precedes b := by
  obtain ⟨m, e⟩ := b
  obtain ⟨m', e'⟩ := c
  simp only [Precedes, Binary.mk.injEq]
  omega

/-- Of two doubles in the row the interval of the first ends in front of
that of the second, or at its beginning; then one of them leaves the point
to the other. -/
theorem upperQuarters_cases {b c : Binary} (hb : b.Canonical) (hc : c.Canonical)
    (h : b.Precedes c) : ∃ shift : Nat, c.exponent = b.exponent + shift
      ∧ (b.upperQuarters < c.lowerQuarters * 2 ^ shift
        ∨ b.upperQuarters = c.lowerQuarters * 2 ^ shift
          ∧ (b.mantissa % 2 = 1 ∨ c.mantissa % 2 = 1)) := by
  obtain ⟨hpos, hlt, hmin, hnormal⟩ := hb
  obtain ⟨hpos', hlt', hmin', hnormal'⟩ := hc
  have hhidden : minNormalMantissa = 4503599627370496 := rfl
  unfold Binary.upperQuarters Binary.lowerQuarters
  rcases h with hexp | ⟨hexp, hmantissa⟩
  · obtain ⟨shift, hshift⟩ : ∃ shift : Nat, c.exponent = b.exponent + (shift + 1 : Nat) :=
      ⟨(c.exponent - b.exponent - 1).toNat, by omega⟩
    refine ⟨shift + 1, hshift, ?_⟩
    have hhidden' := hnormal' (by omega)
    have hpow : 2 ≤ 2 ^ (shift + 1) := Nat.le_self_pow (Nat.succ_ne_zero shift) 2
    split
    · have hdouble := Nat.mul_le_mul_left (4 * c.mantissa - 1) hpow
      omega
    · have hdouble := Nat.mul_le_mul_left (4 * c.mantissa - 2) hpow
      omega
  · refine ⟨0, by omega, ?_⟩
    rw [Nat.pow_zero, Nat.mul_one]
    split <;> omega

/-- What reads back as a double is below what reads back as a later one. -/
theorem value_lt_of_precedes {b c : Binary} {d d' : Number} (hb : b.Canonical) (hc : c.Canonical)
    (h : b.Precedes c) (hd : readsBack b d = true) (hd' : readsBack c d' = true) :
    d.value < d'.value := by
  obtain ⟨shift, hshift, hcases⟩ := upperQuarters_cases hb hc h
  obtain ⟨-, hle, hodd⟩ := readsBack_bounds hd
  obtain ⟨hge, -, hodd'⟩ := readsBack_bounds hd'
  have hstep : c.quarterStep = 2 ^ shift * b.quarterStep := by
    have hexp : c.exponent - 2 = (shift : Int) + (b.exponent - 2) := by omega
    rw [Binary.quarterStep, hexp, zpow_add₀ two_ne_zero, zpow_natCast, Binary.quarterStep]
  have hlower : (c.lowerQuarters : ℚ) * c.quarterStep
      = (c.lowerQuarters * 2 ^ shift : Nat) * b.quarterStep := by
    rw [hstep]
    push_cast
    ring
  rw [hlower] at hge hodd'
  rcases hcases with hlt | ⟨heq, hside⟩
  · have hends : (b.upperQuarters : ℚ) * b.quarterStep
        < (c.lowerQuarters * 2 ^ shift : Nat) * b.quarterStep :=
      mul_lt_mul_of_pos_right (Nat.cast_lt.mpr hlt) b.quarterStep_pos
    exact lt_of_le_of_lt hle (lt_of_lt_of_le hends hge)
  · rw [← heq] at hge hodd'
    rcases hside with hside | hside
    · exact lt_of_lt_of_le (hodd hside).2 hge
    · exact lt_of_le_of_lt hle (hodd' hside).1

/-- Decimals of one value read back as one double. -/
theorem eq_of_readsBack {b c : Binary} {d d' : Number} (hb : b.Canonical) (hc : c.Canonical)
    (hd : readsBack b d = true) (hd' : readsBack c d' = true) (hvalue : d.value = d'.value) :
    b = c := by
  rcases b.precedes_total c with h | h | h
  · exact absurd hvalue (ne_of_lt (value_lt_of_precedes hb hc h hd hd'))
  · exact h
  · exact absurd hvalue.symm (ne_of_lt (value_lt_of_precedes hc hb h hd' hd))

/-- What reads back as a double is not zero. -/
theorem value_pos_of_readsBack {b : Binary} {d : Number} (hb : b.Canonical)
    (hd : readsBack b d = true) : 0 < d.value := by
  obtain ⟨hge, -, -⟩ := readsBack_bounds hd
  have hpos := hb.mantissa_pos
  have hlower : 0 < b.lowerQuarters := by
    unfold Binary.lowerQuarters
    split <;> omega
  exact lt_of_lt_of_le (mul_pos (Nat.cast_pos.mpr hlower) b.quarterStep_pos) hge

end ExprGraph.Decimal
