/-
The slot that an index addresses.

An index is a double. Where it stands on the line of the rationals, with
an end at either side for the infinities, is `place?`. The order of doubles
is the order of places (`lt_iff_place`): the exponent comes before the
mantissa, and all doubles but the least have the hidden bit. The conversion
to an integer truncates (`toNat_toUInt64`). So the checks in front of an
element access come to one rule about places (`Symbol.Addresses`), which
has one answer for every index (`addresses_iff_slot`).
-/
import ExprGraph.Access
import ExprGraph.Proofs.Comparisons
import Mathlib.Algebra.Order.Floor.Semifield
import Mathlib.Data.Rat.Floor
import Mathlib.Tactic.Linarith

namespace ExprGraph

open Float.Model Float.Model.UnpackedFloat

-- ================================================================== places

/-- The line of the rationals with both of its ends. -/
abbrev Line := WithBot (WithTop ℚ)

/-- A point between the ends. -/
def Line.point (q : ℚ) : Line := ((q : WithTop ℚ) : WithBot (WithTop ℚ))

/-- The upper end. -/
def Line.top : Line := ((⊤ : WithTop ℚ) : WithBot (WithTop ℚ))

theorem Line.point_lt {q r : ℚ} : Line.point q < Line.point r ↔ q < r := by
  simp [Line.point]

theorem Line.point_inj {q r : ℚ} : Line.point q = Line.point r ↔ q = r := by
  simp [Line.point]

@[simp] theorem Line.bot_lt_point (q : ℚ) : ⊥ < Line.point q := WithBot.bot_lt_coe _

@[simp] theorem Line.point_lt_top (q : ℚ) : Line.point q < Line.top :=
  WithBot.coe_lt_coe.mpr (WithTop.coe_lt_top q)

@[simp] theorem Line.not_top_lt (v : Line) : ¬Line.top < v :=
  not_lt_of_ge le_top

@[simp] theorem Line.bot_lt_top : ⊥ < Line.top := WithBot.bot_lt_coe _

namespace Decimal.Binary

/-- The number that a mantissa and an exponent say. -/
def value (b : Binary) : ℚ := b.mantissa * 2 ^ b.exponent

variable {b c : Binary}

theorem value_pos (h : 0 < b.mantissa) : 0 < b.value :=
  mul_pos (Nat.cast_pos.mpr h) (zpow_pos two_pos _)

/-- What stands in front in the row is less. -/
theorem value_lt_of_precedes (hb : b.Canonical) (hc : c.Canonical) (h : b.Precedes c) :
    b.value < c.value := by
  unfold value
  rcases h with hexponent | ⟨hexponent, hmantissa⟩
  · -- the mantissa has no more than one bit more than the other
    have hhidden : minNormalMantissa ≤ c.mantissa :=
      hc.normal (Int.lt_of_le_of_lt hb.minExponent_le hexponent)
    have hmantissa : b.mantissa < c.mantissa * 2 := by
      have hlt := hb.mantissa_lt
      omega
    have hscale : (2 : ℚ) * 2 ^ b.exponent ≤ 2 ^ c.exponent := by
      rw [← zpow_one_add₀ two_ne_zero]
      exact zpow_le_zpow_right₀ one_le_two (by omega)
    calc (b.mantissa : ℚ) * 2 ^ b.exponent
        < (c.mantissa * 2 : ℕ) * 2 ^ b.exponent :=
          mul_lt_mul_of_pos_right (Nat.cast_lt.mpr hmantissa) (zpow_pos two_pos _)
      _ = c.mantissa * (2 * 2 ^ b.exponent) := by push_cast; ring
      _ ≤ c.mantissa * 2 ^ c.exponent := mul_le_mul_of_nonneg_left hscale (Nat.cast_nonneg _)
  · rw [hexponent]
    exact mul_lt_mul_of_pos_right (Nat.cast_lt.mpr hmantissa) (zpow_pos two_pos _)

/-- The row is in order of the numbers. -/
theorem precedes_iff (hb : b.Canonical) (hc : c.Canonical) : b.Precedes c ↔ b.value < c.value := by
  refine ⟨value_lt_of_precedes hb hc, fun hlt => ?_⟩
  rcases precedes_total b c with h | rfl | h
  · exact h
  · exact absurd hlt (lt_irrefl _)
  · exact absurd hlt (lt_asymm (value_lt_of_precedes hc hb h))

/-- Exponents are compared before mantissas. -/
theorem precedes_iff_compare :
    b.Precedes c ↔ (compare b.exponent c.exponent).then (compare b.mantissa c.mantissa) = .lt := by
  rw [Ordering.then_eq_lt, Int.compare_eq_lt, Int.compare_eq_eq, Nat.compare_eq_lt]
  rfl

end Decimal.Binary

open Decimal

/-- The number with this sign. -/
def withSign (s : Sign) (q : ℚ) : ℚ :=
  match s with
  | .negative => -q
  | .positive => q

/-- Where the fields of a double place it; a NaN is nowhere. -/
def fieldsPlace? : UnpackedFloat → Option Line
  | .notANumber => none
  | .infinity .negative => some ⊥
  | .infinity .positive => some Line.top
  | .zero _ => some (.point 0)
  | .finite s m e _ => some (.point (withSign s (Binary.value ⟨m, e⟩)))

/-- Where on the line a double is. -/
def place? (x : Float) : Option Line := fieldsPlace? (fieldsOf x)

/-- The mantissa and the exponent of a double. -/
theorem canonical_of_fieldsOf {x : Float} {s : Sign} {m : Nat} {e : Int} {hm : 0 < m}
    (hx : fieldsOf x = .finite s m e hm) : (⟨m, e⟩ : Binary).Canonical := by
  have hhidden : minNormalMantissa = 2 ^ 52 := rfl
  have hleast : minExponent = -1074 := rfl
  have hmantissa : (mantissaField (bitsOf x)).toNat < 2 ^ 52 := (mantissaField (bitsOf x)).isLt
  have hfields : UnpackedFloat.unpack Format.binary64 (bitsOf x) = .finite s m e hm := hx
  unfold UnpackedFloat.unpack at hfields
  dsimp only at hfields
  by_cases hones : exponentField (bitsOf x) = -1#_
  · rw [if_pos hones] at hfields
    by_cases hnothing : mantissaField (bitsOf x) = 0#_
    · rw [if_pos hnothing] at hfields
      cases hfields
    · rw [if_neg hnothing] at hfields
      cases hfields
  · rw [if_neg hones] at hfields
    by_cases hzero : exponentField (bitsOf x) = 0#_
    · rw [if_pos hzero] at hfields
      by_cases hnothing : mantissaField (bitsOf x) = 0#_
      · rw [dif_pos hnothing] at hfields
        cases hfields
      · rw [dif_neg hnothing] at hfields
        have hbiased : (exponentField (bitsOf x)).toNat = 0 := congrArg BitVec.toNat hzero
        have hexponent :
            ((exponentField (bitsOf x)).toNat : Int) - ((1023 : Nat) + (52 : Nat)) + 1 = e :=
          (UnpackedFloat.finite.inj hfields).2.2
        have hsame : (mantissaField (bitsOf x)).toNat = m := (UnpackedFloat.finite.inj hfields).2.1
        refine ⟨hm, ?_, ?_, ?_⟩
        all_goals dsimp only
        all_goals omega
    · rw [if_neg hzero] at hfields
      have hbiased : (exponentField (bitsOf x)).toNat ≠ 0 := fun hnone =>
        hzero (BitVec.eq_of_toNat_eq hnone)
      have hexponent : ((exponentField (bitsOf x)).toNat : Int) - ((1023 : Nat) + (52 : Nat)) = e :=
        (UnpackedFloat.finite.inj hfields).2.2
      have hsame : (1#1 ++ mantissaField (bitsOf x)).toNat = m :=
        (UnpackedFloat.finite.inj hfields).2.1
      rw [BitVec.toNat_append, ← Nat.shiftLeft_add_eq_or_of_lt hmantissa, Nat.shiftLeft_eq] at hsame
      have hone : (1#1).toNat = 1 := rfl
      refine ⟨hm, ?_, ?_, ?_⟩
      all_goals dsimp only
      all_goals omega

section Order

variable {u w : UnpackedFloat}

/-- The fields are those of some double. -/
def Proper (u : UnpackedFloat) : Prop :=
  ∀ {s : Sign} {m : Nat} {e : Int} {hm : 0 < m}, u = .finite s m e hm → (⟨m, e⟩ : Binary).Canonical

/-- Numbers stand in the order of their values. -/
theorem compare_finite (s s' : Sign) {m m' : Nat} {e e' : Int} {hm : 0 < m} {hm' : 0 < m'}
    (hb : (⟨m, e⟩ : Binary).Canonical) (hc : (⟨m', e'⟩ : Binary).Canonical) :
    (UnpackedFloat.finite s m e hm).compare (.finite s' m' e' hm') = some .lt
      ↔ withSign s (Binary.value ⟨m, e⟩) < withSign s' (Binary.value ⟨m', e'⟩) := by
  have hpos : 0 < Binary.value ⟨m, e⟩ := Binary.value_pos hm
  have hpos' : 0 < Binary.value ⟨m', e'⟩ := Binary.value_pos hm'
  cases s with
  | negative =>
      cases s' with
      | negative =>
          have hback := Binary.precedes_iff hc hb
          rw [Binary.precedes_iff_compare] at hback
          show some ((compare e e').then (compare m m')).swap = some .lt ↔ -_ < -_
          rw [Option.some.injEq, Ordering.swap_then, Int.compare_swap, Nat.compare_swap, hback,
            neg_lt_neg_iff]
      | positive => exact iff_of_true rfl (lt_trans (neg_lt_zero.mpr hpos) hpos')
  | positive =>
      cases s' with
      | negative =>
          exact iff_of_false nofun (not_lt_of_gt (lt_trans (neg_lt_zero.mpr hpos') hpos))
      | positive =>
          have hforth := Binary.precedes_iff hb hc
          rw [Binary.precedes_iff_compare] at hforth
          show some ((compare e e').then (compare m m')) = some .lt ↔ _
          rw [Option.some.injEq, hforth]
          rfl

/-- The sign places a number before zero or behind. -/
theorem compare_zero (s s' : Sign) {m : Nat} {e : Int} (hm : 0 < m) :
    ((UnpackedFloat.zero s').compare (.finite s m e hm) = some .lt
      ↔ 0 < withSign s (Binary.value ⟨m, e⟩))
    ∧ ((UnpackedFloat.finite s m e hm).compare (.zero s') = some .lt
      ↔ withSign s (Binary.value ⟨m, e⟩) < 0) := by
  have hpos : 0 < Binary.value ⟨m, e⟩ := Binary.value_pos hm
  cases s with
  | negative =>
      have hneg : -Binary.value ⟨m, e⟩ < 0 := neg_lt_zero.mpr hpos
      exact ⟨iff_of_false nofun (not_lt_of_gt hneg), iff_of_true rfl hneg⟩
  | positive => exact ⟨iff_of_true rfl hpos, iff_of_false nofun (not_lt_of_gt hpos)⟩

/-- A number is on the inner side of an infinity. -/
theorem compare_infinity {s' : Sign} {v v' : Line} (hv : fieldsPlace? u = some v)
    (hv' : fieldsPlace? (.infinity s') = some v') (hinf : ∀ s, u ≠ .infinity s) :
    u.compare (.infinity s') = some .lt ↔ v < v' := by
  cases s' with
  | negative =>
      cases hv'
      refine iff_of_false ?_ not_lt_bot
      cases u with
      | notANumber => cases hv
      | infinity s => exact absurd rfl (hinf s)
      | _ => nofun
  | positive =>
      cases hv'
      cases u with
      | notANumber => cases hv
      | infinity s => exact absurd rfl (hinf s)
      | _ =>
          cases hv
          exact iff_of_true rfl (Line.point_lt_top _)

/-- What is less stands in front on the line. -/
theorem compare_eq_lt_iff (hu : Proper u) (hw : Proper w) {v v' : Line}
    (hv : fieldsPlace? u = some v) (hv' : fieldsPlace? w = some v') :
    u.compare w = some .lt ↔ v < v' := by
  cases u with
  | notANumber => cases hv
  | infinity s =>
      cases w with
      | notANumber => cases hv'
      | infinity s' =>
          cases s with
          | negative =>
              cases hv
              cases s' with
              | negative =>
                  cases hv'
                  exact iff_of_false nofun (lt_irrefl _)
              | positive =>
                  cases hv'
                  exact iff_of_true rfl Line.bot_lt_top
          | positive =>
              cases hv
              cases s' <;> exact iff_of_false nofun (Line.not_top_lt _)
      | zero | finite =>
          cases s with
          | negative =>
              cases hv
              cases hv'
              exact iff_of_true rfl (Line.bot_lt_point _)
          | positive =>
              cases hv
              exact iff_of_false nofun (Line.not_top_lt _)
  | zero s =>
      cases w with
      | notANumber => cases hv'
      | infinity s' => exact compare_infinity hv hv' nofun
      | zero s' =>
          cases hv
          cases hv'
          exact iff_of_false nofun (lt_irrefl _)
      | finite s' m' e' hm' =>
          cases hv
          cases hv'
          rw [Line.point_lt]
          exact (compare_zero s' s hm').1
  | finite s m e hm =>
      cases w with
      | notANumber => cases hv'
      | infinity s' => exact compare_infinity hv hv' nofun
      | zero s' =>
          cases hv
          cases hv'
          rw [Line.point_lt]
          exact (compare_zero s s' hm).2
      | finite s' m' e' hm' =>
          cases hv
          cases hv'
          rw [Line.point_lt]
          exact compare_finite s s' (hu rfl) (hw rfl)

end Order

/-- The order of doubles is that of their places. -/
theorem lt_iff_place {x y : Float} {v w : Line} (hx : place? x = some v) (hy : place? y = some w) :
    x < y ↔ v < w := by
  rw [lt_iff_placed]
  exact compare_eq_lt_iff canonical_of_fieldsOf canonical_of_fieldsOf hx hy

/-- A NaN is nowhere, and everything else somewhere. -/
theorem place?_eq_none_iff (x : Float) : place? x = none ↔ x.isNaN = true := by
  have hnan : x.isNaN = (fieldsOf x).isNaN := rfl
  rw [hnan, place?]
  cases fieldsOf x with
  | notANumber => exact iff_of_true rfl rfl
  | infinity s => cases s <;> exact iff_of_false nofun nofun
  | _ => exact iff_of_false nofun nofun

-- =============================================================== truncation

/-- Shifting drops bits. -/
theorem mantissa_shiftRight (em : ExtendedMantissa) (n : Nat) :
    (em >>> n).mantissa = em.mantissa / 2 ^ n := by
  show (Nat.repeat ExtendedMantissa.shiftRightOne n em).mantissa = _
  induction n with
  | zero => simp [Nat.repeat]
  | succ n ih =>
      show (Nat.repeat ExtendedMantissa.shiftRightOne n em).mantissa / 2 = _
      rw [ih, Nat.div_div_eq_div_mul, Nat.pow_succ]

/-- What is left of a mantissa when its exponent is brought to zero. -/
theorem roundToInt_eq (s : Sign) (m : Nat) (e : Int) :
    roundToInt s m e = s.apply (m * 2 ^ e.toNat / 2 ^ (-e).toNat : Nat) := by
  unfold roundToInt decreaseExponent shiftToExponent
  dsimp only
  rw [mantissa_shiftRight, Nat.shiftLeft_eq]
  have hleft : (e - 0).toNat = e.toNat := by omega
  have hright : (0 - (e - ((e - 0).toNat : Int))).toNat = (-e).toNat := by omega
  rw [hright, hleft]
  rfl

theorem floor_value (m : Nat) (e : Int) :
    ⌊Binary.value ⟨m, e⟩⌋₊ = m * 2 ^ e.toNat / 2 ^ (-e).toNat := by
  have hscale : Binary.value ⟨m, e⟩ = (m * 2 ^ e.toNat : ℕ) / (2 ^ (-e).toNat : ℕ) := by
    have hexponent : (e : Int) = (e.toNat : Int) - ((-e).toNat : Int) := by omega
    unfold Binary.value
    dsimp only
    conv_lhs => rw [hexponent, zpow_sub₀ two_ne_zero, zpow_natCast, zpow_natCast]
    push_cast
    ring
  rw [hscale, Nat.floor_div_eq_div]

/-- Places up to the largest index are converted to what they truncate
to. -/
theorem toNat_toUInt64 {x : Float} {q : ℚ} (hx : place? x = some (.point q)) (hpos : 0 ≤ q)
    (hle : q ≤ 4294967295) : x.toUInt64.toNat = ⌊q⌋₊ := by
  have hfloor : ⌊q⌋₊ < UInt64.size := by
    have hsmall : ⌊q⌋₊ ≤ 4294967295 := Nat.floor_le_of_le hle
    exact Nat.lt_of_le_of_lt hsmall (by decide)
  have hint : (fieldsOf x).toInt 0 (UInt64.size - 1) = ⌊q⌋₊ := by
    unfold place? at hx
    cases hfields : fieldsOf x with
    | notANumber => rw [hfields] at hx; cases hx
    | infinity s =>
        rw [hfields] at hx
        cases s with
        | negative => exact absurd (Option.some.inj hx) (Line.bot_lt_point q).ne
        | positive => exact absurd (Option.some.inj hx) (Line.point_lt_top q).ne'
    | zero s =>
        rw [hfields] at hx
        have hq : 0 = q := Line.point_inj.mp (Option.some.inj hx)
        rw [← hq]
        rfl
    | finite s m e hm =>
        rw [hfields] at hx
        have hq : withSign s (Binary.value ⟨m, e⟩) = q := Line.point_inj.mp (Option.some.inj hx)
        have hvalue : 0 < Binary.value ⟨m, e⟩ := Binary.value_pos hm
        cases s with
        | negative =>
            have hneg : -Binary.value ⟨m, e⟩ = q := hq
            linarith
        | positive =>
            have hsame : Binary.value ⟨m, e⟩ = q := hq
            rw [← hsame, floor_value]
            exact roundToInt_eq .positive m e
  show (UInt64.ofNatClamp ((fieldsOf x).toInt 0 (UInt64.size - 1)).toNat).toNat = ⌊q⌋₊
  rw [hint, Int.toNat_natCast, UInt64.ofNatClamp, dif_pos hfloor]
  rfl

-- ==================================================================== slots

theorem place?_zero : place? 0.0 = some (.point 0) := rfl

theorem place?_maxIndex : place? maxIndex = some (.point 4294967295) := by
  have hfields : fieldsOf maxIndex
      = .finite .positive (4294967295 * 2 ^ 21) (-21) (by decide) := by
    rfl
  have hvalue : Binary.value ⟨4294967295 * 2 ^ 21, -21⟩ = 4294967295 := by
    norm_num [Binary.value]
  unfold place?
  rw [hfields]
  exact congrArg (fun q => some (Line.point q)) hvalue

/-- What comes of an index into an array: it addresses the slot that it
truncates to, if it is a number from zero on and the slot is there. -/
inductive Symbol.Addresses (s : Symbol) (x : Float) : Except Cause Nat → Prop
  | invalid : place? x = none → Addresses s x (.error (.invalidIndex s.name))
  | negative {v : Line} : place? x = some v → v < .point 0 →
      Addresses s x (.error (.negativeIndex s.name x))
  | tooLarge {v : Line} : place? x = some v → .point 4294967295 < v →
      Addresses s x (.error (.indexTooLarge s.name x))
  | outOfBounds {q : ℚ} : place? x = some (.point q) → 0 ≤ q → q ≤ 4294967295 →
      s.size ≤ ⌊q⌋₊ → Addresses s x (.error (.indexOutOfBounds s.name ⌊q⌋₊ s.size))
  | slot {q : ℚ} : place? x = some (.point q) → 0 ≤ q → ⌊q⌋₊ < s.size →
      Addresses s x (.ok ⌊q⌋₊)

namespace Symbol

variable {s : Symbol} {x : Float}

/-- The checks, with the answers they have for an index in its place. -/
theorem slot_of_place {v : Line} (hx : place? x = some v) :
    s.slot x =
      if v < .point 0 then .error (.negativeIndex s.name x)
      else if .point 4294967295 < v then .error (.indexTooLarge s.name x)
      else if x.toUInt64.toNat < s.size then .ok x.toUInt64.toNat
      else .error (.indexOutOfBounds s.name x.toUInt64.toNat s.size) := by
  have hnan : ¬x.isNaN = true := by
    rw [← place?_eq_none_iff, hx]
    nofun
  have hneg : x < 0.0 ↔ v < .point 0 := lt_iff_place hx place?_zero
  have hlarge : x > maxIndex ↔ .point 4294967295 < v := lt_iff_place place?_maxIndex hx
  unfold slot
  simp only [if_neg hnan, hneg, hlarge]

theorem slot_of_addresses {r : Except Cause Nat} (h : s.Addresses x r) : s.slot x = r := by
  cases h with
  | invalid hx =>
      unfold slot
      rw [if_pos ((place?_eq_none_iff x).mp hx)]
  | negative hx hlt => rw [slot_of_place hx, if_pos hlt]
  | tooLarge hx hlt =>
      have hpos : ¬_ < Line.point 0 := fun hneg =>
        absurd (Line.point_lt.mp (lt_trans hlt hneg)) (by norm_num)
      rw [slot_of_place hx, if_neg hpos, if_pos hlt]
  | @outOfBounds q hx hpos hle hsize =>
      have hneg : ¬Line.point q < .point 0 := fun h => absurd (Line.point_lt.mp h) (not_lt.mpr hpos)
      have hlarge : ¬Line.point 4294967295 < .point q := fun h =>
        absurd (Line.point_lt.mp h) (not_lt.mpr hle)
      rw [slot_of_place hx, if_neg hneg, if_neg hlarge, toNat_toUInt64 hx hpos hle,
        if_neg (Nat.not_lt.mpr hsize)]
  | @slot q hx hpos hlt =>
      -- a slot that is there is below the length, and lengths are small
      have hsize : s.size ≤ 4294967295 := Nat.le_of_lt_succ s.len.toNat_lt
      have hle : q ≤ 4294967295 := by
        have hceil : q < (⌊q⌋₊ : ℚ) + 1 := Nat.lt_floor_add_one q
        have hcast : (⌊q⌋₊ : ℚ) + 1 ≤ 4294967295 := by exact_mod_cast Nat.le_trans hlt hsize
        linarith
      have hneg : ¬Line.point q < .point 0 := fun h => absurd (Line.point_lt.mp h) (not_lt.mpr hpos)
      have hlarge : ¬Line.point 4294967295 < .point q := fun h =>
        absurd (Line.point_lt.mp h) (not_lt.mpr hle)
      rw [slot_of_place hx, if_neg hneg, if_neg hlarge, toNat_toUInt64 hx hpos hle, if_pos hlt]

/-- There is an answer for every index. -/
theorem exists_addresses (s : Symbol) (x : Float) : ∃ r, s.Addresses x r := by
  cases hx : place? x with
  | none => exact ⟨_, .invalid hx⟩
  | some v =>
      by_cases hneg : v < .point 0
      · exact ⟨_, .negative hx hneg⟩
      · by_cases hlarge : Line.point 4294967295 < v
        · exact ⟨_, .tooLarge hx hlarge⟩
        · cases v using WithBot.recBotCoe with
          | bot => exact absurd (Line.bot_lt_point 0) hneg
          | coe v =>
              cases v using WithTop.recTopCoe with
              | top => exact absurd (Line.point_lt_top 4294967295) hlarge
              | coe q =>
                  have hpos : 0 ≤ q := not_lt.mp fun h => hneg (Line.point_lt.mpr h)
                  have hle : q ≤ 4294967295 := not_lt.mp fun h => hlarge (Line.point_lt.mpr h)
                  rcases Nat.lt_or_ge ⌊q⌋₊ s.size with hlt | hge
                  · exact ⟨_, .slot hx hpos hlt⟩
                  · exact ⟨_, .outOfBounds hx hpos hle hge⟩

/-- The checks answer what the place of an index demands. -/
theorem addresses_iff_slot {r : Except Cause Nat} : s.Addresses x r ↔ s.slot x = r := by
  constructor
  · exact slot_of_addresses
  · rintro rfl
    obtain ⟨r, h⟩ := s.exists_addresses x
    rwa [slot_of_addresses h]

/-- An index that addresses no slot is out of range. -/
theorem Addresses.category {cause : Cause} (h : s.Addresses x (.error cause)) :
    cause.category = .range := by
  cases h <;> rfl

end Symbol

end ExprGraph
