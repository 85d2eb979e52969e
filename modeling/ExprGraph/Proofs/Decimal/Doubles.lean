/-
What the bits of a double say, and what its negation does to them.

The three fields of a double determine it, and all but a NaN can be told
apart by what they say (`Parts.ofBits_injective`); there is one NaN. The
negation of a double that is no NaN turns its sign over and leaves the
other fields alone (`ofBits_neg`).
-/
import ExprGraph.Decimal.Positional
import ExprGraph.Proofs.Decimal.Rounding

namespace ExprGraph.Decimal

open Float.Model Float.Model.UnpackedFloat

-- ================================================================== fields

/-- What the fields of a double say. -/
def Parts.ofFields (negative : Bool) (biased fraction : Nat) : Parts :=
  if biased = specialExponent then
    if fraction = 0 then .infinity negative else .nan
  else if biased = 0 then
    if fraction = 0 then .zero negative else .finite negative ⟨fraction, minExponent⟩
  else
    .finite negative ⟨minNormalMantissa + fraction, (biased : Int) - 1 + minExponent⟩

/-- The parts with the other sign. -/
def Parts.flip : Parts → Parts
  | .nan => .nan
  | .infinity negative => .infinity !negative
  | .zero negative => .zero !negative
  | .finite negative magnitude => .finite (!negative) magnitude

/-- The fields of a double that is a number, from its parts. -/
def Parts.fields? : Parts → Option (Bool × Nat × Nat)
  | .nan => none
  | .infinity negative => some (negative, specialExponent, 0)
  | .zero negative => some (negative, 0, 0)
  | .finite negative b =>
    if b.mantissa < minNormalMantissa then
      some (negative, 0, b.mantissa)
    else
      some (negative, (b.exponent + 1 - minExponent).toNat, b.mantissa - minNormalMantissa)

/-- The fields can be read off what they say. -/
theorem Parts.fields?_ofFields {negative : Bool} {biased fraction : Nat}
    (hfraction : fraction < minNormalMantissa) :
    (ofFields negative biased fraction).fields? =
      if biased = specialExponent ∧ fraction ≠ 0 then none
      else some (negative, biased, fraction) := by
  have hle : ¬minNormalMantissa + fraction < minNormalMantissa :=
    Nat.not_lt.mpr (Nat.le_add_right _ _)
  have hbiased : ((biased : Int) - 1 + minExponent + 1 - minExponent).toNat = biased := by omega
  unfold ofFields
  split
  case isTrue hspecial =>
    subst hspecial
    split
    case isTrue hzero => rw [hzero]; rfl
    case isFalse hzero => rw [if_pos ⟨rfl, hzero⟩]; rfl
  case isFalse hspecial =>
    have hnumber : ¬(biased = specialExponent ∧ fraction ≠ 0) := fun h => hspecial h.1
    rw [if_neg hnumber]
    split
    case isTrue hleast =>
      subst hleast
      split
      case isTrue hzero => rw [hzero]; rfl
      case isFalse hzero => rw [fields?, if_pos hfraction]
    case isFalse hleast => rw [fields?, if_neg hle, hbiased, Nat.add_sub_cancel_left]

/-- The mantissa and the exponent that fields say are those of a double. -/
theorem Parts.canonical_of_ofFields {negative sign : Bool} {biased fraction : Nat} {b : Binary}
    (hfraction : fraction < minNormalMantissa)
    (h : ofFields sign biased fraction = .finite negative b) : b.Canonical := by
  unfold ofFields at h
  split at h
  case isTrue => split at h <;> cases h
  case isFalse =>
    split at h
    case isTrue =>
      split at h
      case isTrue => cases h
      case isFalse hzero =>
        cases h
        exact ⟨Nat.pos_of_ne_zero hzero,
          Nat.lt_of_lt_of_le hfraction (Nat.le_mul_of_pos_left _ two_pos), le_refl _, fun hlt => absurd hlt (lt_irrefl _)⟩
    case isFalse hleast =>
      cases h
      have hhidden : 0 < minNormalMantissa := Nat.two_pow_pos 52
      exact ⟨by dsimp only; omega, by dsimp only; omega, by dsimp only; omega,
        fun _ => Nat.le_add_right _ _⟩

/-- The sign turned over twice is the sign. -/
theorem Parts.flip_flip (p : Parts) : p.flip.flip = p := by
  cases p <;> simp only [flip, Bool.not_not]

/-- The sign is a field of its own. -/
theorem Parts.flip_ofFields (negative : Bool) (biased fraction : Nat) :
    (ofFields negative biased fraction).flip = ofFields (!negative) biased fraction := by
  unfold ofFields
  repeat' split
  all_goals rfl

section Bits

variable (b : BitVec 64)

/-- The fields of a double, taken from its bits. -/
abbrev signField : BitVec 1 := @unpackSign Format.binary64 b

abbrev exponentField : BitVec 11 := @unpackExponent Format.binary64 b

abbrev mantissaField : BitVec 52 := @unpackMantissa Format.binary64 b

/-- The mantissa is in the lowest bits. -/
theorem toNat_mantissaField : (mantissaField b).toNat = b.toNat % minNormalMantissa := by
  unfold mantissaField unpackMantissa
  rw [BitVec.toNat_cast, BitVec.extractLsb_toNat]
  rfl

/-- The exponent is above it. -/
theorem toNat_exponentField :
    (exponentField b).toNat = b.toNat / minNormalMantissa % (specialExponent + 1) := by
  unfold exponentField unpackExponent
  rw [BitVec.toNat_cast, BitVec.extractLsb_toNat, Nat.shiftRight_eq_div_pow]
  rfl

/-- The sign is the highest bit. -/
theorem toNat_signField : (signField b).toNat = b.toNat / signBit := by
  have hbits := b.isLt
  unfold signField unpackSign
  rw [BitVec.toNat_cast, BitVec.extractLsb_toNat, Nat.shiftRight_eq_div_pow]
  show b.toNat / 2 ^ 63 % 2 ^ 1 = b.toNat / 2 ^ 63
  omega

/-- The three fields side by side. -/
theorem toNat_packComponents (sign : Sign) (exponent : BitVec 11) (mantissa : BitVec 52) :
    (packComponents Format.binary64 sign exponent mantissa).toNat
      = sign.toBitVec.toNat * signBit + exponent.toNat * minNormalMantissa + mantissa.toNat := by
  have hexponent : exponent.toNat < 2 ^ 11 := exponent.isLt
  have hmantissa : mantissa.toNat < 2 ^ 52 := mantissa.isLt
  unfold packComponents
  rw [BitVec.toNat_append, BitVec.toNat_append, ← Nat.shiftLeft_add_eq_or_of_lt hexponent,
    ← Nat.shiftLeft_add_eq_or_of_lt hmantissa, Nat.shiftLeft_eq, Nat.shiftLeft_eq]
  show _ = _ * 2 ^ 63 + _ * 2 ^ 52 + _
  ring

theorem toNat_mantissa_lt : (mantissaField b).toNat < minNormalMantissa :=
  (mantissaField b).isLt

end Bits

/-- A double put together from fields says what they say. -/
theorem ofBits_packComponents (sign : Sign) (exponent : BitVec 11) (mantissa : BitVec 52) :
    Parts.ofBits (UInt64.ofBitVec (packComponents Format.binary64 sign exponent mantissa))
      = Parts.ofFields (sign.toBitVec = 1#1) exponent.toNat mantissa.toNat := by
  have hbits := toNat_packComponents sign exponent mantissa
  have hsign : signBit = 9223372036854775808 := rfl
  have hhidden : minNormalMantissa = 4503599627370496 := rfl
  have hexponent : exponent.toNat < 2048 := exponent.isLt
  have hmantissa : mantissa.toNat < 4503599627370496 := mantissa.isLt
  show Parts.ofFields (signBit ≤ (packComponents Format.binary64 sign exponent mantissa).toNat)
    ((packComponents Format.binary64 sign exponent mantissa).toNat / minNormalMantissa % 2048)
    ((packComponents Format.binary64 sign exponent mantissa).toNat % minNormalMantissa) = _
  rw [hbits, hsign, hhidden]
  congr 1
  · cases sign with
    | negative =>
      refine decide_eq_decide.mpr (iff_of_true ?_ rfl)
      show 9223372036854775808 ≤ 1 * 9223372036854775808 + _ + _
      omega
    | positive =>
      refine decide_eq_decide.mpr (iff_of_false ?_ (by decide))
      show ¬9223372036854775808 ≤ 0 * 9223372036854775808 + _ + _
      omega
  · omega
  · omega

/-- A double is put together from its fields. -/
theorem packComponents_fields (b : BitVec 64) :
    packComponents Format.binary64 (Sign.ofBitVec (signField b)) (exponentField b)
      (mantissaField b) = b := by
  apply BitVec.eq_of_toNat_eq
  have hbits := b.isLt
  have hsign : (Sign.ofBitVec (signField b)).toBitVec = signField b := by
    have hcases : ∀ s : BitVec 1, (Sign.ofBitVec s).toBitVec = s := by decide
    exact hcases _
  rw [toNat_packComponents, hsign, toNat_signField, toNat_exponentField, toNat_mantissaField]
  show b.toNat / 9223372036854775808 * 9223372036854775808
    + b.toNat / 4503599627370496 % 2048 * 4503599627370496 + b.toNat % 4503599627370496 = b.toNat
  omega

-- ================================================================ negation

/-- An exponent field that is not all ones, as a number. -/
theorem toNat_lt_of_ne_ones {exponent : BitVec 11} (h : exponent ≠ -1#_) :
    exponent.toNat < 2047 := by
  have hlt := exponent.isLt
  have hne : exponent.toNat ≠ (-1#11).toNat := fun heq => h (BitVec.eq_of_toNat_eq heq)
  have hones : (-1#11).toNat = 2047 := rfl
  omega

/-- The least exponent has no hidden bit. -/
theorem pack_subnormal (sign : Sign) {mantissa : BitVec 52} (h : 0 < mantissa.toNat) :
    UnpackedFloat.pack Format.binary64 (.finite sign mantissa.toNat (-1074) h)
      = packComponents Format.binary64 sign 0 mantissa := by
  have hlog : mantissa.toNat.log2 < 52 := (Nat.log2_lt (Nat.ne_of_gt h)).mpr mantissa.isLt
  have hbits : ¬mantissa.toNat.log2 + 1 = Format.binary64.mantissaBits := by
    show ¬_ = 1 + 52
    omega
  unfold UnpackedFloat.pack
  dsimp only
  rw [if_neg (by decide), if_neg hbits, BitVec.ofNat_toNat, BitVec.setWidth_eq]
  rfl

/-- Other exponents have one. -/
theorem pack_normal (sign : Sign) {exponent : BitVec 11} (mantissa : BitVec 52)
    (hlt : exponent.toNat < 2047) (h : 0 < (1#1 ++ mantissa).toNat) :
    UnpackedFloat.pack Format.binary64
        (.finite sign (1#1 ++ mantissa).toNat ((exponent.toNat : Int) - 1075) h)
      = packComponents Format.binary64 sign exponent mantissa := by
  have hhidden : (1#1 ++ mantissa).toNat = 2 ^ 52 + mantissa.toNat := by
    rw [BitVec.toNat_append, ← Nat.shiftLeft_add_eq_or_of_lt mantissa.isLt]
    rfl
  have hmantissa : mantissa.toNat < 2 ^ 52 := mantissa.isLt
  have hlog : (1#1 ++ mantissa).toNat.log2 = 52 := by
    rw [Nat.log2_eq_iff (Nat.ne_of_gt h), hhidden]
    omega
  have hbiased : ((exponent.toNat : Int) - 1075 + Format.binary64.exponentBias + (52 : Nat)).toNat
      = exponent.toNat := by
    show ((exponent.toNat : Int) - 1075 + (1023 : Nat) + (52 : Nat)).toNat = exponent.toNat
    omega
  have hmod : BitVec.ofNat 52 (1#1 ++ mantissa).toNat = mantissa := by
    apply BitVec.eq_of_toNat_eq
    rw [BitVec.toNat_ofNat, hhidden]
    omega
  unfold UnpackedFloat.pack
  dsimp only
  rw [hbiased, if_neg (by show ¬2 ^ 11 ≤ _; omega), if_pos (by rw [hlog]; rfl), hmod,
    BitVec.ofNat_toNat, BitVec.setWidth_eq]

/-- Packing what was unpacked, with another sign, changes the sign field
only. -/
theorem pack_neg_unpack {b : BitVec 64}
    (h : UnpackedFloat.unpack Format.binary64 b ≠ .notANumber) :
    UnpackedFloat.pack Format.binary64 (UnpackedFloat.unpack Format.binary64 b).neg
      = packComponents Format.binary64 (-Sign.ofBitVec (signField b)) (exponentField b)
        (mantissaField b) := by
  unfold UnpackedFloat.unpack at h ⊢
  dsimp only at h ⊢
  by_cases hones : exponentField b = -1#_
  · rw [if_pos hones] at h ⊢
    by_cases hzero : mantissaField b = 0#_
    · rw [if_pos hzero, hones, hzero]
      rfl
    · rw [if_neg hzero] at h
      exact absurd rfl h
  · rw [if_neg hones]
    by_cases hleast : exponentField b = 0#_
    · rw [if_pos hleast]
      by_cases hzero : mantissaField b = 0#_
      · rw [dif_pos hzero, hleast, hzero]
        rfl
      · have hexponent : @unpackExponent Format.binary64 b = 0#_ := hleast
        rw [dif_neg hzero, exponentField, hexponent]
        exact pack_subnormal _ _
    · rw [if_neg hleast]
      exact pack_normal _ _ (toNat_lt_of_ne_ones hones) _

-- ================================================================= doubles

section Doubles

variable (x : Float)

/-- The bits of a double. -/
abbrev bitsOf : BitVec 64 := x.toBits.toBitVec

/-- What a double is made of, by its fields. -/
theorem ofBits_eq_ofFields : Parts.ofBits x.toBits
    = Parts.ofFields ((Sign.ofBitVec (signField (bitsOf x))).toBitVec = 1#1)
      (exponentField (bitsOf x)).toNat (mantissaField (bitsOf x)).toNat := by
  rw [← ofBits_packComponents, packComponents_fields]

/-- A double that unpacks to no number is a NaN by its fields. -/
theorem fields_of_unpack_notANumber {b : BitVec 64}
    (h : UnpackedFloat.unpack Format.binary64 b = .notANumber) :
    exponentField b = -1#_ ∧ mantissaField b ≠ 0#_ := by
  unfold UnpackedFloat.unpack at h
  dsimp only at h
  by_cases hones : exponentField b = -1#_
  · rw [if_pos hones] at h
    by_cases hzero : mantissaField b = 0#_
    · rw [if_pos hzero] at h
      cases h
    · exact ⟨hones, hzero⟩
  · rw [if_neg hones] at h
    by_cases hleast : exponentField b = 0#_
    · rw [if_pos hleast] at h
      by_cases hzero : mantissaField b = 0#_
      · rw [dif_pos hzero] at h
        cases h
      · rw [dif_neg hzero] at h
        cases h
    · rw [if_neg hleast] at h
      cases h

/-- An exponent of ones and a mantissa that is not zero are no number. -/
theorem ofFields_nan {negative : Bool} {exponent : BitVec 11} {mantissa : BitVec 52}
    (hones : exponent = -1#_) (hmantissa : mantissa ≠ 0#_) :
    Parts.ofFields negative exponent.toNat mantissa.toNat = .nan := by
  have hne : mantissa.toNat ≠ 0 := fun hzero => hmantissa (BitVec.eq_of_toNat_eq hzero)
  rw [Parts.ofFields, hones, if_neg hne]
  rfl

/-- Negation turns the sign over. -/
theorem ofBits_neg : Parts.ofBits (-x).toBits = (Parts.ofBits x.toBits).flip := by
  have hneg : (-x).toBits = UInt64.ofBitVec (UnpackedFloat.pack Format.binary64
      (UnpackedFloat.unpack Format.binary64 (bitsOf x)).neg) := rfl
  by_cases hnan : UnpackedFloat.unpack Format.binary64 (bitsOf x) = .notANumber
  · obtain ⟨hones, hmantissa⟩ := fields_of_unpack_notANumber hnan
    rw [ofBits_eq_ofFields x, ofFields_nan hones hmantissa, hneg, hnan]
    exact (ofBits_packComponents _ _ _).trans (ofFields_nan rfl (by decide))
  · have hsign : ∀ s : Sign, decide ((-s).toBitVec = 1#1) = !decide (s.toBitVec = 1#1) := by
      rintro (_ | _) <;> rfl
    rw [ofBits_eq_ofFields x, hneg, pack_neg_unpack hnan, ofBits_packComponents, hsign,
      Parts.flip_ofFields]

/-- There is one NaN. -/
theorem bitsOf_nan (h : (exponentField (bitsOf x)).toNat = specialExponent
    ∧ (mantissaField (bitsOf x)).toNat ≠ 0) : bitsOf x = packedNaN Format.binary64 :=
  x.toModel.valid.eq_packedNaN (BitVec.eq_of_toNat_eq h.1)
    fun hzero => h.2 (congrArg BitVec.toNat hzero)

/-- Doubles of one bit pattern are one. -/
theorem eq_of_bitsOf {x y : Float} (h : bitsOf x = bitsOf y) : x = y := by
  obtain ⟨⟨bits, hbits⟩⟩ := x
  obtain ⟨⟨bits', hbits'⟩⟩ := y
  have hsame : bits = bits' := UInt64.toBitVec_inj.mp h
  subst hsame
  rfl

/-- All doubles can be told apart by their parts. -/
theorem ofBits_injective {x y : Float} (h : Parts.ofBits x.toBits = Parts.ofBits y.toBits) :
    x = y := by
  have hsigns : ∀ s s' : Sign, (s.toBitVec = 1#1 ↔ s'.toBitVec = 1#1) → s = s' := by
    rintro (_ | _) (_ | _) hiff
    · rfl
    · exact absurd (hiff.mp rfl) (by decide)
    · exact absurd (hiff.mpr rfl) (by decide)
    · rfl
  have hread := congrArg Parts.fields? h
  rw [ofBits_eq_ofFields, ofBits_eq_ofFields, Parts.fields?_ofFields (toNat_mantissa_lt _),
    Parts.fields?_ofFields (toNat_mantissa_lt _)] at hread
  apply eq_of_bitsOf
  split at hread
  case isTrue hx =>
    split at hread
    case isTrue hy => rw [bitsOf_nan x hx, bitsOf_nan y hy]
    case isFalse => cases hread
  case isFalse =>
    split at hread
    case isTrue => cases hread
    case isFalse =>
      simp only [Option.some.injEq, Prod.mk.injEq, decide_eq_decide] at hread
      obtain ⟨hsign, hexponent, hmantissa⟩ := hread
      rw [← packComponents_fields (bitsOf x), hsigns _ _ hsign,
        BitVec.eq_of_toNat_eq hexponent, BitVec.eq_of_toNat_eq hmantissa, packComponents_fields]

/-- Doubles that are no number are one double. -/
theorem eq_of_isNaN {x y : Float} (hx : x.isNaN = true) (hy : y.isNaN = true) : x = y := by
  have hparts : ∀ {x : Float}, x.isNaN = true → Parts.ofBits x.toBits = .nan := by
    intro x hx
    have hunpack : (UnpackedFloat.unpack Format.binary64 (bitsOf x)).isNaN = true := hx
    cases h : UnpackedFloat.unpack Format.binary64 (bitsOf x) with
    | notANumber =>
      obtain ⟨hones, hmantissa⟩ := fields_of_unpack_notANumber h
      rw [ofBits_eq_ofFields, ofFields_nan hones hmantissa]
    | _ =>
      rw [h] at hunpack
      cases hunpack
  exact ofBits_injective ((hparts hx).trans (hparts hy).symm)

/-- The mantissa and the exponent of a double. -/
theorem canonical_of_ofBits {negative : Bool} {b : Binary}
    (h : Parts.ofBits x.toBits = .finite negative b) : b.Canonical := by
  rw [ofBits_eq_ofFields] at h
  exact Parts.canonical_of_ofFields (toNat_mantissa_lt _) h

end Doubles

end ExprGraph.Decimal
