/-
Comparisons with a tolerance cohere.

Of two doubles that are no NaN one is below the other, above it, or at the
same place; the order of the doubles settles that, and the tolerance only
moves pairs from the strict comparisons to equality. So one of the three
holds as long as doubles at the same place are near each other, and they
are: their difference is zero, whatever rounding does elsewhere. The
exception is an infinity. Its difference with itself is no number, and so
it is not near itself (`comparisons_cohere`).

That the two sides may be exchanged is a matter of rounding: differences
are rounded by their magnitude, and the sign is put on afterwards
(`abs_normalize_neg`).
-/
import ExprGraph.Arith
import ExprGraph.Proofs.Decimal.Doubles

namespace ExprGraph

open Float.Model Float.Model.UnpackedFloat Arith

-- ================================================================ the order

/-- What a double says, field by field. -/
abbrev fieldsOf (x : Float) : UnpackedFloat := x.toModel.unpack

/-- Where one double is, seen from another; `none` if one of them is a
NaN. -/
def placed (a b : Float) : Option Ordering :=
  (fieldsOf a).compare (fieldsOf b)

theorem lt_iff_placed (a b : Float) : a < b ↔ placed a b = some .lt := by
  show decide ((fieldsOf a).lt (fieldsOf b) = true) = true ↔ _
  rw [decide_eq_true_iff]
  exact beq_iff_eq

/-- Seen from the other side, the order is turned over. -/
theorem compare_swap (x y : UnpackedFloat) : y.compare x = (x.compare y).map Ordering.swap := by
  cases x with
  | notANumber => cases y <;> rfl
  | infinity s =>
      cases y with
      | infinity s' => cases s <;> cases s' <;> rfl
      | _ => cases s <;> rfl
  | zero s =>
      cases y with
      | infinity s' => cases s' <;> rfl
      | finite s' m' e' h' => cases s' <;> rfl
      | _ => rfl
  | finite s m e h =>
      cases y with
      | finite s' m' e' h' =>
          have hsame : ((compare e' e).then (compare m' m))
              = ((compare e e').then (compare m m')).swap := by
            rw [Ordering.swap_then, Int.compare_swap, Nat.compare_swap]
          cases s with
          | positive =>
              cases s' with
              | positive => exact congrArg some hsame
              | negative => rfl
          | negative =>
              cases s' with
              | positive => rfl
              | negative => exact congrArg (fun o => some (Ordering.swap o)) hsame
      | notANumber => rfl
      | infinity s' => cases s <;> cases s' <;> rfl
      | zero s' => cases s <;> rfl

theorem placed_swap (a b : Float) : placed b a = (placed a b).map Ordering.swap :=
  compare_swap _ _

/-- Doubles that are no NaN have an order. -/
theorem placed_of_numbers {a b : Float} (ha : a.isNaN = false) (hb : b.isNaN = false) :
    ∃ o, placed a b = some o := by
  have ha' : (fieldsOf a).isNaN = false := ha
  have hb' : (fieldsOf b).isNaN = false := hb
  unfold placed
  revert ha' hb'
  cases fieldsOf a with
  | notANumber => exact nofun
  | infinity s =>
      cases fieldsOf b with
      | notANumber => exact fun _ => nofun
      | infinity s' => cases s <;> cases s' <;> exact fun _ _ => ⟨_, rfl⟩
      | _ => cases s <;> exact fun _ _ => ⟨_, rfl⟩
  | zero s =>
      cases fieldsOf b with
      | notANumber => exact fun _ => nofun
      | zero s' => exact fun _ _ => ⟨_, rfl⟩
      | infinity s' | finite s' => cases s' <;> exact fun _ _ => ⟨_, rfl⟩
  | finite s =>
      cases fieldsOf b with
      | notANumber => exact fun _ => nofun
      | zero s' => cases s <;> exact fun _ _ => ⟨_, rfl⟩
      | infinity s' | finite s' => cases s <;> cases s' <;> exact fun _ _ => ⟨_, rfl⟩

/-- A double is at its own place. -/
theorem placed_self {a : Float} (ha : a.isNaN = false) : placed a a = some .eq := by
  obtain ⟨o, ho⟩ := placed_of_numbers ha ha
  have hswap : placed a a = (placed a a).map Ordering.swap := placed_swap a a
  rw [ho] at hswap ⊢
  cases o with
  | eq => rfl
  | lt => simp at hswap
  | gt => simp at hswap

/-- Doubles that say the same are the same. -/
theorem eq_of_fieldsOf {a b : Float} (h : fieldsOf a = fieldsOf b) : a = b := by
  have hneg : -a = -b := by
    show Float.ofModel (Float.Model.pack (fieldsOf a).neg)
      = Float.ofModel (Float.Model.pack (fieldsOf b).neg)
    rw [h]
  have hparts : (Decimal.Parts.ofBits a.toBits).flip = (Decimal.Parts.ofBits b.toBits).flip := by
    rw [← Decimal.ofBits_neg, ← Decimal.ofBits_neg, hneg]
  apply Decimal.ofBits_injective
  rw [← Decimal.Parts.flip_flip (.ofBits a.toBits), hparts, Decimal.Parts.flip_flip]

-- ============================================================= differences

/-- Two choices that are made alike have one magnitude if what is chosen
has. -/
theorem abs_dite {P : Prop} [Decidable P] {x x' : UnpackedFloat} {y y' : ¬P → UnpackedFloat}
    (hx : x.abs = x'.abs) (hy : ∀ h, (y h).abs = (y' h).abs) :
    (if h : P then x else y h).abs = (if h : P then x' else y' h).abs := by
  split
  · exact hx
  · exact hy _

/-- The rounding of a magnitude does not look at the sign. -/
theorem abs_round (s s' : Sign) (m : Nat) (e : Int) :
    (UnpackedFloat.round Format.binary64 s m e).abs
      = (UnpackedFloat.round Format.binary64 s' m e).abs :=
  abs_dite rfl fun _ => rfl

/-- Nor does that of a number that is turned over. -/
theorem abs_normalize_neg (m e : Int) (s : Sign) :
    (UnpackedFloat.normalize Format.binary64 (-m) e s).abs
      = (UnpackedFloat.normalize Format.binary64 m e s).abs := by
  unfold UnpackedFloat.normalize
  rcases Int.lt_trichotomy m 0 with hlt | rfl | hgt
  · have hpos : 0 < -m := by omega
    rw [Int.compare_eq_lt.mpr hlt, Int.compare_eq_gt.mpr hpos]
    exact abs_round _ _ _ _
  · rfl
  · have hneg : -m < 0 := by omega
    rw [Int.compare_eq_gt.mpr hgt, Int.compare_eq_lt.mpr hneg, Int.neg_neg]
    exact abs_round _ _ _ _

/-- The two differences of two doubles have one magnitude. -/
theorem abs_sub_comm (x y : UnpackedFloat) :
    (sub Format.binary64 x y).abs = (sub Format.binary64 y x).abs := by
  cases x with
  | notANumber => cases y <;> rfl
  | infinity s =>
      cases y with
      | infinity s' => cases s <;> cases s' <;> rfl
      | _ => rfl
  | zero s =>
      cases y with
      | zero s' => cases s <;> cases s' <;> rfl
      | _ => rfl
  | finite s m e h =>
      cases y with
      | finite s' m' e' h' =>
          unfold UnpackedFloat.sub
          dsimp only
          rw [Int.min_comm e' e, ← Int.neg_sub, abs_normalize_neg]
      | _ => rfl

/-- The magnitude of a number is its digits and its exponent. -/
theorem abs_finite {s s' : Sign} {m m' : Nat} {e : Int} {hm : 0 < m} {hm' : 0 < m'}
    (h : m = m') : (finite s m e hm).abs = (finite s' m' e hm').abs := by
  subst h
  rfl

/-- Fields that differ in the sign have one magnitude. -/
theorem abs_unpack_packComponents {spec : Format} (s s' : Sign)
    (exponent : BitVec spec.exponentBits) (mantissa : BitVec spec.mantissaBitsWithoutImplicit) :
    (UnpackedFloat.unpack spec (packComponents spec s exponent mantissa)).abs
      = (UnpackedFloat.unpack spec (packComponents spec s' exponent mantissa)).abs := by
  have hmantissa (sign : Sign) :
      unpackMantissa (packComponents spec sign exponent mantissa) = mantissa :=
    unpackMantissa_packComponents
  have hsame := (hmantissa s).trans (hmantissa s').symm
  unfold UnpackedFloat.unpack
  dsimp only
  rw [unpackExponent_packComponents, unpackExponent_packComponents]
  by_cases hones : exponent = -1#_
  · rw [if_pos hones, if_pos hones, hsame]
    split <;> rfl
  · rw [if_neg hones, if_neg hones]
    by_cases hnone : exponent = 0#_
    · rw [if_pos hnone, if_pos hnone]
      by_cases hzero : mantissa = 0#_
      · rw [dif_pos ((hmantissa s).trans hzero), dif_pos ((hmantissa s').trans hzero)]
        rfl
      · have hdigits (sign : Sign) := mt (hmantissa sign).symm.trans hzero
        rw [dif_neg (hdigits s), dif_neg (hdigits s')]
        exact abs_finite (congrArg BitVec.toNat hsame)
    · rw [if_neg hnone, if_neg hnone]
      exact abs_finite (congrArg (fun digits => (1#1 ++ digits).toNat) hsame)

/-- The sign of a number is packed into a field of its own. -/
theorem pack_finite (spec : Format) (m : Nat) (e : Int) (hm : 0 < m) :
    ∃ exponent mantissa, ∀ s : Sign,
      (finite s m e hm).pack spec = packComponents spec s exponent mantissa := by
  unfold UnpackedFloat.pack
  dsimp only
  split
  · exact ⟨_, _, fun _ => rfl⟩
  · split <;> exact ⟨_, _, fun _ => rfl⟩

/-- Packing keeps magnitudes apart from signs. -/
theorem abs_unpack_pack (spec : Format) (x : UnpackedFloat) :
    (UnpackedFloat.unpack spec (x.pack spec)).abs
      = (UnpackedFloat.unpack spec (x.abs.pack spec)).abs := by
  cases x with
  | notANumber => rfl
  | infinity s => exact abs_unpack_packComponents _ _ _ _
  | zero s => exact abs_unpack_packComponents _ _ _ _
  | finite s m e hm =>
      obtain ⟨exponent, mantissa, hpack⟩ := pack_finite spec m e hm
      show _ = (UnpackedFloat.unpack spec ((finite .positive m e hm).pack spec)).abs
      rw [hpack, hpack]
      exact abs_unpack_packComponents _ _ _ _

/-- The distance of two doubles, from what they say. -/
theorem abs_sub_eq (a b : Float) :
    (a - b).abs = Float.ofModel (Float.Model.pack (UnpackedFloat.unpack Format.binary64
      (((fieldsOf a).sub Format.binary64 (fieldsOf b)).pack Format.binary64)).abs) := rfl

/-- The distance of two doubles is the same from either. -/
theorem distance_comm (a b : Float) : (a - b).abs = (b - a).abs := by
  rw [abs_sub_eq, abs_sub_eq, abs_unpack_pack, abs_sub_comm, ← abs_unpack_pack]

/-- So is whether they are near. -/
theorem near_comm (a b : Float) : near a b = near b a := by
  unfold near
  rw [distance_comm]

/-- Doubles at the same place have no difference, infinities apart. -/
theorem sub_of_placed {x y : UnpackedFloat} (h : x.compare y = some .eq) (hx : x.isInf = false) :
    ∃ s, x.sub Format.binary64 y = .zero s := by
  cases x with
  | notANumber => cases y <;> cases h
  | infinity s => cases hx
  | zero s =>
      cases y with
      | zero s' => cases s <;> cases s' <;> exact ⟨_, rfl⟩
      | notANumber => cases h
      | infinity s' => cases s' <;> cases h
      | finite s' m' e' h' => cases s' <;> cases h
  | finite s m e hm =>
      cases y with
      | finite s' m' e' hm' =>
          have hsame : s = s' ∧ (compare e e').then (compare m m') = .eq := by
            cases s with
            | positive =>
                cases s' with
                | positive => exact ⟨rfl, Option.some.inj h⟩
                | negative => cases h
            | negative =>
                cases s' with
                | positive => cases h
                | negative => exact ⟨rfl, Ordering.swap_eq_eq.mp (Option.some.inj h)⟩
          obtain ⟨rfl, hfields⟩ := hsame
          obtain ⟨hexponent, hmantissa⟩ := Ordering.then_eq_eq.mp hfields
          obtain rfl := Int.compare_eq_eq.mp hexponent
          obtain rfl := Nat.compare_eq_eq.mp hmantissa
          refine ⟨.positive, ?_⟩
          unfold UnpackedFloat.sub
          dsimp only
          rw [Int.sub_self]
          rfl
      | notANumber => cases s <;> cases h
      | infinity s' => cases s <;> cases s' <;> cases h
      | zero s' => cases s <;> cases h

/-- Doubles at the same place are near each other, infinities apart. -/
theorem near_of_placed {a b : Float} (h : placed a b = some .eq) (ha : a.isInf = false) :
    near a b = true := by
  obtain ⟨s, hsub⟩ := sub_of_placed h ha
  unfold near
  rw [abs_sub_eq, hsub]
  cases s <;> decide

/-- An infinity is not near itself: the difference is no number. -/
theorem not_near_self {a : Float} (ha : a.isInf = true) : near a a = false := by
  have hinf : (fieldsOf a).isInf = true := ha
  have hsub : (fieldsOf a).sub Format.binary64 (fieldsOf a) = .notANumber := by
    cases h : fieldsOf a with
    | infinity s => cases s <;> rfl
    | _ =>
        rw [h] at hinf
        cases hinf
  unfold near
  rw [abs_sub_eq, hsub]
  decide

/-- Infinities at the same place are one infinity. -/
theorem eq_of_placed {a b : Float} (h : placed a b = some .eq) (ha : a.isInf = true) : a = b := by
  have hinf : (fieldsOf a).isInf = true := ha
  apply eq_of_fieldsOf
  unfold placed at h
  cases hx : fieldsOf a with
  | infinity s =>
      rw [hx] at h
      cases hy : fieldsOf b with
      | infinity s' =>
          rw [hy] at h
          cases s <;> cases s' <;> first | rfl | cases h
      | _ =>
          rw [hy] at h
          cases s <;> cases h
  | _ =>
      rw [hx] at hinf
      cases hinf

-- ============================================================= comparisons

namespace BinaryOp

/-- A comparison answers one. -/
def Holds (op : BinaryOp) (a b : Float) : Prop := op.eval a b = .ok 1.0

/-- A comparison answers zero. -/
def Fails (op : BinaryOp) (a b : Float) : Prop := op.eval a b = .ok 0.0

/-- The three comparisons of which one holds at most. -/
inductive Outcome (a b : Float) : Prop
  | less : Holds .lt a b → Fails .eq a b → Fails .gt a b → Outcome a b
  | equal : Fails .lt a b → Holds .eq a b → Fails .gt a b → Outcome a b
  | greater : Fails .lt a b → Fails .eq a b → Holds .gt a b → Outcome a b

end BinaryOp

open BinaryOp

theorem truth_eq_one {v : Bool} : truth v = 1.0 ↔ v = true := by
  revert v
  decide

theorem truth_eq_zero {v : Bool} : truth v = 0.0 ↔ v = false := by
  revert v
  decide

/-- The two answers differ. -/
theorem BinaryOp.Holds.not_fails {op : BinaryOp} {a b : Float} (h : op.Holds a b) :
    ¬op.Fails a b := by
  intro hfails
  have hone : truth true = 0.0 := Except.ok.inj (h.symm.trans hfails)
  exact absurd (truth_eq_zero.mp hone) (by decide)

/-- Doubles near each other are equal, and no more is said of them. -/
theorem outcome_of_near {a b : Float} (h : near a b = true) : Outcome a b := by
  apply Outcome.equal <;> simp [Holds, Fails, BinaryOp.eval, truth_eq_one, truth_eq_zero, h]

/-- Other doubles are told apart by the order. -/
theorem outcome_of_placed {a b : Float} {o : Ordering} (h : near a b = false)
    (ho : placed a b = some o) (hne : o ≠ .eq) : Outcome a b := by
  have hswap : placed b a = some o.swap := by rw [placed_swap, ho]; rfl
  cases o with
  | lt =>
      apply Outcome.less <;>
        simp [Holds, Fails, BinaryOp.eval, truth_eq_one, truth_eq_zero, h, lt_iff_placed, ho, hswap]
  | eq => exact absurd rfl hne
  | gt =>
      apply Outcome.greater <;>
        simp [Holds, Fails, BinaryOp.eval, truth_eq_one, truth_eq_zero, h, lt_iff_placed, ho, hswap]

/-- A comparison answers one or zero. -/
theorem holds_or_fails (a b : Float) {op : BinaryOp}
    (h : op ∈ [BinaryOp.eq, .ne, .lt, .le, .gt, .ge]) : op.Holds a b ∨ op.Fails a b := by
  have htruth : ∃ v, op.eval a b = .ok (truth v) := by
    cases op <;> simp at h <;> exact ⟨_, rfl⟩
  obtain ⟨v, hv⟩ := htruth
  cases v with
  | false => exact .inr hv
  | true => exact .inl hv

/-- Of two doubles that are no NaN one is less, equal or greater, and the
other comparisons follow; of an infinity and itself none of the three
holds. -/
theorem comparisons_cohere {a b : Float} (ha : a.isNaN = false) (hb : b.isNaN = false) :
    (∀ op ∈ [BinaryOp.eq, .ne, .lt, .le, .gt, .ge], op.Holds a b ∨ op.Fails a b)
    ∧ (¬(a.isInf = true ∧ a = b) → Outcome a b)
    ∧ (a.isInf = true ∧ a = b → Fails .lt a b ∧ Fails .eq a b ∧ Fails .gt a b)
    ∧ (Holds .le a b ↔ Holds .lt a b ∨ Holds .eq a b)
    ∧ (Holds .ge a b ↔ Holds .gt a b ∨ Holds .eq a b)
    ∧ (Holds .ne a b ↔ ¬Holds .eq a b)
    ∧ BinaryOp.eval .eq a b = BinaryOp.eval .eq b a
    ∧ BinaryOp.eval .lt a b = BinaryOp.eval .gt b a
    ∧ BinaryOp.eval .le a b = BinaryOp.eval .ge b a
    ∧ (a.isInf = false → Holds .eq a a) := by
  refine ⟨fun op => holds_or_fails a b, ?_, ?_, ?_, ?_, ?_, ?_, ?_, ?_, ?_⟩
  · intro happart
    cases hnear : near a b with
    | true => exact outcome_of_near hnear
    | false =>
        obtain ⟨o, ho⟩ := placed_of_numbers ha hb
        apply outcome_of_placed hnear ho
        rintro rfl
        cases hinf : a.isInf with
        | true => exact happart ⟨hinf, eq_of_placed ho hinf⟩
        | false => simp [near_of_placed ho hinf] at hnear
  · rintro ⟨hinf, rfl⟩
    have hself : ¬a < a := by simp [lt_iff_placed, placed_self ha]
    simp [Fails, BinaryOp.eval, truth_eq_zero, not_near_self hinf, hself]
  · simp only [Holds, BinaryOp.eval, Except.ok.injEq, truth_eq_one]
    cases near a b <;> simp
  · simp only [Holds, BinaryOp.eval, Except.ok.injEq, truth_eq_one]
    cases near a b <;> simp
  · simp [Holds, BinaryOp.eval, truth_eq_one]
  · simp only [BinaryOp.eval, near_comm a b]
  · simp only [BinaryOp.eval, near_comm a b, gt_iff_lt]
  · simp only [BinaryOp.eval, near_comm a b, gt_iff_lt]
  · intro hinf
    simp [Holds, BinaryOp.eval, truth_eq_one, near_of_placed (placed_self ha) hinf]

/-- Two sums that rounding keeps apart are equal. -/
theorem tenth_coheres :
    Float.isNaN (0.1 + 0.2) = false ∧ Float.isNaN 0.3 = false
    ∧ (0.1 + 0.2 : Float) ≠ 0.3
    ∧ Holds .eq (0.1 + 0.2) 0.3 ∧ Holds .eq 0.3 (0.1 + 0.2) := by
  have hnumbers : Float.isNaN (0.1 + 0.2) = false ∧ Float.isNaN 0.3 = false := by decide
  obtain ⟨-, -, -, -, -, -, hsymm, -⟩ := comparisons_cohere hnumbers.1 hnumbers.2
  have hequal : Holds .eq (0.1 + 0.2) 0.3 := by
    have hnear : near (0.1 + 0.2) 0.3 = true := by decide
    simp [Holds, BinaryOp.eval, truth_eq_one, hnear]
  exact ⟨hnumbers.1, hnumbers.2, by decide, hequal, hsymm.symm.trans hequal⟩

/-- An infinity is neither less than itself, nor equal to it, nor greater. -/
theorem infinity_unplaced :
    Float.isNaN (.ofBits 0x7FF0000000000000) = false
    ∧ Fails .lt (.ofBits 0x7FF0000000000000) (.ofBits 0x7FF0000000000000)
    ∧ Fails .eq (.ofBits 0x7FF0000000000000) (.ofBits 0x7FF0000000000000)
    ∧ Fails .gt (.ofBits 0x7FF0000000000000) (.ofBits 0x7FF0000000000000)
    ∧ ¬Outcome (.ofBits 0x7FF0000000000000) (.ofBits 0x7FF0000000000000) := by
  have hunlike : near (.ofBits 0x7FF0000000000000) (.ofBits 0x7FF0000000000000) = false := by decide
  have hless : ¬Float.ofBits 0x7FF0000000000000 < Float.ofBits 0x7FF0000000000000 := by decide
  have hequal : Fails .eq (.ofBits 0x7FF0000000000000) (.ofBits 0x7FF0000000000000) := by
    simp [Fails, BinaryOp.eval, truth_eq_zero, hunlike]
  have hlt : Fails .lt (.ofBits 0x7FF0000000000000) (.ofBits 0x7FF0000000000000) := by
    simp [Fails, BinaryOp.eval, truth_eq_zero, hless]
  have hgt : Fails .gt (.ofBits 0x7FF0000000000000) (.ofBits 0x7FF0000000000000) := by
    simp [Fails, BinaryOp.eval, truth_eq_zero, hless]
  refine ⟨by decide, hlt, hequal, hgt, ?_⟩
  intro hone
  cases hone with
  | less hholds => exact hholds.not_fails hlt
  | equal _ hholds => exact hholds.not_fails hequal
  | greater _ _ hholds => exact hholds.not_fails hgt

end ExprGraph
