/-
The text of a double determines it.

Digits with a point can be read (`readPositional`), and what is written in
full for a decimal reads as its value. So doubles written alike have
decimals of one value, which read back as one double. The sign stands in
front and nowhere else, and the words for what is no finite number hold
letters.
-/
import ExprGraph.Proofs.Decimal.Doubles
import Mathlib.Data.List.TakeWhile

namespace ExprGraph.Decimal

-- ============================================================== characters

/-- The characters that doubles are written with. -/
def isTextChar (c : Char) : Bool :=
  c.isDigit || ['-', '.', 'N', 'a', 'i', 'n', 'f'].contains c

/-- Zeros behind digits are digits. -/
theorem isDigit_trailing {digits zeros : Nat} {c : Char}
    (h : c ∈ Nat.toDigits 10 digits ++ List.replicate zeros '0') : c.isDigit = true := by
  rcases List.mem_append.mp h with h | h
  · exact Nat.isDigit_of_mem_toDigits (by decide) (by decide) h
  · rw [List.eq_of_mem_replicate h]
    rfl

/-- Zeros in front of digits are digits. -/
theorem isDigit_padded {digits zeros : Nat} {c : Char}
    (h : c ∈ List.replicate zeros '0' ++ Nat.toDigits 10 digits) : c.isDigit = true :=
  isDigit_trailing (List.mem_append.mpr (List.mem_append.mp h).symm)

/-- A number is written in digits, with a point at most. -/
theorem isDigit_or_point {d : Number} {c : Char} (h : c ∈ d.positional.toList) :
    c.isDigit = true ∨ c = '.' := by
  unfold Number.positional at h
  split at h
  · rw [String.toList_ofList] at h
    exact .inl (isDigit_trailing h)
  · dsimp only at h
    rw [String.toList_ofList, List.mem_append, List.mem_cons] at h
    rcases h with h | h | h
    · exact .inl (isDigit_padded (List.mem_of_mem_take h))
    · exact .inr h
    · exact .inl (isDigit_padded (List.mem_of_mem_drop h))

/-- What is written for the parts but for the sign. -/
def Parts.magnitudeText : Parts → String
  | .nan => "NaN"
  | .infinity _ => "inf"
  | .zero _ => "0"
  | .finite _ magnitude => (shortest magnitude).positional

/-- Whether a sign is written. -/
def Parts.negative : Parts → Bool
  | .nan => false
  | .infinity negative | .zero negative | .finite negative _ => negative

/-- A double is written with its sign in front of its magnitude. -/
theorem Parts.text_eq (p : Parts) : p.text = signed p.negative p.magnitudeText := by
  cases p <;> rfl

/-- What words for special values are made of. -/
theorem isTextChar_of_all {word : String} {c : Char}
    (h : word.toList.all (fun c => isTextChar c && c != '-') = true) (hc : c ∈ word.toList) :
    isTextChar c = true ∧ c ≠ '-' := by
  have hboth := List.all_eq_true.mp h c hc
  rwa [Bool.and_eq_true, bne_iff_ne] at hboth

/-- What magnitudes are made of: no minus. -/
theorem Parts.isTextChar_of_mem {p : Parts} {c : Char} (h : c ∈ p.magnitudeText.toList) :
    isTextChar c = true ∧ c ≠ '-' := by
  have hnan : "NaN".toList.all (fun c => isTextChar c && c != '-') = true := by decide
  have hinfinity : "inf".toList.all (fun c => isTextChar c && c != '-') = true := by decide
  have hzero : "0".toList.all (fun c => isTextChar c && c != '-') = true := by decide
  cases p with
  | nan => exact isTextChar_of_all hnan h
  | infinity negative => exact isTextChar_of_all hinfinity h
  | zero negative => exact isTextChar_of_all hzero h
  | finite negative b =>
    rcases isDigit_or_point h with hdigit | rfl
    · refine ⟨by rw [isTextChar, hdigit]; rfl, ?_⟩
      rintro rfl
      cases hdigit
    · decide

/-- No minus stands behind the sign. -/
theorem Parts.minus_notMem (p : Parts) : '-' ∉ p.magnitudeText.toList :=
  fun h => (isTextChar_of_mem h).2 rfl

/-- A minus stands in front, if there is one. -/
theorem toList_signed (negative : Bool) (text : String) :
    (signed negative text).toList = (if negative then ['-'] else []) ++ text.toList := by
  cases negative <;> simp [signed]

/-- Doubles are written with these characters only. -/
theorem isTextChar_of_mem_text {x : Float} {c : Char} (h : c ∈ (text x).toList) :
    isTextChar c = true := by
  rw [text, Parts.text_eq, toList_signed, List.mem_append] at h
  rcases h with h | h
  · split at h
    · rw [List.mem_singleton.mp h]
      rfl
    · cases h
  · exact (Parts.isTextChar_of_mem h).1

-- ================================================================= reading

/-- The number that digits with a point are written for. -/
def readPositional (cs : List Char) : ℚ :=
  Nat.ofDigitChars 10 (cs.filter (· ≠ '.')) 0 / 10 ^ ((cs.dropWhile (· ≠ '.')).length - 1)

/-- Digits without a point are a whole number. -/
theorem readPositional_whole {cs : List Char} (h : '.' ∉ cs) :
    readPositional cs = Nat.ofDigitChars 10 cs 0 := by
  have hne : ∀ c ∈ cs, decide (c ≠ '.') = true :=
    fun c hc => decide_eq_true fun heq => h (heq ▸ hc)
  rw [readPositional, List.filter_eq_self.mpr hne, List.dropWhile_eq_nil_iff.mpr hne,
    List.length_nil, Nat.zero_sub, pow_zero, div_one]

/-- Digits behind the point count a tenth each time. -/
theorem readPositional_point {whole fraction : List Char} (h : '.' ∉ whole ++ fraction) :
    readPositional (whole ++ '.' :: fraction)
      = Nat.ofDigitChars 10 (whole ++ fraction) 0 / 10 ^ fraction.length := by
  have hne : ∀ c ∈ whole, decide (c ≠ '.') = true :=
    fun c hc => decide_eq_true fun heq => h (heq ▸ List.mem_append_left _ hc)
  have hne' : ∀ c ∈ fraction, decide (c ≠ '.') = true :=
    fun c hc => decide_eq_true fun heq => h (heq ▸ List.mem_append_right _ hc)
  have hfilter : ('.' :: fraction).filter (· ≠ '.') = fraction := List.filter_eq_self.mpr hne'
  rw [readPositional, List.filter_append, List.filter_eq_self.mpr hne, hfilter,
    List.dropWhile_append_of_pos hne]
  rfl

/-- What is written in full reads as the value. -/
theorem readPositional_positional (d : Number) : readPositional d.positional.toList = d.value := by
  unfold Number.positional
  split
  case isTrue hpower =>
    have hwhole : '.' ∉ Nat.toDigits 10 d.digits ++ List.replicate d.power.toNat '0' :=
      fun h => by cases isDigit_trailing h
    have hvalue : (10 : ℚ) ^ d.power = 10 ^ d.power.toNat := by
      rw [← zpow_natCast, Int.toNat_of_nonneg hpower]
    rw [String.toList_ofList, readPositional_whole hwhole, Nat.ofDigitChars_append,
      Nat.ofDigitChars_ten_toDigits, Nat.ofDigitChars_replicate_zero, Number.value, hvalue]
    push_cast
    exact mul_comm _ _
  case isFalse hpower =>
    dsimp only
    generalize hplaces : (-d.power).toNat = places
    generalize hpadded : List.replicate (places + 1 - (Nat.toDigits 10 d.digits).length) '0'
      ++ Nat.toDigits 10 d.digits = padded
    have hlength : places ≤ padded.length := by
      rw [← hpadded, List.length_append, List.length_replicate]
      omega
    have hsplit : padded.take (padded.length - places) ++ padded.drop (padded.length - places)
        = padded := List.take_append_drop _ _
    have hpoint : '.' ∉ padded := by
      rw [← hpadded]
      exact fun h => by cases isDigit_padded h
    have hread : Nat.ofDigitChars 10 padded 0 = d.digits := by
      rw [← hpadded, Nat.ofDigitChars_append, Nat.ofDigitChars_replicate_zero, Nat.mul_zero,
        Nat.ofDigitChars_ten_toDigits]
    have hvalue : (10 : ℚ) ^ d.power = (10 ^ places)⁻¹ := by
      rw [← zpow_natCast, ← zpow_neg, ← hplaces, Int.toNat_of_nonneg (by omega), neg_neg]
    rw [String.toList_ofList, readPositional_point (by rwa [hsplit]), hsplit, hread,
      List.length_drop, Nat.sub_sub_self hlength, Number.value, hvalue, div_eq_mul_inv]

-- ============================================================= determination

/-- The sign can be told from the magnitude, which has no minus in it. -/
theorem signed_injective {negative negative' : Bool} {t t' : String} (ht : '-' ∉ t.toList)
    (ht' : '-' ∉ t'.toList) (h : signed negative t = signed negative' t') :
    negative = negative' ∧ t = t' := by
  have hlist := congrArg String.toList h
  rw [toList_signed, toList_signed] at hlist
  cases negative with
  | false =>
    cases negative' with
    | false => exact ⟨rfl, String.toList_inj.mp hlist⟩
    | true =>
      have hcons : t.toList = '-' :: t'.toList := hlist
      exact absurd (hcons ▸ List.mem_cons_self) ht
  | true =>
    cases negative' with
    | false =>
      have hcons : '-' :: t.toList = t'.toList := hlist
      exact absurd (hcons ▸ List.mem_cons_self) ht'
    | true => exact ⟨rfl, String.toList_inj.mp (List.cons.inj hlist).2⟩

/-- The mantissa and the exponent, if there are any, are those of a
double. -/
def Parts.Canonical : Parts → Prop
  | .finite _ b => b.Canonical
  | _ => True

/-- What a double is made of is canonical. -/
theorem canonical_parts (x : Float) : (Parts.ofBits x.toBits).Canonical := by
  cases hparts : Parts.ofBits x.toBits with
  | finite negative b => exact canonical_of_ofBits x hparts
  | nan => trivial
  | infinity negative => trivial
  | zero negative => trivial

/-- A finite double that is not zero is not written with a letter, nor as
zero. -/
theorem positional_ne {b : Binary} (hb : b.Canonical) :
    (shortest b).positional ≠ "NaN" ∧ (shortest b).positional ≠ "inf"
      ∧ (shortest b).positional ≠ "0" := by
  have hletter : ∀ c, c.isDigit = false → c ≠ '.' → c ∉ (shortest b).positional.toList := by
    intro c hdigit hpoint hc
    rcases isDigit_or_point hc with h | h
    · rw [hdigit] at h
      cases h
    · exact hpoint h
  refine ⟨fun h => ?_, fun h => ?_, fun h => ?_⟩
  · exact hletter 'N' rfl (by decide) (h ▸ List.mem_cons_self)
  · exact hletter 'i' rfl (by decide) (h ▸ List.mem_cons_self)
  · have hpos := value_pos_of_readsBack hb (readsBack_shortest hb.mantissa_pos)
    have hzero : readPositional "0".toList = 0 :=
      (readPositional_whole (by decide)).trans Nat.cast_zero
    rw [← readPositional_positional, h, hzero] at hpos
    exact absurd hpos (lt_irrefl _)

/-- The text of parts determines them. -/
theorem Parts.text_injective {p q : Parts} (hp : p.Canonical) (hq : q.Canonical)
    (h : p.text = q.text) : p = q := by
  rw [text_eq, text_eq] at h
  obtain ⟨hsign, htext⟩ := signed_injective p.minus_notMem q.minus_notMem h
  cases p with
  | nan =>
    cases q with
    | nan => rfl
    | infinity negative => exact absurd (show "NaN" = "inf" from htext) (by decide)
    | zero negative => exact absurd (show "NaN" = "0" from htext) (by decide)
    | finite negative c => exact absurd htext.symm (positional_ne hq).1
  | infinity negative =>
    cases q with
    | nan => exact absurd (show "inf" = "NaN" from htext) (by decide)
    | infinity negative' => exact congrArg infinity hsign
    | zero negative' => exact absurd (show "inf" = "0" from htext) (by decide)
    | finite negative' c => exact absurd htext.symm (positional_ne hq).2.1
  | zero negative =>
    cases q with
    | nan => exact absurd (show "0" = "NaN" from htext) (by decide)
    | infinity negative' => exact absurd (show "0" = "inf" from htext) (by decide)
    | zero negative' => exact congrArg zero hsign
    | finite negative' c => exact absurd htext.symm (positional_ne hq).2.2
  | finite negative b =>
    cases q with
    | nan => exact absurd htext (positional_ne hp).1
    | infinity negative' => exact absurd htext (positional_ne hp).2.1
    | zero negative' => exact absurd htext (positional_ne hp).2.2
    | finite negative' c =>
      have hvalue : (shortest b).value = (shortest c).value := by
        rw [← readPositional_positional, ← readPositional_positional]
        exact congrArg (fun t : String => readPositional t.toList) htext
      have hsame := eq_of_readsBack hp hq (readsBack_shortest hp.mantissa_pos)
        (readsBack_shortest hq.mantissa_pos) hvalue
      exact congrArg₂ finite hsign hsame

/-- The text of a double determines it. -/
theorem text_injective {x y : Float} (h : text x = text y) : x = y :=
  ofBits_injective (Parts.text_injective (canonical_parts x) (canonical_parts y) h)

/-- A double is negated back to itself. -/
theorem neg_neg_double (x : Float) : - -x = x := by
  apply ofBits_injective
  rw [ofBits_neg, ofBits_neg, Parts.flip_flip]

theorem Parts.canonical_flip {p : Parts} (h : p.Canonical) : p.flip.Canonical := by
  cases p with
  | finite negative b => exact h
  | nan | infinity | zero => trivial

/-- Turned over, negative parts lose their sign. -/
theorem Parts.text_flip {p : Parts} (h : p.negative = true) : p.flip.text = p.magnitudeText := by
  cases p with
  | nan => cases h
  | infinity negative | zero negative | finite negative b => cases h; rfl

/-- A minus in front of the text of a double makes the text of another
only if that is its negation. -/
theorem eq_neg_of_text {x y : Float} (h : text x = "-" ++ text y) : x = -y := by
  have hminus : '-' ∈ (text x).toList := by
    rw [h, String.toList_append]
    exact List.mem_cons_self
  have hnegative : (Parts.ofBits x.toBits).negative = true := by
    by_contra hpositive
    rw [text, Parts.text_eq, Bool.eq_false_iff.mpr hpositive] at hminus
    exact Parts.minus_notMem _ hminus
  have hmagnitude : (Parts.ofBits x.toBits).magnitudeText = text y := by
    rw [text, Parts.text_eq, hnegative] at h
    exact String.append_right_inj _ |>.mp h
  have hflip : (Parts.ofBits x.toBits).flip = Parts.ofBits y.toBits := by
    apply Parts.text_injective (Parts.canonical_flip (canonical_parts x)) (canonical_parts y)
    rw [Parts.text_flip hnegative, hmagnitude, text]
  rw [← ofBits_neg] at hflip
  rw [← ofBits_injective hflip, neg_neg_double]

end ExprGraph.Decimal
