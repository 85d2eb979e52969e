/-
The text of a double: positional, without an exponent.

A finite value is its shortest decimal written out in full: zeros fill
the places between the digits and the point, integers carry no point, and
a fraction always has an integer part. The sign of zero is kept; every
NaN is written alike.
-/
import ExprGraph.Decimal.Shortest

namespace ExprGraph.Decimal

-- =================================================== taking a double apart

/-- What the bits of a double say. -/
inductive Parts where
  | nan
  | infinity (negative : Bool)
  | zero (negative : Bool)
  | finite (negative : Bool) (magnitude : Binary)
deriving DecidableEq, Repr

/-- The bit that makes a double negative. -/
def signBit : Nat := Nat.pow 2 63

/-- The exponent field of infinities and NaNs, all ones. -/
def specialExponent : Nat := 2047

/-- The fields of a double: a sign, eleven bits of exponent, 52 bits of
fraction. Normal numbers have a hidden leading bit. -/
def Parts.ofBits (bits : UInt64) : Parts :=
  let n := bits.toNat
  let negative : Bool := signBit ≤ n
  let biased : Nat := n / minNormalMantissa % (specialExponent + 1)
  let fraction : Nat := n % minNormalMantissa
  if biased = specialExponent then
    if fraction = 0 then .infinity negative else .nan
  else if biased = 0 then
    if fraction = 0 then .zero negative else .finite negative ⟨fraction, minExponent⟩
  else
    .finite negative ⟨minNormalMantissa + fraction, (biased : Int) - 1 + minExponent⟩

-- ========================================================== writing it out

/-- `digits * 10 ^ power` in full. -/
def Number.positional (d : Number) : String :=
  let digits := Nat.toDigits 10 d.digits
  if 0 ≤ d.power then
    String.ofList (digits ++ List.replicate d.power.toNat '0')
  else
    let places := (-d.power).toNat
    let padded := List.replicate (places + 1 - digits.length) '0' ++ digits
    let whole := padded.length - places
    String.ofList (padded.take whole ++ '.' :: padded.drop whole)

/-- The sign in front of a magnitude. -/
def signed (negative : Bool) (text : String) : String :=
  if negative then "-" ++ text else text

/-- The text of a double, by its parts. -/
def Parts.text : Parts → String
  | .nan => "NaN"
  | .infinity negative => signed negative "inf"
  | .zero negative => signed negative "0"
  | .finite negative magnitude => signed negative (shortest magnitude).positional

/-- The text of a double. -/
def text (value : Float) : String :=
  (Parts.ofBits value.toBits).text

end ExprGraph.Decimal
