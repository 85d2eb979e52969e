/-
The shortest decimal that reads back as a given double.

A positive finite double is `mantissa * 2 ^ exponent`. A decimal
`digits * 10 ^ power` reads back as that double iff it lies in the
interval of reals that round to it: half a step to each side (a quarter
step below a power of two, where the spacing halves), ends included iff
the mantissa is even. `shortest` looks for the coarsest power of ten with
a multiple in that interval; on one grid only the two neighbours of the
double can be candidates, the nearer wins, and an exact tie goes up.

Everything is exact arithmetic on `Nat`: the double and the ends of its
interval are counted in quarter steps, a decimal in multiples of its power
of ten, and for each grid both units are brought to a common one. The
search is bounded, and past its bound the answer is the exact decimal
value of the double, so `shortest` reads back whatever the bound is.
-/

namespace ExprGraph.Decimal

-- ============================================== binary and decimal numbers

/-- A positive finite double: `mantissa * 2 ^ exponent`. -/
structure Binary where
  mantissa : Nat
  exponent : Int
deriving DecidableEq, Repr

/-- A decimal number: `digits * 10 ^ power`. -/
structure Number where
  digits : Nat
  power : Int
deriving DecidableEq, Repr

/-- Mantissas of normal doubles start here. -/
def minNormalMantissa : Nat := Nat.pow 2 52

/-- The exponent of all subnormal doubles and of the least normal ones. -/
def minExponent : Int := -1074

/-- The lower end of the rounding interval, in quarter steps: the gap
below a power of two is half as wide, unless there is no finer spacing. -/
def Binary.lowerQuarters (b : Binary) : Nat :=
  if b.mantissa = minNormalMantissa ∧ minExponent < b.exponent then
    4 * b.mantissa - 1
  else
    4 * b.mantissa - 2

/-- The upper end of the rounding interval, in quarter steps. -/
def Binary.upperQuarters (b : Binary) : Nat :=
  4 * b.mantissa + 2

-- =========================================================== a common unit

/-- `base ^ e` for a nonnegative `e`, and `1` for a negative one. A
quotient of two of these is any power, so `base ^ e` is
`scale base e / scale base (-e)`. -/
def scale (base : Nat) (e : Int) : Nat :=
  Nat.pow base e.toNat

/-- A power of ten and a quarter step of a double, both in a unit in which
they are whole. -/
structure Grid where
  ten : Nat
  quarter : Nat
deriving DecidableEq, Repr

/-- The unit for `10 ^ power` and the quarter steps of `b`: both sides of
comparing `10 ^ power` with `2 ^ (exponent - 2)`, each multiplied by the
denominator of the other. -/
def Binary.grid (b : Binary) (power : Int) : Grid where
  ten := scale 10 power * scale 2 (2 - b.exponent)
  quarter := scale 2 (b.exponent - 2) * scale 10 (-power)

/-- Whether `digits` multiples of the power of ten round to `b`: they lie
between the interval's ends, and on an end only if the mantissa is
even. -/
def Grid.holds (g : Grid) (b : Binary) (digits : Nat) : Bool :=
  let x := digits * g.ten
  let low := b.lowerQuarters * g.quarter
  let high := b.upperQuarters * g.quarter
  if b.mantissa % 2 = 0 then
    low ≤ x && x ≤ high
  else
    low < x && x < high

/-- Whether a decimal reads back as `b`. -/
def readsBack (b : Binary) (d : Number) : Bool :=
  (b.grid d.power).holds b d.digits

-- ============================================================== the search

/-- The number of multiples of the power of ten that fit below `b`. -/
def Grid.below (g : Grid) (b : Binary) : Nat :=
  4 * b.mantissa * g.quarter / g.ten

/-- Whether `b` lies at or above the midpoint of `digits` and the next
multiple. -/
def Grid.upperHalf (g : Grid) (b : Binary) (digits : Nat) : Bool :=
  (2 * digits + 1) * g.ten ≤ 8 * b.mantissa * g.quarter

/-- The multiple of `10 ^ power` to write for `b`, if one reads back: the
nearer of the two neighbours of `b`, the upper one on a tie, the only one
that reads back if the other does not. -/
def onGrid (b : Binary) (power : Int) : Option Number :=
  let g := b.grid power
  let low := g.below b
  let lowHolds := low ≠ 0 && g.holds b low
  if g.holds b (low + 1) && (g.upperHalf b low || !lowHolds) then
    some ⟨low + 1, power⟩
  else if lowHolds then
    some ⟨low, power⟩
  else
    none

/-- The exact value of `b` as a decimal: a negative power of two is the
same power of ten times a power of five. -/
def exact (b : Binary) : Number where
  digits := b.mantissa * scale 2 b.exponent * scale 5 (-b.exponent)
  power := if b.exponent < 0 then b.exponent else 0

/-- Try the grids `10 ^ power`, `10 ^ (power - 1)`, …, at most `tries` of
them. -/
def search (b : Binary) : Nat → Int → Number
  | 0, _ => exact b
  | tries + 1, power =>
    match onGrid b power with
    | some d => d
    | none => search b tries (power - 1)

/-- A power of ten above `b`: `b < 2 ^ t` for the bit length `t`, and
`10 ^ 0.30 < 2 < 10 ^ 0.31`. -/
def startPower (b : Binary) : Int :=
  let t : Int := (b.mantissa.log2 : Int) + 1 + b.exponent
  if 0 ≤ t then t * 31 / 100 + 1 else -(-t * 30 / 100) + 1

/-- How many grids are tried: 17 digits always suffice, and the start is
at most 14 powers too high. -/
def maxTries : Nat := 40

/-- The shortest decimal that reads back as `b`, and the nearest to `b`
of those. -/
def shortest (b : Binary) : Number :=
  search b maxTries (startPower b)

end ExprGraph.Decimal
