import ShaderFlow.Decimal.Binary

/-!
# The shortest decimal that reads back

A reader rounds a decimal to the nearest number of a binary format, and to the one with the even
mantissa when it lies half way. So the decimals that read back as a given number form an
interval, with its ends exactly when the mantissa is even (`Magnitude.ReadsBack`).

`Magnitude.shortest` looks for the coarsest decimal grid `d · 10 ^ k` that meets the interval.
On each grid it tests the two neighbours of the number, in exact integer arithmetic. When both
read back it takes the nearer one, and the upper one when they are equally near. The number
itself is a point of the finest grid, so the search always ends with an answer.
-/

namespace ShaderFlow

/-- A decimal number `digits · 10 ^ exponent`. -/
@[ext]
structure Decimal where
  /-- The integer that is scaled. -/
  digits : Nat
  /-- The power of ten it is scaled by. -/
  exponent : Int
  deriving DecidableEq, Repr

namespace Decimal

/-- `a · 2 ^ p` over the common denominator of `2 ^ p` and `10 ^ k`. -/
def binaryPart (a : Nat) (p k : Int) : Nat := a * Nat.pow 2 p.toNat * Nat.pow 10 (-k).toNat

/-- `b · 10 ^ k` over the common denominator of `2 ^ p` and `10 ^ k`. -/
def decimalPart (b : Nat) (p k : Int) : Nat := b * Nat.pow 10 k.toNat * Nat.pow 2 (-p).toNat

namespace Magnitude

variable (x : Magnitude)

/-- The lower end of the interval that rounds to `x`, in quarters of a step. -/
def lower : Nat := 4 * x.mantissa - if x.narrowBelow then 1 else 2

/-- The upper end of the interval that rounds to `x`, in quarters of a step. -/
def upper : Nat := 4 * x.mantissa + 2

/-- The decimal rounds to `x`. -/
def ReadsBack (d : Decimal) : Prop :=
  let p := x.exponent - 2
  let value := decimalPart d.digits p d.exponent
  let least := binaryPart x.lower p d.exponent
  let greatest := binaryPart x.upper p d.exponent
  if x.mantissa % 2 = 0 then least ≤ value ∧ value ≤ greatest else least < value ∧ value < greatest

instance (d : Decimal) : Decidable (x.ReadsBack d) := by
  unfold ReadsBack
  infer_instance

/-- The decimal equal to `x`. -/
def exact : Decimal :=
  if 0 ≤ x.exponent then ⟨x.mantissa * Nat.pow 2 x.exponent.toNat, 0⟩
  else ⟨x.mantissa * Nat.pow 5 (-x.exponent).toNat, x.exponent⟩

end Magnitude

/-- The largest multiple of `10 ^ drop` units that is not above `d`. -/
def floorAt (d : Decimal) (drop : Nat) : Decimal :=
  ⟨d.digits / Nat.pow 10 drop, d.exponent + drop⟩

/-- The next point on the grid of `d`. -/
def next (d : Decimal) : Decimal := ⟨d.digits + 1, d.exponent⟩

/-- The number of decimal digits of the integer that is scaled. -/
def length (d : Decimal) : Nat := (Nat.toDigits 10 d.digits).length

/-- The same number with the trailing zeros moved into the exponent. -/
def trim (d : Decimal) : Decimal :=
  if h : d.digits ≠ 0 ∧ d.digits % 10 = 0 then trim ⟨d.digits / 10, d.exponent + 1⟩ else d
termination_by d.digits
decreasing_by exact Nat.div_lt_self (Nat.pos_of_ne_zero h.1) (by decide)

namespace Magnitude

variable (x : Magnitude)

/-- The neighbour of `x` that reads back on the grid of `10 ^ drop` units of its exact decimal,
if there is one; the nearer one if both do, and the upper one if they are equally near. -/
def nearest? (drop : Nat) : Option Decimal :=
  let below := x.exact.floorAt drop
  let above := below.next
  if x.ReadsBack below then
    if x.ReadsBack above ∧ Nat.pow 10 drop ≤ 2 * (x.exact.digits % Nat.pow 10 drop) then some above
    else some below
  else if x.ReadsBack above then some above
  else none

/-- The first answer on the grids from `10 ^ drop` units down to the unit grid. -/
def search : Nat → Decimal
  | 0 => x.exact
  | drop + 1 => (x.nearest? (drop + 1)).getD (search drop)

/-- The decimal with the fewest digits that reads back as `x`. -/
def shortest : Decimal := (x.search (x.exact.length - 1)).trim

end Magnitude

end Decimal

end ShaderFlow
