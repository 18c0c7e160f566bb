/-!
# Binary floating-point patterns

A binary interchange format packs a sign bit, a biased exponent and a fraction into a word.
`Format.read` splits a word into those fields and says which number they stand for:

* all exponent bits set: an infinity if the fraction is zero, and not a number otherwise;
* otherwise the finite number `mantissa · 2 ^ exponent` with the sign kept apart, so the two
  zeros stay distinct.
-/

namespace ShaderFlow.Decimal

/-- The widths of the fields of a binary interchange format. -/
structure Format where
  /-- Bits of the fraction. -/
  fractionBits : Nat
  /-- Bits of the biased exponent. -/
  exponentBits : Nat
  deriving DecidableEq, Repr

/-- The format of 32 bits. -/
def Format.single : Format := ⟨23, 8⟩

/-- The format of 64 bits. -/
def Format.double : Format := ⟨52, 11⟩

/-- A finite number without its sign: `mantissa · 2 ^ exponent`. -/
structure Magnitude where
  /-- The integer that is scaled. -/
  mantissa : Nat
  /-- The power of two it is scaled by. -/
  exponent : Int
  /-- The next smaller number of the format is only half a step away. This happens at the powers
  of two, where the step changes. -/
  narrowBelow : Bool
  deriving DecidableEq, Repr

/-- What a bit pattern stands for. -/
inductive Reading where
  | notANumber
  | infinite (negative : Bool)
  | finite (negative : Bool) (magnitude : Magnitude)
  deriving DecidableEq, Repr

namespace Format

variable (F : Format)

/-- The amount by which the exponent field exceeds the exponent. -/
def bias : Nat := Nat.pow 2 (F.exponentBits - 1) - 1

/-- The fraction field of a pattern. -/
def fraction (bits : Nat) : Nat := bits % Nat.pow 2 F.fractionBits

/-- The biased exponent field of a pattern. -/
def biased (bits : Nat) : Nat := bits / Nat.pow 2 F.fractionBits % Nat.pow 2 F.exponentBits

/-- The sign bit of a pattern. -/
def negative (bits : Nat) : Bool := bits / Nat.pow 2 (F.fractionBits + F.exponentBits) % 2 == 1

/-- The finite number with the given fields. The smallest exponent field stands for numbers
without the implicit leading bit, at the same step as the field after it. -/
def magnitude (biased fraction : Nat) : Magnitude where
  mantissa := if biased = 0 then fraction else fraction + Nat.pow 2 F.fractionBits
  exponent := (max biased 1 : Int) - F.bias - F.fractionBits
  narrowBelow := fraction == 0 && decide (1 < biased)

/-- What a pattern stands for. -/
def read (bits : Nat) : Reading :=
  if F.biased bits = Nat.pow 2 F.exponentBits - 1 then
    if F.fraction bits = 0 then .infinite (F.negative bits) else .notANumber
  else .finite (F.negative bits) (F.magnitude (F.biased bits) (F.fraction bits))

end Format

end ShaderFlow.Decimal
