import ShaderFlow.Decimal.Shortest

/-!
# Writing a decimal

A decimal is written positionally while its leading digit stands near the point, and with an
exponent otherwise. The positional form always has a fraction, be it a single zero; the form
with an exponent has one only if there is more than one digit, and neither pads the exponent
nor gives it a plus sign.
-/

namespace ShaderFlow.Decimal

/-- The powers of ten of a leading digit that is written positionally. -/
structure Layout where
  /-- The least such power. -/
  least : Int
  /-- The greatest such power. -/
  greatest : Int
  deriving DecidableEq, Repr

variable (d : Decimal)

/-- The digits of the integer that is scaled, the leading one first. -/
def text : List Char := Nat.toDigits 10 d.digits

/-- The power of ten that the leading digit counts. -/
def leading : Int := d.exponent + d.length - 1

/-- All digits, with a point between ones and tenths, and zeros where no digit stands. -/
def positional : List Char :=
  if 0 ≤ d.exponent then d.text ++ List.replicate d.exponent.toNat '0' ++ ['.', '0']
  else if 0 ≤ d.leading then
    d.text.take (d.leading.toNat + 1) ++ ['.'] ++ d.text.drop (d.leading.toNat + 1)
  else ['0', '.'] ++ List.replicate (-d.leading - 1).toNat '0' ++ d.text

/-- An integer, with a minus sign if it is negative. -/
def integer (n : Int) : List Char :=
  (if n < 0 then ['-'] else []) ++ Nat.toDigits 10 n.natAbs

/-- The leading digit, a point before the others if there are any, and the power of ten. -/
def scientific : List Char :=
  (match d.text with
    | [] => []
    | [c] => [c]
    | c :: rest => c :: '.' :: rest) ++ ['e'] ++ integer d.leading

/-- The decimal in the form its size asks for. -/
def write (L : Layout) : String :=
  String.ofList
    (if d.digits = 0 then ['0', '.', '0']
    else if L.least ≤ d.leading ∧ d.leading ≤ L.greatest then d.positional
    else d.scientific)

end ShaderFlow.Decimal
