import ShaderFlow.Decimal.Layout
import ShaderFlow.Error

/-!
# Literals

A literal is a type together with one value for each of its channels, those of a matrix column
by column. Real channels are kept as bit patterns, so that every value the machine can hold,
the zeros, infinities and patterns that are not numbers among them, has its own place.

A negative channel is written in parentheses, and so is a pattern that is not a number, which
the shading language can only spell as a quotient; an infinity is spelled as a number that is
too large for the type. That makes each channel safe to stand before an operator or a selection.
-/

namespace ShaderFlow

/-- The channels of a literal. -/
inductive Channels where
  | bools (values : List Bool)
  | ints (values : List Int32)
  | uints (values : List UInt32)
  | floats (values : List UInt32)
  | doubles (values : List UInt64)
  deriving DecidableEq, Repr

namespace Literal

/-- Real literals are positional from ten-thousandths up to sixteen digits before the point. -/
def realLayout : Decimal.Layout := ⟨-4, 15⟩

/-- A negative channel stands in parentheses. -/
def signed (negative : Bool) (text : String) : String :=
  if negative then "(-" ++ text ++ ")" else text

/-- An integer channel. -/
def int (value : Int32) : String := signed (value.toInt < 0) (Nat.repr value.toInt.natAbs)

/-- An unsigned channel. -/
def uint (value : UInt32) : String := Nat.repr value.toNat ++ "u"

/-- A real channel with the marker of its type after each number; `huge` is a number beyond the
type's range. -/
def real (F : Decimal.Format) (huge mark : String) (bits : Nat) : String :=
  match F.read bits with
  | .notANumber => "(0.0" ++ mark ++ "/0.0" ++ mark ++ ")"
  | .infinite negative => signed negative (huge ++ mark)
  | .finite negative magnitude => signed negative (magnitude.shortest.write realLayout ++ mark)

/-- A channel of type `float`. -/
def float (bits : UInt32) : String := real .single "4e+100" "" bits.toNat

/-- A channel of type `double`. -/
def double (bits : UInt64) : String := real .double "4e+400" "lf" bits.toNat

end Literal

namespace Channels

variable (c : Channels)

/-- The kind of the channels. -/
def scalar : Scalar :=
  match c with
  | bools _ => .bool
  | ints _ => .int
  | uints _ => .uint
  | floats _ => .float
  | doubles _ => .double

/-- The number of channels. -/
def length : Nat :=
  match c with
  | bools values => values.length
  | ints values => values.length
  | uints values => values.length
  | floats values => values.length
  | doubles values => values.length

/-- Each channel as it is written. -/
def texts : List String :=
  match c with
  | bools values => values.map fun b => if b then "true" else "false"
  | ints values => values.map Literal.int
  | uints values => values.map Literal.uint
  | floats values => values.map Literal.float
  | doubles values => values.map Literal.double

@[simp]
theorem length_texts : c.texts.length = c.length := by
  cases c <;> simp [texts, length]

end Channels

/-- A typed constant. -/
structure Literal where
  /-- The type. -/
  ty : Ty
  /-- The value of every channel. -/
  channels : Channels
  /-- The channels are of the type's kind. -/
  scalar_eq : channels.scalar = ty.scalar
  /-- There is one value per channel. -/
  length_eq : channels.length = ty.channels
  deriving DecidableEq

namespace Literal

/-- The literal of a type with the given channels, if they fit. -/
def new (ty : Ty) (channels : Channels) : Except Error Literal :=
  if h : channels.scalar = ty.scalar ∧ channels.length = ty.channels then
    .ok ⟨ty, channels, h.1, h.2⟩
  else .error (.invalidType channels.scalar channels.length)

/-- The literal whose type is read off its channels. -/
def ofChannels (channels : Channels) : Except Error Literal :=
  (Ty.new channels.scalar channels.length).bind (new · channels)

/-- The literal in the shading language: a bare scalar, or the type's constructor applied to the
channels. -/
def text (l : Literal) : String :=
  if l.ty.isScalar then String.join l.channels.texts
  else l.ty.name ++ "(" ++ ", ".intercalate l.channels.texts ++ ")"

end Literal

end ShaderFlow
