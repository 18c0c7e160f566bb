/-!
# Shader types

A shader type is a scalar, a vector of two to four channels, or a square matrix of order three
or four. Every scalar kind has vectors; only the two real kinds have matrices, and the type
`Ty` carries that fact, so a value of it is always one of the 24 types the shading language has.

* `Ty.ofChannels?` finds the type of a scalar kind and a channel count, if the language has it;
* `Ty.eq_of_channels` says that a type is determined by its kind and its number of channels;
* `Ty.columns_mul_rows` says that columns and rows tile the channels exactly.
-/

namespace ShaderFlow

/-- The kind of a single channel. -/
inductive Scalar where
  | bool
  | int
  | uint
  | float
  | double
  deriving DecidableEq, Repr

namespace Scalar

/-- Every scalar kind, from the narrowest to the widest. -/
def all : List Scalar := [.bool, .int, .uint, .float, .double]

/-- The name of a kind in messages and in the exchange format. -/
def label : Scalar → String
  | bool => "Bool"
  | int => "Int"
  | uint => "Uint"
  | float => "Float"
  | double => "Double"

/-- The shading language's name of the one-channel type. -/
def name : Scalar → String
  | bool => "bool"
  | int => "int"
  | uint => "uint"
  | float => "float"
  | double => "double"

/-- What stands in front of `vec` and `mat` in the names of the wider types. -/
def stem : Scalar → String
  | bool => "b"
  | int => "i"
  | uint => "u"
  | float => ""
  | double => "d"

/-- Bytes taken by one channel. -/
def size : Scalar → Nat
  | double => 8
  | _ => 4

/-- The kinds with real values, the only ones that matrices have. -/
def isReal : Scalar → Bool
  | float | double => true
  | _ => false

/-- The position of a kind in the order of types. -/
def rank : Scalar → Nat
  | bool => 0
  | int => 1
  | uint => 2
  | float => 3
  | double => 4

theorem mem_all (s : Scalar) : s ∈ all := by
  cases s <;> simp [all]

end Scalar

/-- How the channels of a type are arranged. -/
inductive Shape where
  | single
  | vec2
  | vec3
  | vec4
  | mat3
  | mat4
  deriving DecidableEq, Repr

namespace Shape

/-- Every shape, by growing number of channels. -/
def all : List Shape := [.single, .vec2, .vec3, .vec4, .mat3, .mat4]

/-- The number of channels. -/
def channels : Shape → Nat
  | single => 1
  | vec2 => 2
  | vec3 => 3
  | vec4 => 4
  | mat3 => 9
  | mat4 => 16

/-- The number of columns; a scalar or a vector is one column. -/
def columns : Shape → Nat
  | mat3 => 3
  | mat4 => 4
  | _ => 1

/-- The number of channels in a column. -/
def rows : Shape → Nat
  | single => 1
  | vec2 => 2
  | vec3 | mat3 => 3
  | vec4 | mat4 => 4

/-- Whether there is more than one column. -/
def isMatrix : Shape → Bool
  | mat3 | mat4 => true
  | _ => false

/-- The shape with the given number of channels, if there is one. -/
def ofChannels? : Nat → Option Shape
  | 1 => some single
  | 2 => some vec2
  | 3 => some vec3
  | 4 => some vec4
  | 9 => some mat3
  | 16 => some mat4
  | _ => none

@[simp]
theorem ofChannels?_channels (s : Shape) : ofChannels? s.channels = some s := by
  cases s <;> rfl

theorem channels_of_ofChannels? {n : Nat} {s : Shape} (h : ofChannels? n = some s) :
    s.channels = n := by
  unfold ofChannels? at h
  split at h <;> simp_all [channels] <;> subst h <;> rfl

theorem mem_all (s : Shape) : s ∈ all := by
  cases s <;> simp [all]

end Shape

/-- A scalar, vector or square matrix type. -/
@[ext]
structure Ty where
  /-- The kind of every channel. -/
  scalar : Scalar
  /-- The arrangement of the channels. -/
  shape : Shape
  /-- Only real kinds have matrices. -/
  real_of_matrix : shape.isMatrix = true → scalar.isReal = true
  deriving DecidableEq

namespace Ty

/-- The one-channel type of a kind. -/
def ofScalar (s : Scalar) : Ty := ⟨s, .single, nofun⟩

/-- The type of `n` channels in one column, for `n` from one to four; the widest vector
beyond. -/
def vector (s : Scalar) : Nat → Ty
  | 1 => ⟨s, .single, nofun⟩
  | 2 => ⟨s, .vec2, nofun⟩
  | 3 => ⟨s, .vec3, nofun⟩
  | _ => ⟨s, .vec4, nofun⟩

/-- The type `float`. -/
abbrev float : Ty := ⟨.float, .single, nofun⟩

/-- The type `vec2`. -/
abbrev vec2 : Ty := ⟨.float, .vec2, nofun⟩

/-- The type `vec3`. -/
abbrev vec3 : Ty := ⟨.float, .vec3, nofun⟩

/-- The type `vec4`. -/
abbrev vec4 : Ty := ⟨.float, .vec4, nofun⟩

/-- The type `mat4`. -/
abbrev mat4 : Ty := ⟨.float, .mat4, fun _ => rfl⟩

/-- The type with a kind and a shape, if the language has it. -/
def ofShape? (s : Scalar) (shape : Shape) : Option Ty :=
  if h : shape.isMatrix = true → s.isReal = true then some ⟨s, shape, h⟩ else none

/-- The type with a kind and a number of channels, if the language has it. -/
def ofChannels? (s : Scalar) (channels : Nat) : Option Ty :=
  (Shape.ofChannels? channels).bind (ofShape? s)

/-- Every type, ordered by kind and then by number of channels. -/
def all : List Ty := Scalar.all.flatMap fun s => Shape.all.filterMap (ofShape? s)

variable (t : Ty)

/-- The number of channels. -/
def channels : Nat := t.shape.channels

/-- The number of columns; a scalar or a vector is one column. -/
def columns : Nat := t.shape.columns

/-- The number of channels in a column. -/
def rows : Nat := t.shape.rows

/-- Whether the type has a single channel. -/
def isScalar : Bool := t.shape == .single

/-- Whether the type has more than one column. -/
def isMatrix : Bool := t.shape.isMatrix

/-- Bytes taken by a tightly packed value. -/
def size : Nat := t.channels * t.scalar.size

/-- Interface locations taken by a value. A location holds four channels of four bytes, so a
column of three or four doubles takes two, and a matrix takes as many as all its columns. -/
def locations : Nat :=
  t.columns * if t.scalar = .double ∧ 3 ≤ t.rows then 2 else 1

/-- The shading language's name of the type. -/
def name : String :=
  match t.shape with
  | .single => t.scalar.name
  | .vec2 => t.scalar.stem ++ "vec2"
  | .vec3 => t.scalar.stem ++ "vec3"
  | .vec4 => t.scalar.stem ++ "vec4"
  | .mat3 => t.scalar.stem ++ "mat3"
  | .mat4 => t.scalar.stem ++ "mat4"

/-- The one-channel type of the same kind. -/
def element : Ty := ofScalar t.scalar

/-- The type with the given name, if there is one. -/
def ofName? (name : String) : Option Ty := all.find? (·.name == name)

/-- Types are ordered by kind and then by number of channels. -/
def le (a b : Ty) : Bool :=
  a.scalar.rank < b.scalar.rank ||
    (a.scalar.rank == b.scalar.rank && decide (a.channels ≤ b.channels))

/-- The types of a list in order. -/
def sort (ts : List Ty) : List Ty := ts.mergeSort le

/-! ### Kinds and channel counts determine the type -/

@[simp]
theorem ofChannels?_channels : ofChannels? t.scalar t.channels = some t := by
  simpa [ofChannels?, channels, ofShape?] using t.real_of_matrix

theorem scalar_of_ofChannels? {s : Scalar} {n : Nat} (h : ofChannels? s n = some t) :
    t.scalar = s := by
  simp only [ofChannels?, Option.bind_eq_some_iff, ofShape?, Option.dite_none_right_eq_some,
    Option.some.injEq] at h
  obtain ⟨shape, -, hreal, rfl⟩ := h
  rfl

theorem channels_of_ofChannels? {s : Scalar} {n : Nat} (h : ofChannels? s n = some t) :
    t.channels = n := by
  simp only [ofChannels?, Option.bind_eq_some_iff, ofShape?, Option.dite_none_right_eq_some,
    Option.some.injEq] at h
  obtain ⟨shape, hshape, hreal, rfl⟩ := h
  exact Shape.channels_of_ofChannels? hshape

theorem eq_of_channels {a b : Ty} (hs : a.scalar = b.scalar) (hc : a.channels = b.channels) :
    a = b := by
  have ha := ofChannels?_channels a
  rw [hs, hc, ofChannels?_channels] at ha
  exact (Option.some.inj ha).symm

/-- Columns and rows tile the channels. -/
theorem columns_mul_rows : t.columns * t.rows = t.channels := by
  rcases t with ⟨s, shape, h⟩
  cases shape <;> rfl

theorem rows_pos : 0 < t.rows := by
  rcases t with ⟨s, shape, h⟩
  cases shape <;> simp [rows, Shape.rows]

theorem channels_pos : 0 < t.channels := by
  rcases t with ⟨s, shape, h⟩
  cases shape <;> simp [channels, Shape.channels]

theorem channels_le : t.channels ≤ 16 := by
  rcases t with ⟨s, shape, h⟩
  cases shape <;> simp [channels, Shape.channels]

variable {t} in
theorem channels_of_isScalar (h : t.isScalar = true) : t.channels = 1 := by
  rw [channels, eq_of_beq h]
  rfl

variable {t} in
theorem element_of_isScalar (h : t.isScalar = true) : t.element = t :=
  Ty.ext rfl (eq_of_beq h).symm

theorem mem_all : t ∈ all := by
  rw [all, List.mem_flatMap]
  refine ⟨t.scalar, Scalar.mem_all _, List.mem_filterMap.2 ⟨t.shape, Shape.mem_all _, ?_⟩⟩
  simpa [ofShape?] using t.real_of_matrix

end Ty

end ShaderFlow
