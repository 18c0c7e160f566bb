import ShaderFlow.Error
import ShaderFlow.Json.Basic

/-!
# Reading data trees

Readers for the plain parts of the exchange format, from which the readers of larger parts are
put together. A value is refused because it does not have the form that is read, or because it
asks for a type that the shading language does not have.
-/

namespace ShaderFlow

/-- Why a value was refused. -/
inductive DecodeError where
  /-- The value does not have the form that is read. -/
  | malformed
  /-- The value is well formed and asks for something that does not exist. -/
  | rejected (cause : Error)
  deriving DecidableEq

/-- A reader of values. -/
abbrev Decoder (α : Type) := Json → Except DecodeError α

namespace Decoder

variable {α : Type}

/-- Reads a text. -/
def string : Decoder String
  | .string s => .ok s
  | _ => .error .malformed

/-- Reads an unsigned number of 32 bits. -/
def uint32 : Decoder UInt32
  | .number (.ofNat n) 0 => if n < UInt32.size then .ok (.ofNat n) else .error .malformed
  | _ => .error .malformed

/-- Reads an array of equal parts. -/
def list (read : Decoder α) : Decoder (List α)
  | .array items => items.mapM read
  | _ => .error .malformed

/-- Reads a variant without content, given by its name alone or with a null beside it. -/
def choice (all : List α) (label : α → String) : Decoder α := fun v =>
  match v.variant? with
  | some (name, none) | some (name, some .null) =>
    match all.find? (label · == name) with
    | some a => .ok a
    | none => .error .malformed
  | _ => .error .malformed

/-- Reads a field that has to be there. -/
def required (read : Decoder α) : Option Json → Except DecodeError α
  | some v => read v
  | none => .error .malformed

/-- Reads a field that may be left out. -/
def optional (read : Decoder α) (default : α) : Option Json → Except DecodeError α
  | some v => read v
  | none => .ok default

/-- Reads a record of `count` fields. -/
def record (count : Nat) (read : Decoder α) : Decoder α := fun v =>
  if v.isRecord count then read v else .error .malformed

end Decoder

end ShaderFlow
