import ShaderFlow.Ty

/-!
# Signatures

A function takes named inputs in a fixed order and has one output. Values are matched with inputs
by their number of channels alone: a value of another kind but the same width is accepted.
-/

namespace ShaderFlow

/-- A named input of a function. -/
structure Input where
  /-- The name. -/
  name : String
  /-- The type. -/
  ty : Ty
  deriving DecidableEq

/-- The inputs of a function in order, and the type of its output. -/
structure Signature where
  /-- The inputs, one for each slot of a node. -/
  inputs : List Input
  /-- The type of the result. -/
  output : Ty
  deriving DecidableEq

namespace Signature

/-- The signature of a function without inputs. -/
def leaf (output : Ty) : Signature := ⟨[], output⟩

variable (s : Signature)

/-- The number of inputs. -/
def arity : Nat := s.inputs.length

/-- The input of a slot. -/
def input? (slot : Nat) : Option Input := s.inputs[slot]?

/-- Whether there is one value for each input, with the same number of channels. -/
def accepts (args : List Ty) : Bool :=
  args.map Ty.channels == s.inputs.map fun i => i.ty.channels

theorem accepts_iff {args : List Ty} :
    s.accepts args = true ↔ args.map Ty.channels = s.inputs.map fun i => i.ty.channels := by
  simp [accepts]

theorem length_of_accepts {args : List Ty} (h : s.accepts args = true) :
    args.length = s.arity := by
  simpa [arity] using congrArg List.length (s.accepts_iff.1 h)

end Signature

end ShaderFlow
