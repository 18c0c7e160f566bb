import ShaderFlow.Capability
import ShaderFlow.NodeId

/-!
# What can go wrong

One type holds every reason for which building or compiling a shader graph is refused. An error
keeps what it is about as data (identifiers, labels, channel counts), and `Error.message` alone
puts it into words.
-/

namespace ShaderFlow

/-- The place at which a value of the wrong width was met. -/
inductive Site where
  /-- An input of a node of the graph. -/
  | node (label : Label)
  /-- An input of a node that was about to be added. -/
  | newNode (function : String)
  /-- A parameter of the sink. -/
  | parameter (name : String)
  /-- An output of the sink. -/
  | output (name : String)
  /-- The operand of a component selection. -/
  | swizzle (pattern : String)
  /-- The operand of a channel extraction. -/
  | split (channel : Nat)
  /-- The operands of a cross product. -/
  | cross
  /-- The operands of a matrix product. -/
  | product (lhs rhs : Ty)
  deriving DecidableEq

namespace Site

/-- The words for the place. -/
def describe : Site → String
  | node label => label.describe
  | newNode function => "`" ++ function ++ "` node"
  | parameter name => "parameter `" ++ name ++ "`"
  | output name => "output `" ++ name ++ "`"
  | swizzle pattern => "swizzle `." ++ pattern ++ "`"
  | split channel => "split channel " ++ Nat.repr channel
  | cross => "cross product"
  | product lhs rhs => "`" ++ lhs.name ++ "` by `" ++ rhs.name ++ "` product"

end Site

/-- Why an operation was refused. -/
inductive Error where
  /-- There is no such type, or a function or literal cannot have it. -/
  | invalidType (scalar : Scalar) (channels : Nat)
  /-- A value of the wrong width was offered; a missing input or value has no channels. -/
  | typeMismatch (site : Site) (slot expected found : Nat)
  /-- A wire would close a cycle. -/
  | cyclicGraph (target source : Label)
  /-- A parameter of the sink has no source. -/
  | unboundParameter (name : String)
  /-- A node that is needed has an input without a wire. -/
  | unboundInput (node : Label) (slot : Nat)
  /-- No resource provides the capability. -/
  | unresolvedCapability (capability : Capability)
  /-- The backend does not say how to read the builtin. -/
  | missingAccessor (builtin : Builtin)
  /-- Channels of an output, given as a bit mask, would be written twice. -/
  | outputConflict (output : String) (channels : Nat)
  /-- The resource of a capability is of the wrong kind. -/
  | incompatibleResource (capability : Capability) (resource : String)
  /-- There are more textures than the array has room for. -/
  | textureSlotsExhausted (binding : String) (capacity : Nat)
  /-- The graph has no such node. -/
  | unknownNode (id : NodeId)
  /-- The sink has no such output. -/
  | unknownOutput (output : Nat)
  /-- The sink has no such parameter. -/
  | unknownParameter (parameter : Nat)
  deriving DecidableEq

namespace Error

/-- A bit mask with the marker of a binary number. -/
def binary (mask : Nat) : String := "0b" ++ String.ofList (Nat.toDigits 2 mask)

/-- The words for the error. -/
def message : Error → String
  | invalidType scalar channels =>
    "unsupported type: " ++ scalar.label ++ " with " ++ Nat.repr channels ++ " channels"
  | typeMismatch site slot expected found =>
    "type mismatch at " ++ site.describe ++ " input " ++ Nat.repr slot ++ ": expected " ++
      Nat.repr expected ++ " channels, found " ++ Nat.repr found
  | cyclicGraph target source =>
    "wiring " ++ source.describe ++ " into " ++ target.describe ++ " would create a cycle"
  | unboundParameter name => "parameter `" ++ name ++ "` has no source node"
  | unboundInput node slot => node.describe ++ " input " ++ Nat.repr slot ++ " is not wired"
  | unresolvedCapability capability =>
    "capability " ++ capability.label ++ " is not linked to any resource"
  | missingAccessor builtin =>
    "no accessor expression recorded for builtin " ++ builtin.label
  | outputConflict output channels =>
    "output `" ++ output ++ "` channels " ++ binary channels ++
      " are already written by another parameter"
  | incompatibleResource capability resource =>
    "capability " ++ capability.label ++ " is linked to `" ++ resource ++
      "`, which cannot provide it"
  | textureSlotsExhausted binding capacity =>
    "texture sampler array `" ++ binding ++ "` has only " ++ Nat.repr capacity ++ " slots"
  | unknownNode id => "node " ++ id.describe ++ " does not belong to this graph"
  | unknownOutput output =>
    "output OutputHandle(" ++ Nat.repr output ++ ") does not belong to this output node"
  | unknownParameter parameter =>
    "parameter ParameterHandle(" ++ Nat.repr parameter ++ ") does not belong to this output node"

end Error

namespace Ty

/-- The type with a kind and a number of channels. -/
def new (s : Scalar) (channels : Nat) : Except Error Ty :=
  match ofChannels? s channels with
  | some t => .ok t
  | none => .error (.invalidType s channels)

/-- The type of the same kind with another number of channels. -/
def withChannels (t : Ty) (channels : Nat) : Except Error Ty := new t.scalar channels

@[simp]
theorem new_channels (t : Ty) : new t.scalar t.channels = .ok t := by
  simp [new]

end Ty

end ShaderFlow
