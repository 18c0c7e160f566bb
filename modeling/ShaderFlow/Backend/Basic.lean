import ShaderFlow.Backend.Resource
import ShaderFlow.Error

/-!
# Backends

A backend registers resources, says which of them provides each capability, and how each builtin
is read through its resource. Resources are numbered as they are registered: within their kind
for their handles, within their descriptor set for binding numbers, and field by field for input
locations. Nothing that has been given a number is ever numbered anew.

The tables for capabilities and builtins are lists with the newest entry in front, and the
newest entry counts.
-/

namespace ShaderFlow

/-- The resources of a target and what they are for. -/
structure Backend where
  /-- The resources in the order of registration. -/
  resources : List Resource := []
  /-- Which resource provides a capability, the newest entry first. -/
  providers : List (Capability × Handle) := []
  /-- How a builtin is read through its resource, the newest entry first. -/
  accessors : List (Builtin × String) := []
  deriving DecidableEq

/-- The resource behind a capability. -/
structure Resolution where
  /-- The resource. -/
  handle : Handle
  /-- The expression for the resource as a whole. -/
  path : String
  deriving DecidableEq, Repr

namespace Backend

variable (b : Backend)

/-- The backend without resources. -/
def empty : Backend := {}

/-- The handle of the next resource of a kind. -/
def nextHandle (kind : ResourceKind) : Handle :=
  ⟨kind, b.resources.countP (·.handle.kind == kind)⟩

/-- The binding number or the first location of the next resource. -/
def nextSlot (d : Descriptor) : Nat :=
  match d.set? with
  | some set => b.resources.countP (·.descriptor.set? == some set)
  | none => Field.locations (b.resources.flatMap (·.descriptor.inputs))

/-- Registers a resource and gives its handle. -/
def register (d : Descriptor) : Backend × Handle :=
  let handle := b.nextHandle d.kind
  ({ b with resources := b.resources ++ [⟨handle, d, b.nextSlot d⟩] }, handle)

/-- Makes a resource the provider of a capability. -/
def provide (c : Capability) (h : Handle) : Backend := { b with providers := (c, h) :: b.providers }

/-- Records how a builtin is read: the text that follows the path of its resource. -/
def setAccessor (builtin : Builtin) (accessor : String) : Backend :=
  { b with accessors := (builtin, accessor) :: b.accessors }

/-- The resource with a handle. -/
def resource? (h : Handle) : Option Resource := b.resources.find? (·.handle == h)

/-- What a resource consists of. -/
def descriptor? (h : Handle) : Option Descriptor := (b.resource? h).map (·.descriptor)

/-- The declaration of a resource. -/
def declaration? (h : Handle) : Option String := (b.resource? h).map (·.declaration)

/-- The resource that provides a capability, if it has been registered. -/
def resolve? (c : Capability) : Option Resolution := do
  let handle ← b.providers.lookup c
  let resource ← b.resource? handle
  return ⟨handle, resource.descriptor.path⟩

/-- The resource that provides a capability. -/
def resolve (c : Capability) : Except Error Resolution :=
  match b.resolve? c with
  | some r => .ok r
  | none => .error (.unresolvedCapability c)

/-- The text that reads a builtin. -/
def accessor (builtin : Builtin) : Except Error String :=
  match b.accessors.lookup builtin with
  | some text => .ok text
  | none => .error (.missingAccessor builtin)

/-- The number of textures that the sampler array with a handle holds. -/
def capacity (h : Handle) : Except Error Nat :=
  match (b.descriptor? h).bind Descriptor.capacity? with
  | some count => .ok count
  | none =>
    .error (.incompatibleResource .textureSample (((b.descriptor? h).map (·.name)).getD ""))

/-- The capabilities that are provided, each with its resource. -/
def resolved : List (Capability × Handle) :=
  Capability.all.filterMap fun c => (b.resolve? c).map fun r => (c, r.handle)

/-- The builtins that can be read, each with its text. -/
def readable : List (Builtin × String) :=
  Builtin.all.filterMap fun builtin => (b.accessors.lookup builtin).map fun text => (builtin, text)

end Backend

end ShaderFlow
