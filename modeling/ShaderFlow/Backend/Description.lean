import ShaderFlow.Backend.Basic

/-!
# Descriptions of backends

A backend as data: its resources in the order of registration, each with the capabilities it
provides, and the texts that read the builtins. `Description.build` makes the backend.
-/

namespace ShaderFlow

/-- A resource with the capabilities that it provides. -/
structure Provision where
  /-- What the resource consists of. -/
  descriptor : Descriptor
  /-- What the resource provides. -/
  capabilities : List Capability
  deriving DecidableEq

/-- A backend as data. -/
structure Description where
  /-- The resources in the order of registration. -/
  provisions : List Provision := []
  /-- The texts that read the builtins. -/
  accessors : List (Builtin × String) := []
  deriving DecidableEq

namespace Description

/-- Registers a resource and makes it the provider of its capabilities. -/
def addProvision (b : Backend) (p : Provision) : Backend :=
  let (b, handle) := b.register p.descriptor
  p.capabilities.foldl (fun b c => b.provide c handle) b

/-- The backend that a description stands for. -/
def build (d : Description) : Backend :=
  d.accessors.foldl (fun b a => b.setAccessor a.1 a.2) (d.provisions.foldl addProvision {})

end Description

end ShaderFlow
