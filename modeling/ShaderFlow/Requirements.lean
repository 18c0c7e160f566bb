import ShaderFlow.Schedule
import ShaderFlow.Trace

/-!
# What a schedule asks of a backend

The nodes of a schedule can be checked against a backend without any code being written: every
capability has to resolve, every builtin needs a text that reads it, and textures need a sampler
array. The check does not count textures, since it gives them no places in the array.
-/

namespace ShaderFlow

/-- Resolves a capability and reports it. -/
def Backend.resolveTraced (b : Backend) (c : Capability) : Traced Resolution := do
  let resolution ← Traced.lift (b.resolve c)
  Traced.report (.resolved c resolution)
  return resolution

namespace Requirement

/-- Whether a backend, whose resource for the requirement is known, can satisfy it. -/
def checkThrough (b : Backend) (resolution : Resolution) : Requirement → Except Error Unit
  | capability _ => .ok ()
  | builtin v => (b.accessor v).map fun _ => ()
  | texture _ => (b.capacity resolution.handle).map fun _ => ()

/-- Whether a backend can satisfy a requirement. -/
def check (b : Backend) (r : Requirement) : Traced Unit := do
  let resolution ← b.resolveTraced r.needs
  Traced.lift (r.checkThrough b resolution)

end Requirement

namespace Schedule

/-- Whether a backend can satisfy a node. -/
def checkNode (g : Graph) (b : Backend) (id : NodeId) : Traced Unit :=
  match g.node? id with
  | none => .lift (.error (.unknownNode id))
  | some n =>
    match n.function.requirement with
    | none => pure ()
    | some r => r.check b

/-- Whether a backend can satisfy the nodes of a list. -/
def checkNodes (g : Graph) (b : Backend) : List NodeId → Traced Unit
  | [] => pure ()
  | id :: rest => do
    checkNode g b id
    checkNodes g b rest

/-- Whether a backend can satisfy the nodes of the schedule. -/
def check (s : Schedule) (g : Graph) (b : Backend) : Traced Unit :=
  checkNodes g b s.order

end Schedule

end ShaderFlow
