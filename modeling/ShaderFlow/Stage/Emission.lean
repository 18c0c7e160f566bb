import ShaderFlow.Requirements
import ShaderFlow.Stage.TextureArray

/-!
# Writing the code of a stage

The nodes of a schedule are written one after the other. The value of each is kept, so that the
nodes after it and the outputs can use it; a value that is used more than once is put into a
temporary first, unless it is trivial or a temporary already.

An error carries the state in which it arose (`Stopped`), because what has been written and
assigned by then can still be looked at.
-/

namespace ShaderFlow

/-- How code is written. -/
structure Options where
  /-- The version of the shading language. -/
  version : Nat := 450
  /-- The common beginning of the names of temporaries. -/
  stem : String := "_"
  deriving DecidableEq, Repr

/-- The state of writing a stage. -/
structure Emission where
  /-- The places of textures, shared by all stages. -/
  textures : TextureArray := {}
  /-- The code so far. -/
  block : Block := {}
  /-- The values of the nodes written so far, the newest first. -/
  values : List (NodeId × Operand) := []
  /-- The resources used so far, in order. -/
  used : List Handle := []
  /-- What has been reported so far. -/
  events : List Event := []
  deriving DecidableEq

/-- An error with the state in which it arose. -/
structure Stopped where
  /-- The error. -/
  error : Error
  /-- The state. -/
  state : Emission
  deriving DecidableEq

namespace Emission

variable (o : Options) (g : Graph) (b : Backend) (s : Emission)

/-- The value of a node. -/
def value? (id : NodeId) : Option Operand := s.values.lookup id

/-- A result that stops in the present state if it is an error. -/
def orStop {α : Type} (r : Except Error α) : Except Stopped α := r.mapError (⟨·, s⟩)

/-- Reports an event. -/
def report (e : Event) : Emission := { s with events := s.events ++ [e] }

/-- Records that a capability's resource is used. -/
def use (c : Capability) (r : Resolution) : Emission :=
  { s with used := r.handle.insert s.used }.report (.resolved c r)

/-- Records the places of textures after one was given its place. -/
def place (textures : TextureArray) (t : Texture) (path : String) (slot : Nat) : Emission :=
  { s with textures }.report (.textureAssigned t path slot)

/-- The access expression of a requirement whose resource is known and recorded as used. -/
def accessThrough (resolution : Resolution) : Requirement → Except Stopped (Emission × String)
  | .capability _ => .ok (s, resolution.path)
  | .builtin v => do
    let accessor ← s.orStop (b.accessor v)
    return (s, resolution.path ++ accessor)
  | .texture t => do
    let capacity ← s.orStop (b.capacity resolution.handle)
    let (textures, slot) ← s.orStop (s.textures.assign t resolution.path capacity)
    return (s.place textures t resolution.path slot, resolution.path ++ "[" ++ Nat.repr slot ++ "]")

/-- The access expression of what a function depends on. -/
def access : Option Requirement → Except Stopped (Emission × Option String)
  | none => .ok (s, none)
  | some r => do
    let resolution ← s.orStop (b.resolve r.needs)
    let (s, path) ← (s.use r.needs resolution).accessThrough b resolution r
    return (s, some path)

/-- The values of a node's sources from a slot on. -/
def arguments (label : Label) : Nat → List (Option NodeId) → Except Error (List Operand)
  | _, [] => .ok []
  | slot, input :: rest =>
    match input.bind s.value? with
    | none => .error (.unboundInput label slot)
    | some value => (arguments label (slot + 1) rest).map (value :: ·)

/-- Puts a value into a temporary if it is shared and not cheap to repeat. -/
def settle (shared trivial : Bool) (code : Block × Operand) : Block × Operand :=
  if shared && !code.2.isTemporary && !trivial then
    (code.1.declare code.2.ty code.2.expr, code.1.fresh code.2.ty)
  else code

/-- Keeps the code and the value of a node. -/
def store (id : NodeId) (code : Block × Operand) : Emission :=
  { s with block := code.1, values := (id, code.2) :: s.values }.report
    (.nodeEmitted (g.label id) (code.2.expr.render o.stem))

/-- Writes the code of a node. -/
def node (shared : Bool) (id : NodeId) : Except Stopped Emission :=
  match g.node? id with
  | none => .error ⟨.unknownNode id, s⟩
  | some n => do
    let args ← s.orStop (s.arguments (g.label id) 0 n.inputs)
    let (s, access) ← s.access b n.function.requirement
    let code := (n.function.script access args).run o.stem s.block
    return s.store o g id (settle shared n.function.isTrivial code)

/-- Writes the code of the nodes of a schedule. -/
def schedule (plan : Schedule) : Except Stopped Emission :=
  plan.order.foldlM (fun s id => s.node o g b (1 < plan.uses.count id) id) s

/-- Writes the value of a node to an output. -/
def assign (output : Output) (selector : Selector) (source : NodeId) : Except Error Emission :=
  match s.value? source with
  | none => .error (.unknownNode source)
  | some value => .ok { s with block := s.block.push (.assign (output.place selector) value.expr) }

end Emission

end ShaderFlow
