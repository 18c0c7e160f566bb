import ShaderFlow.Backend.Description
import ShaderFlow.Json.Decode

/-!
# The exchange format of backends

Descriptions of backends are written as data trees and read back. Writing gives records as
objects with all their fields and variants as objects with one field. Reading takes also records
that are arrays, objects with more fields than are read, and variants without content that are
given by a bare name; lists of a description may be left out.
-/

namespace ShaderFlow

/-! ### Types -/

namespace Ty

/-- Writes a type as its kind and its number of channels. -/
def encode (t : Ty) : Json :=
  .object [("kind", .string t.scalar.label), ("channels", .ofNat t.channels)]

/-- Reads a type; one that the language does not have is refused. -/
def decode : Decoder Ty := .record 2 fun v => do
  let scalar ← Decoder.required (.choice Scalar.all Scalar.label) (v.field? 0 "kind")
  let channels ← Decoder.required .uint32 (v.field? 1 "channels")
  match new scalar channels.toNat with
  | .ok t => .ok t
  | .error e => .error (.rejected e)

end Ty

/-! ### Resources -/

namespace Field

/-- Writes a field. -/
def encode (f : Field) : Json := .object [("name", .string f.name), ("ty", f.ty.encode)]

/-- Reads a field. -/
def decode : Decoder Field := .record 2 fun v => do
  let name ← Decoder.required .string (v.field? 0 "name")
  let ty ← Decoder.required Ty.decode (v.field? 1 "ty")
  return ⟨name, ty⟩

/-- Writes the fields of a block. -/
def encodeList (fields : List Field) : Json := .array (fields.map encode)

end Field

namespace BindingContent

/-- Writes what a binding holds. -/
def encode : BindingContent → Json
  | uniformBlock block fields =>
    .object [("UniformBlock", .object [("block", .string block),
      ("fields", Field.encodeList fields)])]
  | sampledTextures count => .object [("SampledTextures", .object [("count", .ofNat count.toNat)])]

/-- Reads what a binding holds. -/
def decode : Decoder BindingContent := fun v =>
  match v.variant? with
  | some ("UniformBlock", some (.object fields)) => do
    let block ← Decoder.required .string (fields.lookup "block")
    let fields ← Decoder.required (.list Field.decode) (fields.lookup "fields")
    return uniformBlock block fields
  | some ("SampledTextures", some (.object fields)) => do
    let count ← Decoder.required .uint32 (fields.lookup "count")
    return sampledTextures count
  | _ => .error .malformed

end BindingContent

namespace Binding

/-- Writes a binding. -/
def encode (b : Binding) : Json :=
  .object [("set", .ofNat b.set.toNat), ("name", .string b.name), ("ty", b.ty.encode)]

/-- Reads a binding. -/
def decode : Decoder Binding := .record 3 fun v => do
  let set ← Decoder.required .uint32 (v.field? 0 "set")
  let name ← Decoder.required .string (v.field? 1 "name")
  let ty ← Decoder.required BindingContent.decode (v.field? 2 "ty")
  return ⟨set, name, ty⟩

end Binding

namespace Descriptor

/-- Writes what a resource consists of. -/
def encode : Descriptor → Json
  | binding b => .object [("Binding", b.encode)]
  | inputBlock name fields =>
    .object [("InputBlock", .object [("name", .string name),
      ("fields", Field.encodeList fields)])]

/-- Reads what a resource consists of. -/
def decode : Decoder Descriptor := fun v =>
  match v.variant? with
  | some ("Binding", some content) => do
    let b ← Binding.decode content
    return binding b
  | some ("InputBlock", some (.object fields)) => do
    let name ← Decoder.required .string (fields.lookup "name")
    let fields ← Decoder.required (.list Field.decode) (fields.lookup "fields")
    return inputBlock name fields
  | _ => .error .malformed

end Descriptor

namespace Handle

/-- Writes a handle. -/
def encode (h : Handle) : Json :=
  .object [("kind", .string h.kind.label), ("index", .ofNat h.index)]

/-- Reads a handle. -/
def decode : Decoder Handle := .record 2 fun v => do
  let kind ← Decoder.required (.choice ResourceKind.all ResourceKind.label) (v.field? 0 "kind")
  let index ← Decoder.required .uint32 (v.field? 1 "index")
  return ⟨kind, index.toNat⟩

end Handle

/-! ### Descriptions -/

namespace Provision

/-- Writes a resource with the capabilities that it provides. -/
def encode (p : Provision) : Json :=
  .object [("resource", p.descriptor.encode),
    ("capabilities", .array (p.capabilities.map (.string ·.label)))]

/-- Reads a resource with the capabilities that it provides. -/
def decode : Decoder Provision := .record 2 fun v => do
  let descriptor ← Decoder.required Descriptor.decode (v.field? 0 "resource")
  let capabilities ← Decoder.optional (.list (.choice Capability.all Capability.label)) []
    (v.field? 1 "capabilities")
  return ⟨descriptor, capabilities⟩

end Provision

namespace Description

/-- Writes the text that reads a builtin. -/
def encodeAccessor (a : Builtin × String) : Json :=
  .object [("builtin", .string a.1.label), ("accessor", .string a.2)]

/-- Reads the text that reads a builtin. -/
def decodeAccessor : Decoder (Builtin × String) := .record 2 fun v => do
  let builtin ← Decoder.required (.choice Builtin.all Builtin.label) (v.field? 0 "builtin")
  let accessor ← Decoder.required .string (v.field? 1 "accessor")
  return (builtin, accessor)

/-- Writes a description. -/
def encode (d : Description) : Json :=
  .object [("resources", .array (d.provisions.map Provision.encode)),
    ("accessors", .array (d.accessors.map encodeAccessor))]

/-- Reads a description. -/
def decode : Decoder Description := .record 2 fun v => do
  let provisions ← Decoder.optional (.list Provision.decode) [] (v.field? 0 "resources")
  let accessors ← Decoder.optional (.list decodeAccessor) [] (v.field? 1 "accessors")
  return ⟨provisions, accessors⟩

end Description

end ShaderFlow
