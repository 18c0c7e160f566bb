import ShaderFlow.Ty

/-!
# What nodes ask of a backend

A node may depend on something that the program itself cannot compute: a vertex attribute, a
matrix of the scene, the time, a texture. It names the `Capability` it depends on, and a backend
decides which resource provides it. A `Requirement` is the concrete form of such a dependency:
the bare resource, one `Builtin` value read through it, or an element of the texture array.
-/

namespace ShaderFlow

/-- Something that a backend may provide. -/
inductive Capability where
  | vertexPosition
  | vertexNormal
  | vertexTangent
  | vertexUv
  | vertexColor
  | transform
  | camera
  | frameTime
  | textureSample
  deriving DecidableEq, Repr

namespace Capability

/-- Every capability. -/
def all : List Capability :=
  [.vertexPosition, .vertexNormal, .vertexTangent, .vertexUv, .vertexColor, .transform, .camera,
    .frameTime, .textureSample]

/-- The name of a capability in messages and in the exchange format. -/
def label : Capability → String
  | vertexPosition => "VertexPosition"
  | vertexNormal => "VertexNormal"
  | vertexTangent => "VertexTangent"
  | vertexUv => "VertexUv"
  | vertexColor => "VertexColor"
  | transform => "Transform"
  | camera => "Camera"
  | frameTime => "FrameTime"
  | textureSample => "TextureSample"

end Capability

/-- A value that a backend provides by itself. -/
inductive Builtin where
  | position
  | normal
  | tangent
  | uv
  | color
  | modelMatrix
  | viewMatrix
  | projectionMatrix
  | cameraPosition
  | time
  deriving DecidableEq, Repr

namespace Builtin

/-- Every builtin. -/
def all : List Builtin :=
  [.position, .normal, .tangent, .uv, .color, .modelMatrix, .viewMatrix, .projectionMatrix,
    .cameraPosition, .time]

/-- The name of a builtin in messages and in the exchange format. -/
def label : Builtin → String
  | position => "Position"
  | normal => "Normal"
  | tangent => "Tangent"
  | uv => "Uv"
  | color => "Color"
  | modelMatrix => "ModelMatrix"
  | viewMatrix => "ViewMatrix"
  | projectionMatrix => "ProjectionMatrix"
  | cameraPosition => "CameraPosition"
  | time => "Time"

/-- The name of the node that reads a builtin. -/
def name : Builtin → String
  | position => "position"
  | normal => "normal"
  | tangent => "tangent"
  | uv => "uv"
  | color => "color"
  | modelMatrix => "model_matrix"
  | viewMatrix => "view_matrix"
  | projectionMatrix => "projection_matrix"
  | cameraPosition => "camera_position"
  | time => "time"

/-- The type of a builtin. -/
def ty : Builtin → Ty
  | position | normal | cameraPosition => .vec3
  | tangent | color => .vec4
  | uv => .vec2
  | modelMatrix | viewMatrix | projectionMatrix => .mat4
  | time => .float

/-- The capability whose resource holds a builtin. -/
def capability : Builtin → Capability
  | position => .vertexPosition
  | normal => .vertexNormal
  | tangent => .vertexTangent
  | uv => .vertexUv
  | color => .vertexColor
  | modelMatrix => .transform
  | viewMatrix | projectionMatrix | cameraPosition => .camera
  | time => .frameTime

/-- The position of a builtin among all of them. -/
def index (b : Builtin) : Nat := all.idxOf b

theorem mem_all (b : Builtin) : b ∈ all := by
  cases b <;> simp [all]

end Builtin

/-- A texture that is kept outside the shader, known by its number. -/
structure Texture where
  /-- The number of the texture. -/
  id : Nat
  deriving DecidableEq, Repr

/-- The form in which a node depends on a capability. -/
inductive Requirement where
  /-- The resource of a capability as a whole. -/
  | capability (c : Capability)
  /-- A builtin, read through the resource of its capability. -/
  | builtin (b : Builtin)
  /-- An element of the array of sampled textures. -/
  | texture (t : Texture)
  deriving DecidableEq, Repr

namespace Requirement

/-- The capability that a requirement depends on. -/
def needs : Requirement → Capability
  | capability c => c
  | builtin b => b.capability
  | texture _ => .textureSample

end Requirement

end ShaderFlow
