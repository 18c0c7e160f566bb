import ShaderFlow.Error

/-!
# Places of textures

Textures are given places in the sampler array in the order in which they are first needed. A
texture keeps its place, and the array cannot hold more textures than it has room for.
-/

namespace ShaderFlow

/-- The textures in the sampler array, by place. -/
structure TextureArray where
  /-- The textures. -/
  textures : List Texture := []
  deriving DecidableEq, Repr

namespace TextureArray

/-- The place of a texture in an array with a name and a number of places. -/
def assign (s : TextureArray) (t : Texture) (binding : String) (capacity : Nat) :
    Except Error (TextureArray × Nat) :=
  match s.textures.idxOf? t with
  | some slot => .ok (s, slot)
  | none =>
    if s.textures.length < capacity then .ok (⟨s.textures ++ [t]⟩, s.textures.length)
    else .error (.textureSlotsExhausted binding capacity)

end TextureArray

end ShaderFlow
