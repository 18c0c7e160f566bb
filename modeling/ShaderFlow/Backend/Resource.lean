import ShaderFlow.Ty

/-!
# Resources

A resource is something that a shader declares before its code: a uniform block, an array of
texture samplers, or a block of stage inputs. Uniform blocks and sampler arrays are bindings of a
descriptor set; the fields of an input block are variables of their own.
-/

namespace ShaderFlow

/-- The kind of a resource. -/
inductive ResourceKind where
  | uniformBlock
  | sampledTextures
  | inputBlock
  deriving DecidableEq, Repr

namespace ResourceKind

/-- Every kind, in the order in which resources are declared. -/
def all : List ResourceKind := [.uniformBlock, .sampledTextures, .inputBlock]

/-- The name of a kind in messages and in the exchange format. -/
def label : ResourceKind → String
  | uniformBlock => "UniformBlock"
  | sampledTextures => "SampledTextures"
  | inputBlock => "InputBlock"

/-- The position of a kind in the order of resources. -/
def rank : ResourceKind → Nat
  | uniformBlock => 0
  | sampledTextures => 1
  | inputBlock => 2

theorem rank_inj {a b : ResourceKind} : a.rank = b.rank ↔ a = b := by
  cases a <;> cases b <;> simp [rank]

end ResourceKind

/-- The name of a resource of a backend: its kind and its number among those of the kind. -/
@[ext]
structure Handle where
  /-- The kind. -/
  kind : ResourceKind
  /-- The number. -/
  index : Nat
  deriving DecidableEq, Repr

namespace Handle

/-- Handles are ordered by kind and then by number. -/
def lt (a b : Handle) : Bool :=
  decide (a.kind.rank < b.kind.rank) || (a.kind == b.kind && decide (a.index < b.index))

/-- The handle as it is named in messages. -/
def describe (h : Handle) : String :=
  "ResourceHandle \x7b kind: " ++ h.kind.label ++ ", index: " ++ Nat.repr h.index ++ " \x7d"

/-- A handle put into an ordered list without repetition. -/
def insert (h : Handle) : List Handle → List Handle
  | [] => [h]
  | a :: rest =>
    if h = a then a :: rest
    else if h.lt a then h :: a :: rest
    else a :: insert h rest

@[simp]
theorem mem_insert {h a : Handle} {hs : List Handle} : a ∈ insert h hs ↔ a = h ∨ a ∈ hs := by
  induction hs with
  | nil => simp [insert]
  | cons b rest ih =>
    unfold insert
    split
    · simp_all
    · split
      · simp
      · simp only [List.mem_cons, ih]
        exact or_left_comm

end Handle

/-- A field of a block. -/
structure Field where
  /-- The name. -/
  name : String
  /-- The type. -/
  ty : Ty
  deriving DecidableEq

/-- What a binding of a descriptor set holds. -/
inductive BindingContent where
  /-- A uniform block, with the name of the block's type. -/
  | uniformBlock (block : String) (fields : List Field)
  /-- An array of texture samplers. -/
  | sampledTextures (count : UInt32)
  deriving DecidableEq

/-- A binding of a descriptor set. -/
structure Binding where
  /-- The descriptor set. -/
  set : UInt32
  /-- The name of the variable. -/
  name : String
  /-- What it holds. -/
  ty : BindingContent
  deriving DecidableEq

/-- What a resource consists of. -/
inductive Descriptor where
  /-- A binding of a descriptor set. -/
  | binding (b : Binding)
  /-- A block of stage inputs. -/
  | inputBlock (name : String) (fields : List Field)
  deriving DecidableEq

namespace Descriptor

/-- The kind of the resource. -/
def kind : Descriptor → ResourceKind
  | binding ⟨_, _, .uniformBlock ..⟩ => .uniformBlock
  | binding ⟨_, _, .sampledTextures _⟩ => .sampledTextures
  | inputBlock .. => .inputBlock

/-- The name of the resource. -/
def name : Descriptor → String
  | binding b => b.name
  | inputBlock name _ => name

/-- The expression for the resource as a whole; the fields of an input block are variables of
their own, so there is none. -/
def path : Descriptor → String
  | binding b => b.name
  | inputBlock .. => ""

/-- The descriptor set of a binding. -/
def set? : Descriptor → Option UInt32
  | binding b => some b.set
  | inputBlock .. => none

/-- The number of textures that a sampler array holds. -/
def capacity? : Descriptor → Option Nat
  | binding ⟨_, _, .sampledTextures count⟩ => some count.toNat
  | _ => none

/-- The fields that take input locations. -/
def inputs : Descriptor → List Field
  | inputBlock _ fields => fields
  | binding _ => []

end Descriptor

/-- The locations that fields take together. -/
def Field.locations : List Field → Nat
  | [] => 0
  | f :: rest => f.ty.locations + locations rest

/-- A resource of a backend. -/
structure Resource where
  /-- The name by which it was registered. -/
  handle : Handle
  /-- What it consists of. -/
  descriptor : Descriptor
  /-- The binding number of a binding, or the first location of an input block. -/
  slot : Nat
  deriving DecidableEq

namespace Resource

/-- The declarations of input variables from a location on. -/
def declareInputs : Nat → List Field → List String
  | _, [] => []
  | location, f :: rest =>
    ("layout(location = " ++ Nat.repr location ++ ") in " ++ f.ty.name ++ " " ++ f.name ++ ";\n") ::
      declareInputs (location + f.ty.locations) rest

/-- The head of a binding's declaration. -/
def declareBinding (set : UInt32) (slot : Nat) : String :=
  "layout(set = " ++ Nat.repr set.toNat ++ ", binding = " ++ Nat.repr slot ++ ") uniform "

/-- The declaration of the resource in the shading language. -/
def declaration (r : Resource) : String :=
  match r.descriptor with
  | .binding ⟨set, name, .uniformBlock block fields⟩ =>
    declareBinding set r.slot ++ block ++ " \x7b\n" ++
      String.join (fields.map fun f => "    " ++ f.ty.name ++ " " ++ f.name ++ ";\n") ++
      "\x7d " ++ name ++ ";\n"
  | .binding ⟨set, name, .sampledTextures count⟩ =>
    declareBinding set r.slot ++ "sampler2D " ++ name ++ "[" ++ Nat.repr count.toNat ++ "];\n"
  | .inputBlock _ fields => String.join (declareInputs r.slot fields)

end Resource

end ShaderFlow
