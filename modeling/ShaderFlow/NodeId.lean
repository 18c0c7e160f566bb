/-!
# Names of nodes

Nodes live in numbered slots. A slot that is used again gets a new generation, so an identifier
that was handed out earlier can never be taken for the new tenant. The last slot number is kept
for identifiers of no node at all.
-/

namespace ShaderFlow

/-- The identifier of a node: its slot and the generation of the slot's tenant. -/
@[ext]
structure NodeId where
  /-- The slot, counted from one. -/
  slot : Nat
  /-- The generation of the tenant. -/
  generation : Nat
  deriving DecidableEq, Repr

namespace NodeId

/-- The slot of the identifiers that name no node. -/
def nullSlot : Nat := 4294967295

/-- The plain identifier that names no node. -/
def null : NodeId := ⟨nullSlot, 1⟩

/-- Whether the identifier names no node. -/
def isNull (id : NodeId) : Bool := id.slot == nullSlot

/-- The identifier of the tenant number `index` of an arena that never frees a slot. -/
def ofIndex (index : Nat) : NodeId := ⟨index + 1, 1⟩

/-- The identifier with a generation of a slot in use; those are odd, so an even number stands
for the next one. -/
def occupied (slot generation : Nat) : NodeId := ⟨slot, generation ||| 1⟩

/-- Slot and generation as text. -/
def text (id : NodeId) : String :=
  if id.isNull then "null" else Nat.repr id.slot ++ "v" ++ Nat.repr id.generation

/-- The identifier as it is named in messages. -/
def describe (id : NodeId) : String := "NodeId(" ++ id.text ++ ")"

/-- Whether `b` is a later generation than `a`. Generations are counted modulo `2 ^ 32`, and of
two the later one is the one that is less than half a turn ahead. -/
def olderThan (a b : NodeId) : Bool :=
  decide (1 <<< 31 ≤ (a.generation + UInt32.size - b.generation) % UInt32.size)

@[simp]
theorem ofIndex_inj {i j : Nat} : ofIndex i = ofIndex j ↔ i = j := by
  simp [ofIndex]

end NodeId

/-- What a message calls a node: its identifier, and its function's name if the node exists. -/
structure Label where
  /-- The identifier. -/
  id : NodeId
  /-- The name of the node's function. -/
  name : Option String
  deriving DecidableEq, Repr

namespace Label

/-- The words for the node. -/
def describe (l : Label) : String :=
  match l.name with
  | some name => "`" ++ name ++ "` node " ++ l.id.describe
  | none => l.id.describe

end Label

end ShaderFlow
