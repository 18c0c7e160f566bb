import ShaderFlow.Graph.Reach

/-!
# Building graphs

Nodes are added with all inputs unwired and wired one by one, or added with all wires at once.
A wire is refused if its ends do not exist, if the widths differ, or if it would close a cycle.
An operation that is refused gives no graph at all, so the graph it was applied to stands as it
was.
-/

namespace ShaderFlow.Graph

variable (g : Graph)

/-- Adds a node with no input wired. -/
def add (f : Function) : Graph × NodeId := (g.push (.unwired f), g.nextId)

/-- The number of channels that an input of a signature takes; none if there is no such input. -/
def width (s : Signature) (slot : Nat) : Nat := ((s.input? slot).map (·.ty.channels)).getD 0

/-- Whether the values of given nodes fit the inputs of a function from a slot on. -/
def checkInputs (f : Function) : Nat → List NodeId → Except Error Unit
  | slot, [] =>
    match f.signature.input? slot with
    | some missing => .error (.typeMismatch (.newNode f.name) slot missing.ty.channels 0)
    | none => .ok ()
  | slot, source :: rest =>
    match g.outputType? source with
    | none => .error (.unknownNode source)
    | some found =>
      if width f.signature slot = found.channels then checkInputs f (slot + 1) rest
      else .error (.typeMismatch (.newNode f.name) slot (width f.signature slot) found.channels)

/-- Adds a node with all its inputs wired. -/
def addWired (f : Function) (inputs : List NodeId) : Except Error (Graph × NodeId) :=
  match g.checkInputs f 0 inputs with
  | .error e => .error e
  | .ok () => .ok (g.push ⟨f, inputs.map some⟩, g.nextId)

/-- Wires the value of `source` to an input of a node, in place of what was there. -/
def connect (node : NodeId) (slot : Nat) (source : NodeId) : Except Error Graph :=
  match g.outputType? source with
  | none => .error (.unknownNode source)
  | some found =>
    match g.node? node with
    | none => .error (.unknownNode node)
    | some target =>
      match target.signature.input? slot with
      | none => .error (.typeMismatch (.node (g.label node)) slot 0 found.channels)
      | some input =>
        if input.ty.channels ≠ found.channels then
          .error (.typeMismatch (.node (g.label node)) slot input.ty.channels found.channels)
        else if node = source ∨ g.reaches source node = true then
          .error (.cyclicGraph (g.label node) (g.label source))
        else .ok (g.modify node (·.wire slot (some source)))

/-- Takes the wire off an input of a node; an input that is not there has none. -/
def disconnect (node : NodeId) (slot : Nat) : Except Error Graph :=
  match g.node? node with
  | none => .error (.unknownNode node)
  | some _ => .ok (g.modify node (·.wire slot none))

end ShaderFlow.Graph
