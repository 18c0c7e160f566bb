import ShaderFlow.Function.Basic

/-!
# Graphs of nodes

A graph owns its nodes and hands out identifiers. Nodes are never removed, so the first node has
slot one, the next one slot two, and all are of the first generation. A node has one slot for
each input of its function; a slot is empty or names the node whose value it takes.
-/

namespace ShaderFlow

/-- A function with its wires. -/
structure Node where
  /-- What the node computes. -/
  function : Function
  /-- The source of each input, if it is wired. -/
  inputs : List (Option NodeId)

namespace Node

variable (n : Node)

/-- The node of a function with no input wired. -/
def unwired (f : Function) : Node := ⟨f, List.replicate f.signature.arity none⟩

/-- The inputs and the output of the node's function. -/
def signature : Signature := n.function.signature

/-- The source of an input. -/
def input? (slot : Nat) : Option NodeId := n.inputs[slot]?.join

/-- The type of the node's value. -/
def output : Ty := n.signature.output

/-- The nodes that the node takes values from, by slot. -/
def sources : List NodeId := n.inputs.filterMap id

/-- The node with another source, or none, at a slot. -/
def wire (slot : Nat) (source : Option NodeId) : Node :=
  { n with inputs := n.inputs.set slot source }

end Node

/-- An arena of nodes. -/
structure Graph where
  /-- The nodes by slot. -/
  nodes : Array Node := #[]

namespace Graph

variable (g : Graph)

/-- The graph without nodes. -/
def empty : Graph := {}

/-- The number of nodes. -/
def size : Nat := g.nodes.size

/-- The node with an identifier. -/
def node? (id : NodeId) : Option Node :=
  if id.generation = 1 ∧ 1 ≤ id.slot then g.nodes[id.slot - 1]? else none

/-- Whether the graph has a node with this identifier. -/
def contains (id : NodeId) : Bool := (g.node? id).isSome

/-- The type of a node's value. -/
def outputType? (id : NodeId) : Option Ty := (g.node? id).map Node.output

/-- The source of an input of a node. -/
def input? (id : NodeId) (slot : Nat) : Option NodeId := (g.node? id).bind (·.input? slot)

/-- The nodes that a node takes values from; none if there is no such node. -/
def sources (id : NodeId) : List NodeId := ((g.node? id).map Node.sources).getD []

/-- The identifiers of the nodes, in the order in which they were added. -/
def ids : List NodeId := (List.range g.size).map NodeId.ofIndex

/-- What messages call a node. -/
def label (id : NodeId) : Label := ⟨id, (g.node? id).map (·.function.name)⟩

/-- The graph after the node with an identifier is changed. -/
def modify (id : NodeId) (f : Node → Node) : Graph := ⟨g.nodes.modify (id.slot - 1) f⟩

/-- The identifier of the node that is added next. -/
def nextId : NodeId := .ofIndex g.size

/-- The graph with one more node. -/
def push (n : Node) : Graph := ⟨g.nodes.push n⟩

/-! ### The graph as text -/

/-- The source of an input, or an underscore if it is not wired. -/
def describeInput : Option NodeId → String
  | some source => source.describe
  | none => "_"

/-- A node on one line. -/
def describeNode (id : NodeId) (n : Node) : String :=
  "\t" ++ id.describe ++ " " ++ n.output.name ++ " = " ++ n.function.name ++ "(" ++
    ", ".intercalate (n.inputs.map describeInput) ++ ")\n"

/-- The whole graph, a node on each line. -/
def describe : String :=
  "Graph \x7b\n" ++
    String.join (g.ids.zipWith describeNode g.nodes.toList) ++ "\x7d\n"

/-! ### Lookup -/

@[simp]
theorem node?_ofIndex (i : Nat) : g.node? (.ofIndex i) = g.nodes[i]? := by
  simp [node?, NodeId.ofIndex]

theorem eq_ofIndex_of_node? {id : NodeId} {n : Node} (h : g.node? id = some n) :
    ∃ i, i < g.size ∧ id = .ofIndex i ∧ g.nodes[i]? = some n := by
  unfold node? at h
  split at h
  next hid =>
    obtain ⟨hgen, hslot⟩ := hid
    obtain ⟨hlt, -⟩ := Array.getElem?_eq_some_iff.1 h
    refine ⟨id.slot - 1, hlt, ?_, h⟩
    ext <;> simp [NodeId.ofIndex] <;> omega
  next => simp at h

/-- A node that is added is found under the next identifier, and no other lookup changes. -/
theorem node?_push (n : Node) (id : NodeId) :
    (g.push n).node? id = if id = g.nextId then some n else g.node? id := by
  by_cases hid : id.generation = 1 ∧ 1 ≤ id.slot
  · have heq : id = g.nextId ↔ id.slot - 1 = g.nodes.size := by
      simp only [nextId, NodeId.ofIndex, size, NodeId.ext_iff]
      omega
    simp only [node?, push, hid, and_self, ↓reduceIte, heq, Array.getElem?_push]
  · have hne : id ≠ g.nextId := by
      rintro rfl
      exact hid ⟨rfl, Nat.le_add_left 1 _⟩
    simp only [node?, hid, hne, ↓reduceIte]

/-- A change to an existing node is seen under its identifier alone. -/
theorem node?_modify {target : NodeId} (h : g.contains target = true) (f : Node → Node)
    (id : NodeId) :
    (g.modify target f).node? id = if id = target then (g.node? id).map f else g.node? id := by
  obtain ⟨n, hn⟩ := Option.isSome_iff_exists.1 h
  obtain ⟨i, -, rfl, -⟩ := g.eq_ofIndex_of_node? hn
  by_cases hid : id.generation = 1 ∧ 1 ≤ id.slot
  · have heq : id = NodeId.ofIndex i ↔ i = id.slot - 1 := by
      simp only [NodeId.ofIndex, NodeId.ext_iff]
      omega
    simp only [heq, node?, modify, hid, and_self, ↓reduceIte, Array.getElem?_modify]
    rfl
  · have hne : id ≠ NodeId.ofIndex i := by
      rintro rfl
      exact hid ⟨rfl, Nat.le_add_left 1 _⟩
    simp only [node?, hid, hne, ↓reduceIte]

theorem mem_ids {id : NodeId} : id ∈ g.ids ↔ g.contains id = true := by
  simp only [ids, List.mem_map, List.mem_range, contains, Option.isSome_iff_exists]
  constructor
  · rintro ⟨i, hi, rfl⟩
    exact ⟨g.nodes[i], by simp [node?_ofIndex, Array.getElem?_eq_getElem hi]⟩
  · rintro ⟨n, hn⟩
    obtain ⟨i, hi, rfl, -⟩ := g.eq_ofIndex_of_node? hn
    exact ⟨i, hi, rfl⟩

end Graph

end ShaderFlow
