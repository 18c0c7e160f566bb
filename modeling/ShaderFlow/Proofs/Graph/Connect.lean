import ShaderFlow.Proofs.Graph.WellFormed

/-!
# Which wires are accepted

A wire that leads from a node to a source is refused if the source depends on the node. The search
for that runs while the wire that is replaced is still in place, so it could take a path over a
wire that is about to go. It makes no difference: a path to a node can be cut off where it first
gets there, and what is left uses no wire of the node itself (`Graph.Reaches.rewired`). So the
search finds the node exactly if the new wire closes a cycle (`Graph.acyclic_rewired_iff`).

* `Graph.Admits` says that the ends of a wire are there and fit, whatever the paths;
* `Graph.connect_of_admits` and `Graph.connect_of_not_admits` say what becomes of a wire;
* `Graph.connect_exactly` says which wires are accepted, which are refused for a cycle, and what
  an accepted wire changes.
-/

namespace ShaderFlow.Graph

open Relation

/-- The graph with a source stored in a slot of a node, in place of what was there. -/
def rewired (g : Graph) (node : NodeId) (slot : Nat) (source : NodeId) : Graph :=
  g.modify node (·.wire slot (some source))

/-- The node and the source of a wire are there, the node has the slot, and the value of the source
is as wide as the slot. -/
def Admits (g : Graph) (node : NodeId) (slot : Nat) (source : NodeId) : Prop :=
  ∃ n m, g.node? node = some n ∧ g.node? source = some m ∧ slot < n.signature.arity ∧
    m.output.channels = width n.signature slot

/-- Two graphs have the same nodes, and no slot but one has another source. -/
structure SameBut (g g' : Graph) (node : NodeId) (slot : Nat) : Prop where
  /-- There are as many nodes. -/
  size : g'.size = g.size
  /-- The nodes have the same functions and as many slots. -/
  nodes : ∀ id, (g'.node? id).map (fun n => (n.function, n.inputs.length)) =
    (g.node? id).map fun n => (n.function, n.inputs.length)
  /-- All other slots have the sources that they had. -/
  inputs : ∀ id i, (id, i) ≠ (node, slot) → g'.input? id i = g.input? id i

variable {g : Graph} {node source : NodeId} {slot : Nat} {n : Node}

/-! ### Paths and the wire that is replaced -/

theorem node?_rewired (hn : g.node? node = some n) (id : NodeId) :
    (g.rewired node slot source).node? id =
      if id = node then some (n.wire slot (some source)) else g.node? id := by
  have hc : g.contains node = true := by simp [contains, hn]
  rw [rewired, node?_modify g hc]
  split_ifs with hid
  · rw [hid, hn, Option.map_some]
  · rfl

theorem input?_rewired (hn : g.node? node = some n) (hslot : slot < n.inputs.length) (id : NodeId)
    (i : Nat) :
    (g.rewired node slot source).input? id i =
      if (id, i) = (node, slot) then some source else g.input? id i := by
  rw [input?, node?_rewired hn]
  by_cases hid : id = node
  · by_cases hi : i = slot
    · simp [hid, hi, Node.input?, Node.wire, List.getElem?_set_self hslot]
    · simp [hid, hi, Node.input?, Node.wire, List.getElem?_set_ne (Ne.symm hi), input?, hn]
  · simp [hid, input?]

theorem sameBut_rewired (hn : g.node? node = some n) (hslot : slot < n.inputs.length) :
    g.SameBut (g.rewired node slot source) node slot where
  size := by simp [rewired, modify, size]
  nodes id := by
    rw [node?_rewired hn]
    by_cases hid : id = node
    · simp [hid, hn, Node.wire]
    · simp [hid]
  inputs id i hne := by rw [input?_rewired hn hslot, if_neg hne]

theorem Wire.rewired (hn : g.node? node = some n) {a b : NodeId} (hw : g.Wire a b)
    (ha : a ≠ node) : (g.rewired node slot source).Wire a b := by
  obtain ⟨m, hm, hmem⟩ := wire_iff.1 hw
  exact wire_iff.2 ⟨m, by rw [node?_rewired hn, if_neg ha, hm], hmem⟩

/-- What reaches the node still does so after one of its wires is replaced: the path is cut off
where it first gets to the node. -/
theorem Reaches.rewired (hn : g.node? node = some n) {a : NodeId} (h : g.Reaches a node) :
    (g.rewired node slot source).Reaches a node := by
  induction h using ReflTransGen.head_induction_on with
  | refl => exact .refl node
  | @head a b hab _ ih =>
    by_cases ha : a = node
    · exact ha ▸ .refl a
    · exact .head (hab.rewired hn ha) ih

/-- The new wire is there, since the node has the slot. -/
theorem wire_rewired_self (hn : g.node? node = some n) (hslot : slot < n.inputs.length) :
    (g.rewired node slot source).Wire node source := by
  refine wire_iff.2 ⟨n.wire slot (some source), by rw [node?_rewired hn, if_pos rfl], ?_⟩
  refine Node.mem_sources.2 ⟨slot, ?_⟩
  simp [Node.input?, Node.wire, List.getElem?_set_self hslot]

/-- A new wire closes a cycle exactly if its end reached its start before, be it over the wire that
is replaced. -/
theorem acyclic_rewired_iff (hg : g.Acyclic) (hn : g.node? node = some n)
    (hslot : slot < n.inputs.length) :
    (g.rewired node slot source).Acyclic ↔ ¬ g.Reaches source node := by
  constructor
  · intro hacyclic hpath
    exact hacyclic node (.head' (wire_rewired_self hn hslot) (hpath.rewired hn))
  · intro hpath
    refine hg.rewire hn fun source' hs => ?_
    cases hs
    exact hpath

/-! ### What becomes of a wire -/

theorem width_of_input? {s : Signature} {input : Input} (h : s.input? slot = some input) :
    slot < s.arity ∧ width s slot = input.ty.channels :=
  ⟨(List.getElem?_eq_some_iff.1 h).1, by simp [width, h]⟩

/-- A wire whose ends are there and fit is refused only if its source reaches the node. -/
theorem connect_of_admits (h : g.Admits node slot source) :
    g.connect node slot source =
      if g.reaches source node = true then .error (.cyclicGraph (g.label node) (g.label source))
      else .ok (g.rewired node slot source) := by
  obtain ⟨n, m, hn, hm, hslot, hc⟩ := h
  obtain ⟨input, hi⟩ : ∃ input, n.signature.input? slot = some input :=
    ⟨_, List.getElem?_eq_getElem hslot⟩
  rw [(width_of_input? hi).2] at hc
  -- a node reaches itself, so it need not be told apart from its source
  have hself : node = source ∨ g.reaches source node = true ↔ g.reaches source node = true := by
    refine or_iff_right_of_imp ?_
    rintro rfl
    exact reaches_iff.2 (.refl node)
  simp only [connect, outputType?, hm, Option.map_some, hn, hi, hc, ne_eq, not_true_eq_false,
    ↓reduceIte, hself, rewired]

/-- A wire whose ends are missing or do not fit is refused for another reason than a cycle. -/
theorem connect_of_not_admits (h : ¬ g.Admits node slot source) :
    ∃ e, g.connect node slot source = .error e ∧
      ∀ target origin, e ≠ .cyclicGraph target origin := by
  unfold connect
  split
  · exact ⟨_, rfl, nofun⟩
  next found hfound =>
    obtain ⟨m, hm, rfl⟩ := Option.map_eq_some_iff.1 hfound
    split
    · exact ⟨_, rfl, nofun⟩
    next n hn =>
      split
      · exact ⟨_, rfl, nofun⟩
      next input hi =>
        obtain ⟨hslot, hwidth⟩ := width_of_input? hi
        have hc : input.ty.channels ≠ m.output.channels := fun hc =>
          h ⟨n, m, hn, hm, hslot, hc.symm.trans hwidth.symm⟩
        exact ⟨_, if_pos hc, nofun⟩

theorem Admits.acyclic_rewired_iff (h : g.Admits node slot source) (hg : g.WellFormed) :
    (g.rewired node slot source).Acyclic ↔ ¬ g.reaches source node = true := by
  obtain ⟨n, m, hn, -, hslot, -⟩ := h
  rw [reaches_iff]
  exact Graph.acyclic_rewired_iff hg.acyclic hn (hg.slots hn ▸ hslot)

theorem connect_eq_ok_iff (hg : g.WellFormed) {g' : Graph} :
    g.connect node slot source = .ok g' ↔
      (g.Admits node slot source ∧ (g.rewired node slot source).Acyclic) ∧
        g' = g.rewired node slot source := by
  by_cases h : g.Admits node slot source
  · rw [connect_of_admits h, h.acyclic_rewired_iff hg]
    split_ifs with hpath
    · simp [hpath]
    · simp [h, hpath, eq_comm]
  · obtain ⟨e, he, -⟩ := connect_of_not_admits h
    simp [he, h]

theorem connect_eq_cyclicGraph_iff (hg : g.WellFormed) {target origin : Label} :
    g.connect node slot source = .error (.cyclicGraph target origin) ↔
      (g.Admits node slot source ∧ ¬ (g.rewired node slot source).Acyclic) ∧
        target = g.label node ∧ origin = g.label source := by
  by_cases h : g.Admits node slot source
  · rw [connect_of_admits h, h.acyclic_rewired_iff hg]
    split_ifs with hpath
    · simp [h, hpath, eq_comm]
    · simp [hpath]
  · obtain ⟨e, he, hne⟩ := connect_of_not_admits h
    simp [he, h, hne target origin]

/-- **Wires are accepted exactly if they fit and close no cycle.** In a graph that was built, a
wire is accepted exactly if its ends are there and fit and the graph has no cycle when the source
is stored in the slot. It is refused for a cycle exactly if its ends are there and fit and there is
one. An accepted wire changes its slot, which names the source then, and nothing else. -/
theorem connect_exactly (hg : g.Built) (node : NodeId) (slot : Nat) (source : NodeId) :
    ((∃ g', g.connect node slot source = .ok g') ↔
      g.Admits node slot source ∧ (g.rewired node slot source).Acyclic) ∧
    (∀ target origin, g.connect node slot source = .error (.cyclicGraph target origin) ↔
      (g.Admits node slot source ∧ ¬ (g.rewired node slot source).Acyclic) ∧
        target = g.label node ∧ origin = g.label source) ∧
    ∀ g', g.connect node slot source = .ok g' →
      g'.input? node slot = some source ∧ g.SameBut g' node slot := by
  have hwf := hg.wellFormed
  refine ⟨?_, fun target origin => connect_eq_cyclicGraph_iff hwf, fun g' hg' => ?_⟩
  · simp only [connect_eq_ok_iff hwf, exists_and_left, exists_eq, and_true]
  · obtain ⟨⟨⟨n, m, hn, -, hslot, -⟩, -⟩, rfl⟩ := (connect_eq_ok_iff hwf).1 hg'
    rw [← hwf.slots hn] at hslot
    refine ⟨?_, sameBut_rewired hn hslot⟩
    rw [input?_rewired hn hslot, if_pos rfl]

/-! ### A sample -/

namespace Chain

/-- The sum of two numbers. -/
def sum : Function := .library (.add (.ofScalar .uint)) rfl

/-- A number, and three sums of which each takes the one before it twice, the first one nothing. -/
def graph : Graph :=
  .build [.add (.constant ⟨.ofScalar .uint, .uints [1], rfl, rfl⟩), .add sum,
    .addWired sum [.ofIndex 1, .ofIndex 1], .addWired sum [.ofIndex 2, .ofIndex 2]]

theorem exists_connect : ∃ g', graph.connect (.ofIndex 3) 0 (.ofIndex 1) = .ok g' :=
  Except.exists_ok_of_isOk (by decide +kernel)

theorem connect_first : graph.connect (.ofIndex 1) 1 (.ofIndex 3) =
    .error (.cyclicGraph ⟨.ofIndex 1, some "add"⟩ ⟨.ofIndex 3, some "add"⟩) := by
  have hpath : graph.reaches (.ofIndex 3) (.ofIndex 1) = true := by decide +kernel
  rw [connect_of_admits ⟨_, _, rfl, rfl, by decide, rfl⟩, if_pos hpath]
  rfl

end Chain

/-- A wire of the last sum can skip the sum in the middle, and the graph has no cycle then. The
first sum cannot take the last one, and the graph would have a cycle if it did. -/
theorem connect_exactly_chain :
    (∃ g', Chain.graph.connect (.ofIndex 3) 0 (.ofIndex 1) = .ok g' ∧
      g'.input? (.ofIndex 3) 0 = some (.ofIndex 1) ∧
      g'.input? (.ofIndex 3) 1 = some (.ofIndex 2)) ∧
    (Chain.graph.rewired (.ofIndex 3) 0 (.ofIndex 1)).Acyclic ∧
    ¬ (Chain.graph.rewired (.ofIndex 1) 1 (.ofIndex 3)).Acyclic := by
  obtain ⟨g', hg'⟩ := Chain.exists_connect
  obtain ⟨hok, -, hsame⟩ := connect_exactly (g := Chain.graph) (built_build _) (.ofIndex 3) 0
    (.ofIndex 1)
  obtain ⟨-, hcyclic, -⟩ := connect_exactly (g := Chain.graph) (built_build _) (.ofIndex 1) 1
    (.ofIndex 3)
  obtain ⟨hslot, hother⟩ := hsame g' hg'
  refine ⟨⟨g', hg', hslot, ?_⟩, (hok.1 ⟨g', hg'⟩).2, ?_⟩
  · exact hother.inputs (.ofIndex 3) 1 (by decide)
  · exact ((hcyclic _ _).1 Chain.connect_first).1.2

end ShaderFlow.Graph
