import ShaderFlow.Proofs.Schedule.Walk

/-!
# When there is a schedule, and in which order

Roots have a schedule exactly if they are nodes of the graph and nothing that they need has a slot
without a source (`Schedule.dependency_order`). What is scheduled is what the roots reach, and each
node comes after the nodes that are wired to its slots.

In a well-formed graph no wire leads out of the graph, so a node that is missing can only be a root,
and a node has as many slots as its function has inputs (`Graph.WellFormed.isWired_iff`).
-/

namespace ShaderFlow

/-- Some slot of the node has no source. -/
def Graph.HasUnwired (g : Graph) (id : NodeId) : Prop :=
  ∃ n slot, g.node? id = some n ∧ slot < n.signature.arity ∧ n.input? slot = none

variable {g : Graph}

theorem Graph.WellFormed.isWired_iff (hg : g.WellFormed) {id : NodeId} :
    g.IsWired id ↔ g.contains id = true ∧ ¬ g.HasUnwired id := by
  constructor
  · rintro ⟨n, hn, hwired⟩
    refine ⟨by simp [Graph.contains, hn], ?_⟩
    rintro ⟨m, slot, hm, hslot, hnone⟩
    cases hn.symm.trans hm
    rw [← hg.slots hn] at hslot
    have hsome := hwired n.inputs[slot] (List.getElem_mem hslot)
    rw [Node.input?, List.getElem?_eq_getElem hslot, Option.join_some] at hnone
    rw [hnone] at hsome
    exact Bool.false_ne_true hsome
  · rintro ⟨hcontains, hunwired⟩
    obtain ⟨n, hn⟩ := Option.isSome_iff_exists.1 hcontains
    refine ⟨n, hn, fun input hinput => ?_⟩
    obtain ⟨slot, hslot, rfl⟩ := List.getElem_of_mem hinput
    rw [Option.isSome_iff_ne_none]
    intro hnone
    refine hunwired ⟨n, slot, hn, hg.slots hn ▸ hslot, ?_⟩
    rw [Node.input?, List.getElem?_eq_getElem hslot, hnone, Option.join_some]

theorem Graph.mem_sources_of_input? {id source : NodeId} {slot : Nat}
    (h : g.input? id slot = some source) : source ∈ g.sources id := by
  obtain ⟨n, hn, hslot⟩ := Option.bind_eq_some_iff.1 h
  rw [g.sources_of_node? hn]
  exact Node.mem_sources.2 ⟨slot, hslot⟩

namespace Schedule

/-- **What a schedule lists and when there is one.** Roots have a schedule exactly if all of them
are in the graph and no node that they reach has a slot without a source. It lists each node once,
exactly the nodes that the roots reach, and each after all nodes that are wired to its slots. -/
theorem dependency_order (hg : g.Built) (roots : List NodeId) :
    ((∃ s, ofRoots g roots = .ok s) ↔ (∀ r ∈ roots, g.contains r = true) ∧
      ∀ r ∈ roots, ∀ id, g.Reaches r id → ¬ g.HasUnwired id) ∧
    ∀ s, ofRoots g roots = .ok s → s.order.Nodup ∧
      (∀ id, id ∈ s.order ↔ ∃ r ∈ roots, g.Reaches r id) ∧
      ∀ done id rest, s.order = done ++ id :: rest →
        ∀ slot source, g.input? id slot = some source → source ∈ done := by
  have hwf := hg.wellFormed
  constructor
  · rw [exists_ofRoots_iff hwf]
    constructor
    · intro h
      refine ⟨fun r hr => (h r hr r (.refl r)).contains, fun r hr id hpath => ?_⟩
      exact (hwf.isWired_iff.1 (h r hr id hpath)).2
    · rintro ⟨hroots, hunwired⟩ r hr id hpath
      exact hwf.isWired_iff.2
        ⟨hwf.contains_of_reaches (hroots r hr) hpath, hunwired r hr id hpath⟩
  · intro s hs
    have hsound := sound_of_ofRoots hwf hs
    refine ⟨hsound.nodup, hsound.mem_iff, ?_⟩
    intro done id rest horder slot source hsource
    exact hsound.sorted done id rest horder (Graph.mem_sources_of_input? hsource)

/-! ### A sample -/

namespace Ladder

/-- The sum of two numbers. -/
def sum : Function := .library (.add (.ofScalar .int)) rfl

/-- A graph in which each sum takes the one before it and a number, and a sum that takes nothing
yet. -/
def graph : Graph :=
  .build [.add (.constant ⟨.ofScalar .int, .ints [1], rfl, rfl⟩),
    .addWired sum [.ofIndex 0, .ofIndex 0], .addWired sum [.ofIndex 1, .ofIndex 0], .add sum]

theorem hasUnwired : graph.HasUnwired (.ofIndex 3) := ⟨_, 0, rfl, by decide, rfl⟩

/-- The nodes that are wired. -/
def wired : List NodeId := [.ofIndex 0, .ofIndex 1, .ofIndex 2]

theorem isWired : ∀ id ∈ wired, graph.IsWired id := by
  simp only [wired, List.forall_mem_cons]
  refine ⟨⟨_, rfl, nofun⟩, ⟨⟨sum, [some (.ofIndex 0), some (.ofIndex 0)]⟩, rfl, ?_⟩,
    ⟨⟨sum, [some (.ofIndex 1), some (.ofIndex 0)]⟩, rfl, ?_⟩, nofun⟩
  · simp [Node.Wired]
  · simp [Node.Wired]

/-- A node that is wired needs only such nodes. -/
theorem not_hasUnwired {r id : NodeId} (hr : r ∈ wired) (hpath : graph.Reaches r id) :
    ¬ graph.HasUnwired id := by
  have hclosed : ∀ id ∈ wired, graph.sources id ⊆ wired := by decide
  have hid := isWired id (hpath.mem_of_closed hclosed hr)
  exact ((Graph.built_build _).wellFormed.isWired_iff.1 hid).2

end Ladder

/-- The sums that are wired have a schedule, whatever is mentioned twice. There is none if a root is
a sum that is not wired or no node at all. -/
theorem dependency_order_ladder :
    (∃ s, ofRoots Ladder.graph [.ofIndex 2, .ofIndex 1, .ofIndex 2] = .ok s ∧ s.order.Nodup ∧
      (∀ id, id ∈ s.order ↔
        ∃ r ∈ [NodeId.ofIndex 2, .ofIndex 1, .ofIndex 2], Ladder.graph.Reaches r id) ∧
      ∀ done id rest, s.order = done ++ id :: rest →
        ∀ slot source, Ladder.graph.input? id slot = some source → source ∈ done) ∧
    (¬ ∃ s, ofRoots Ladder.graph [.ofIndex 2, .ofIndex 3] = .ok s) ∧
    ¬ ∃ s, ofRoots Ladder.graph [.ofIndex 2, .null] = .ok s := by
  have h := dependency_order (g := Ladder.graph) (Graph.built_build _)
  have hroots : ∀ r ∈ [NodeId.ofIndex 2, .ofIndex 1, .ofIndex 2],
      Ladder.graph.contains r = true ∧ r ∈ Ladder.wired := by decide
  obtain ⟨s, hs⟩ := (h [.ofIndex 2, .ofIndex 1, .ofIndex 2]).1.2
    ⟨fun r hr => (hroots r hr).1, fun r hr _ => Ladder.not_hasUnwired (hroots r hr).2⟩
  refine ⟨⟨s, hs, (h _).2 s hs⟩, fun hok => ?_, fun hok => ?_⟩
  · exact ((h _).1.1 hok).2 (.ofIndex 3) (by simp) _ (.refl _) Ladder.hasUnwired
  · exact absurd (((h _).1.1 hok).1 .null (by simp)) (by decide)

end Schedule

end ShaderFlow
