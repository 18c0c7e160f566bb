import ShaderFlow.Proofs.Graph.Connect

/-!
# Wires in any order

Each wire is checked for cycles in the graph as it is when the wire is made, and that graph depends
on the wires made before. The order makes no difference as long as no wire takes the place of
another. Two wires of different slots can be stored in either order (`Graph.rewired_comm`), and a
wire on a free slot hides none, so what comes before the last wire has no cycle if the graph at the
end has none (`Graph.Wire.rewired_of_free`). So two neighbours in a list of wires can change places
(`Graph.connect_swap`), and any order is reached by such changes (`Graph.connectEach_reordered`).
-/

namespace ShaderFlow.Graph

/-- A wire that is asked for. -/
structure Request where
  /-- The node that is wired. -/
  node : NodeId
  /-- The input of the node. -/
  slot : Nat
  /-- The node whose value the input takes. -/
  source : NodeId

/-- The input that a wire is asked for. -/
def Request.target (r : Request) : NodeId × Nat := (r.node, r.slot)

/-- Makes wires one after the other. -/
def connectEach (g : Graph) (requests : List Request) : Except Error Graph :=
  requests.foldlM (fun g r => g.connect r.node r.slot r.source) g

variable {g g' : Graph} {x y : Request} {requests : List Request}

/-! ### Two wires -/

theorem rewired_comm {n m : Node} (hx : g.node? x.node = some n) (hy : g.node? y.node = some m)
    (hne : x.target ≠ y.target) :
    (g.rewired x.node x.slot x.source).rewired y.node y.slot y.source =
      (g.rewired y.node y.slot y.source).rewired x.node x.slot x.source := by
  obtain ⟨i, -, hi, -⟩ := g.eq_ofIndex_of_node? hx
  obtain ⟨j, -, hj, -⟩ := g.eq_ofIndex_of_node? hy
  simp only [Request.target, hi, hj, ne_eq, Prod.mk.injEq, NodeId.ofIndex_inj, not_and] at hne
  simp only [rewired, modify, hi, hj, NodeId.ofIndex, Nat.add_sub_cancel, Graph.mk.injEq]
  refine Array.ext_getElem? fun k => ?_
  by_cases hk : i = k
  · by_cases hk' : j = k
    · -- both wires are of one node, so their slots differ
      have hslot : x.slot ≠ y.slot := hne (hk.trans hk'.symm)
      simp only [Array.getElem?_modify, hk, hk', ↓reduceIte, Option.map_map]
      refine congrFun (congrArg Option.map (funext fun n => ?_)) _
      simp only [Function.comp_apply, Node.wire, Node.mk.injEq, true_and]
      exact List.set_comm _ _ hslot
    · simp [Array.getElem?_modify, hk, hk']
  · by_cases hk' : j = k <;> simp [Array.getElem?_modify, hk, hk']

theorem function_rewired {n : Node} (hn : g.node? y.node = some n) (id : NodeId) :
    ((g.rewired y.node y.slot y.source).node? id).map Node.function =
      (g.node? id).map Node.function := by
  rw [node?_rewired hn]
  split_ifs with hid
  · rw [hid, hn]
    rfl
  · rfl

theorem admits_iff_functions : g.Admits x.node x.slot x.source ↔
    ∃ f f', (g.node? x.node).map Node.function = some f ∧
      (g.node? x.source).map Node.function = some f' ∧ x.slot < f.signature.arity ∧
      f'.signature.output.channels = width f.signature x.slot := by
  constructor
  · rintro ⟨n, m, hn, hm, h⟩
    exact ⟨n.function, m.function, by rw [hn]; rfl, by rw [hm]; rfl, h⟩
  · rintro ⟨f, f', hf, hf', h⟩
    obtain ⟨n, hn, rfl⟩ := Option.map_eq_some_iff.1 hf
    obtain ⟨m, hm, rfl⟩ := Option.map_eq_some_iff.1 hf'
    exact ⟨n, m, hn, hm, h⟩

/-- What a wire needs of its ends does not depend on the wires of the graph. -/
theorem admits_rewired_iff {n : Node} (hn : g.node? y.node = some n) :
    (g.rewired y.node y.slot y.source).Admits x.node x.slot x.source ↔
      g.Admits x.node x.slot x.source := by
  simp only [admits_iff_functions, function_rewired hn]

theorem Wire.rewired_of_free {n : Node} (hn : g.node? x.node = some n)
    (hfree : g.input? x.node x.slot = none) {a b : NodeId} (hw : g.Wire a b) :
    (g.rewired x.node x.slot x.source).Wire a b := by
  by_cases ha : a = x.node
  · subst ha
    obtain ⟨m, hm, hmem⟩ := wire_iff.1 hw
    cases hn.symm.trans hm
    obtain ⟨i, hi⟩ := Node.mem_sources.1 hmem
    have hne : x.slot ≠ i := by
      rintro rfl
      simp [input?, hn, hi] at hfree
    refine wire_iff.2 ⟨n.wire x.slot (some x.source), by rw [node?_rewired hn, if_pos rfl], ?_⟩
    refine Node.mem_sources.2 ⟨i, ?_⟩
    rwa [Node.input?, Node.wire, List.getElem?_set_ne hne]
  · exact hw.rewired hn ha

/-- Two wires of different slots, of which the first one is free, can be made in either order. -/
theorem connect_swap (hg : g.WellFormed) (hne : x.target ≠ y.target)
    (hfree : g.input? x.node x.slot = none) {g₁ g₂ : Graph}
    (h₁ : g.connect x.node x.slot x.source = .ok g₁)
    (h₂ : g₁.connect y.node y.slot y.source = .ok g₂) :
    ∃ g₃, g.connect y.node y.slot y.source = .ok g₃ ∧
      g₃.connect x.node x.slot x.source = .ok g₂ := by
  have hg₁ := hg.connect h₁
  obtain ⟨⟨hx, -⟩, rfl⟩ := (connect_eq_ok_iff hg).1 h₁
  obtain ⟨⟨hy, hacyclic⟩, rfl⟩ := (connect_eq_ok_iff hg₁).1 h₂
  have ⟨n, _, hn, _⟩ := hx
  rw [admits_rewired_iff hn] at hy
  have ⟨m, _, hm, _, hslot', _⟩ := hy
  rw [rewired_comm hn hm hne] at hacyclic ⊢
  rw [← hg.slots hm] at hslot'
  have hx' := (admits_rewired_iff hm).2 hx
  have ⟨n', _, hn', _⟩ := hx'
  -- the first slot is still free when the second one is wired
  have hfree' : (g.rewired y.node y.slot y.source).input? x.node x.slot = none :=
    (input?_rewired hm hslot' _ _).trans ((if_neg hne).trans hfree)
  have hbefore : (g.rewired y.node y.slot y.source).Acyclic :=
    hacyclic.mono fun a b hw => hw.rewired_of_free hn' hfree'
  have h₃ : g.connect y.node y.slot y.source = .ok (g.rewired y.node y.slot y.source) :=
    (connect_eq_ok_iff hg).2 ⟨⟨hy, hbefore⟩, rfl⟩
  exact ⟨_, h₃, (connect_eq_ok_iff (hg.connect h₃)).2 ⟨⟨hx', hacyclic⟩, rfl⟩⟩

/-! ### Any number of wires -/

theorem free_of_connect (hg : g.WellFormed) (hne : y.target ≠ x.target)
    (hfree : g.input? y.node y.slot = none) (h : g.connect x.node x.slot x.source = .ok g') :
    g'.input? y.node y.slot = none := by
  obtain ⟨⟨⟨n, -, hn, -, hslot, -⟩, -⟩, rfl⟩ := (connect_eq_ok_iff hg).1 h
  rw [← hg.slots hn] at hslot
  exact (input?_rewired hn hslot _ _).trans ((if_neg hne).trans hfree)

theorem connectEach_cons {g₂ : Graph} :
    g.connectEach (x :: requests) = .ok g₂ ↔
      ∃ g₁, g.connect x.node x.slot x.source = .ok g₁ ∧ g₁.connectEach requests = .ok g₂ :=
  Except.bind_eq_ok

/-- Wires on different slots, all of them free, that can be made in one order can be made in
another. -/
theorem connectEach_of_perm {reordered : List Request} (hperm : requests.Perm reordered)
    (hg : g.WellFormed) (hdistinct : (requests.map Request.target).Nodup)
    (hfree : ∀ r ∈ requests, g.input? r.node r.slot = none)
    (h : g.connectEach requests = .ok g') : g.connectEach reordered = .ok g' := by
  -- along the exchanges that lead from one order to the other, for all graphs at once
  induction hperm generalizing g with
  | nil => exact h
  | cons x _ ih =>
    obtain ⟨g₁, hx, h⟩ := connectEach_cons.1 h
    obtain ⟨hnew, hdistinct⟩ := List.nodup_cons.1 hdistinct
    refine connectEach_cons.2 ⟨g₁, hx, ih (hg.connect hx) hdistinct (fun r hr => ?_) h⟩
    refine free_of_connect hg ?_ (hfree r (List.mem_cons_of_mem _ hr)) hx
    exact fun heq => hnew (heq ▸ List.mem_map_of_mem hr)
  | swap x y requests =>
    obtain ⟨g₁, hy, h⟩ := connectEach_cons.1 h
    obtain ⟨g₂, hx, h⟩ := connectEach_cons.1 h
    have hne : y.target ≠ x.target := by
      simp only [List.map_cons, List.nodup_cons, List.mem_cons, not_or] at hdistinct
      exact hdistinct.1.1
    obtain ⟨g₃, hx', hy'⟩ := connect_swap hg hne (hfree y List.mem_cons_self) hy hx
    exact connectEach_cons.2 ⟨g₃, hx', connectEach_cons.2 ⟨g₂, hy', h⟩⟩
  | trans hperm _ ih₁ ih₂ =>
    refine ih₂ hg ((hperm.map _).nodup_iff.1 hdistinct) (fun r hr => ?_) (ih₁ hg hdistinct hfree h)
    exact hfree r (hperm.mem_iff.2 hr)

/-- **Wires can be made in any order.** In a graph that was built, wires on different slots, all of
them free, can be made in one order exactly if they can be made in any other, and all orders lead
to the same graph. -/
theorem connectEach_reordered (hg : g.Built) (hdistinct : (requests.map Request.target).Nodup)
    (hfree : ∀ r ∈ requests, g.input? r.node r.slot = none) :
    ∀ reordered, requests.Perm reordered → ∀ g',
      g.connectEach reordered = .ok g' ↔ g.connectEach requests = .ok g' := by
  intro reordered hperm g'
  constructor
  · refine connectEach_of_perm hperm.symm hg.wellFormed ?_ fun r hr => ?_
    · exact (hperm.map _).nodup_iff.1 hdistinct
    · exact hfree r (hperm.mem_iff.2 hr)
  · exact connectEach_of_perm hperm hg.wellFormed hdistinct hfree

/-! ### A sample -/

namespace Chain

/-- A number and two sums that take nothing yet. -/
def loose : Graph :=
  .build [.add (.constant ⟨.ofScalar .uint, .uints [2], rfl, rfl⟩), .add sum, .add sum]

/-- The wires of a chain, from the number to the last sum. -/
def wires : List Request :=
  [⟨.ofIndex 1, 0, .ofIndex 0⟩, ⟨.ofIndex 1, 1, .ofIndex 0⟩, ⟨.ofIndex 2, 0, .ofIndex 1⟩,
    ⟨.ofIndex 2, 1, .ofIndex 1⟩]

theorem exists_connectEach : ∃ g', loose.connectEach wires = .ok g' :=
  Except.exists_ok_of_isOk (by decide +kernel)

end Chain

/-- The chain can be wired from its end as well. -/
theorem connectEach_reordered_chain :
    ∃ g', Chain.loose.connectEach Chain.wires = .ok g' ∧
      Chain.loose.connectEach Chain.wires.reverse = .ok g' := by
  obtain ⟨g', h⟩ := Chain.exists_connectEach
  refine ⟨g', h, (connectEach_reordered (g := Chain.loose) (built_build _) (by decide) ?_ _
    (List.reverse_perm _).symm g').2 h⟩
  decide

end ShaderFlow.Graph
