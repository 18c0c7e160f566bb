import ShaderFlow.Graph.Wiring
import ShaderFlow.Proofs.Graph.Reachable
import ShaderFlow.Proofs.Basic

/-!
# Well-formed graphs

A graph is built by edits, of which some are refused. Whatever the edits are, the graph they lead
to is well formed: it has no cycle, each node has one slot for each input of its function, and
each wire leads to a node of the graph with a value of the right width.

* `Graph.Edit` is an edit with all its arguments, and `Graph.after` the graph it leads to;
* `Graph.WellFormed` is the invariant, and `Graph.WellFormed.after` what one edit keeps of it;
* `Graph.Built.wellFormed` is what all edits together keep.

A node that is added with its wires is not checked for cycles. It needs no check, because no wire
of a well-formed graph leads to an identifier that is not in use (`Graph.Acyclic.push`).
-/

namespace ShaderFlow.Graph

open Relation

/-! ### Edits -/

/-- A change to a graph that a caller may ask for. -/
inductive Edit where
  /-- Adds a node with no input wired. -/
  | add (f : Function)
  /-- Adds a literal. -/
  | constant (value : Literal)
  /-- Adds a builtin of the backend. -/
  | builtin (b : Builtin)
  /-- Adds a texture sample at given coordinates. -/
  | sample (t : Texture) (coordinates : NodeId)
  /-- Adds a node with all its inputs wired. -/
  | addWired (f : Function) (inputs : List NodeId)
  /-- Wires the value of a node to an input. -/
  | connect (node : NodeId) (slot : Nat) (source : NodeId)
  /-- Takes the wire off an input. -/
  | disconnect (node : NodeId) (slot : Nat)

variable (g : Graph)

/-- The graph after an edit and the node that was added, or why the edit is refused. -/
def apply : Edit → Except Error (Graph × Option NodeId)
  | .add f => .ok ((g.add f).1, (g.add f).2)
  | .constant value => .ok ((g.add (.constant value)).1, (g.add (.constant value)).2)
  | .builtin b => .ok ((g.add (.builtin b)).1, (g.add (.builtin b)).2)
  | .sample t coordinates => (g.addWired (.sample t) [coordinates]).map fun r => (r.1, r.2)
  | .addWired f inputs => (g.addWired f inputs).map fun r => (r.1, r.2)
  | .connect node slot source => (g.connect node slot source).map fun g' => (g', none)
  | .disconnect node slot => (g.disconnect node slot).map fun g' => (g', none)

/-- The graph after an edit; a refused edit changes nothing. -/
def after (e : Edit) : Graph :=
  match g.apply e with
  | .ok r => r.1
  | .error _ => g

/-- The graph that edits of the empty graph lead to. -/
def build (edits : List Edit) : Graph := edits.foldl after empty

/-- The graph can be built by edits of the empty graph. -/
def Built : Prop := ∃ edits, build edits = g

theorem built_build (edits : List Edit) : (build edits).Built := ⟨edits, rfl⟩

/-- The node has the slot, and the source is a node of the graph whose value is as wide. -/
def Fits (n : Node) (slot : Nat) (source : NodeId) : Prop :=
  ∃ input m, n.signature.input? slot = some input ∧ g.node? source = some m ∧
    m.output.channels = input.ty.channels

/-- Each node has its slots, each wire fits its slot, and no wires form a cycle. -/
structure WellFormed : Prop where
  /-- No node takes values from itself. -/
  acyclic : g.Acyclic
  /-- A node has one slot for each input. -/
  slots : ∀ {id n}, g.node? id = some n → n.inputs.length = n.signature.arity
  /-- A wire leads to a node whose value is as wide as the input. -/
  wires : ∀ {id n slot source}, g.node? id = some n → n.input? slot = some source →
    g.Fits n slot source

variable {g}

theorem Fits.contains {n : Node} {slot : Nat} {source : NodeId} (h : g.Fits n slot source) :
    g.contains source = true := by
  obtain ⟨-, m, -, hm, -⟩ := h
  simp [Graph.contains, hm]

theorem WellFormed.contains_source (h : g.WellFormed) {id source : NodeId}
    (hw : g.Wire id source) : g.contains source = true := by
  obtain ⟨n, hn, hmem⟩ := wire_iff.1 hw
  obtain ⟨slot, hslot⟩ := Node.mem_sources.1 hmem
  exact (h.wires hn hslot).contains

theorem WellFormed.contains_of_reaches (h : g.WellFormed) {a b : NodeId}
    (ha : g.contains a = true) (hab : g.Reaches a b) : g.contains b = true := by
  rcases ReflTransGen.cases_tail hab with rfl | ⟨c, -, hw⟩
  · exact ha
  · exact h.contains_source hw

theorem wellFormed_empty : empty.WellFormed where
  acyclic id hcycle := by
    obtain ⟨b, hb, -⟩ := TransGen.head'_iff.1 hcycle
    simp [Wire, sources, node?, empty] at hb
  slots hn := by simp [node?, empty] at hn
  wires hn := by simp [node?, empty] at hn

/-! ### One more node -/

theorem contains_nextId : g.contains g.nextId = false := by
  simp [contains, nextId, size]

theorem node?_push_of_some {n m : Node} {id : NodeId} (h : g.node? id = some m) :
    (g.push n).node? id = some m := by
  have hne : id ≠ g.nextId := by
    rintro rfl
    simpa [contains, h] using g.contains_nextId
  simp [node?_push, hne, h]

/-- No wire leads to a node that is added, if its own wires lead into the graph. -/
theorem ne_nextId_of_wire_push (hin : ∀ {a b}, g.Wire a b → g.contains b = true) {n : Node}
    (hn : ∀ source ∈ n.sources, g.contains source = true) {a b : NodeId}
    (hw : (g.push n).Wire a b) : b ≠ g.nextId := by
  rintro rfl
  have hb : g.contains g.nextId = true := by
    obtain ⟨m, hm, hmem⟩ := wire_iff.1 hw
    rw [node?_push] at hm
    split at hm
    · exact hn _ (by simpa [← Option.some.inj hm] using hmem)
    · exact hin (wire_iff.2 ⟨m, hm, hmem⟩)
  simp [contains_nextId] at hb

/-- A node whose wires lead into the graph closes no cycle, since no wire leads to it. -/
theorem Acyclic.push (hg : g.Acyclic) (hin : ∀ {a b}, g.Wire a b → g.contains b = true) {n : Node}
    (hn : ∀ source ∈ n.sources, g.contains source = true) : (g.push n).Acyclic := by
  have hold : ∀ {a b}, (g.push n).Wire a b → a ≠ g.nextId → g.Wire a b := by
    intro a b hw ha
    obtain ⟨m, hm, hmem⟩ := wire_iff.1 hw
    rw [node?_push, if_neg ha] at hm
    exact wire_iff.2 ⟨m, hm, hmem⟩
  -- a path that does not start at the new node never gets there
  have hpath : ∀ {a b}, (g.push n).DependsOn a b → a ≠ g.nextId → g.DependsOn a b := by
    intro a b hab
    induction hab using TransGen.head_induction_on with
    | single hw => exact fun ha => .single (hold hw ha)
    | head hw _ ih => exact fun ha => .head (hold hw ha) (ih (ne_nextId_of_wire_push hin hn hw))
  intro id hcycle
  obtain ⟨a, -, hw⟩ := TransGen.tail'_iff.1 hcycle
  exact hg id (hpath hcycle (ne_nextId_of_wire_push hin hn hw))

theorem Fits.push {n m : Node} {slot : Nat} {source : NodeId} (h : g.Fits n slot source) :
    (g.push m).Fits n slot source := by
  obtain ⟨input, found, hi, hfound, hc⟩ := h
  exact ⟨input, found, hi, node?_push_of_some hfound, hc⟩

theorem WellFormed.push (h : g.WellFormed) {n : Node} (hlen : n.inputs.length = n.signature.arity)
    (hwires : ∀ {slot source}, n.input? slot = some source → g.Fits n slot source) :
    (g.push n).WellFormed where
  acyclic := by
    refine h.acyclic.push h.contains_source fun source hmem => ?_
    obtain ⟨slot, hslot⟩ := Node.mem_sources.1 hmem
    exact (hwires hslot).contains
  slots {id m} hm := by
    rw [node?_push] at hm
    split at hm
    · exact Option.some.inj hm ▸ hlen
    · exact h.slots hm
  wires {id m slot source} hm hslot := by
    rw [node?_push] at hm
    split at hm
    · cases hm
      exact (hwires hslot).push
    · exact (h.wires hm hslot).push

theorem WellFormed.add (h : g.WellFormed) (f : Function) : (g.add f).1.WellFormed := by
  refine h.push (by simp [Node.unwired, Node.signature]) fun {slot source} hslot => ?_
  simp [Node.unwired, Node.input?, List.getElem?_replicate, Option.join_eq_some_iff] at hslot

/-- A slot that is as wide as a value is there. A slot beyond the last one has width zero, which no
value has. -/
theorem exists_input_of_width {s : Signature} {slot : Nat} {ty : Ty}
    (h : width s slot = ty.channels) :
    ∃ input, s.input? slot = some input ∧ input.ty.channels = ty.channels := by
  have hpos := ty.channels_pos
  cases hin : s.input? slot with
  | none => simp [width, hin] at h; omega
  | some input => exact ⟨input, rfl, by simpa [width, hin] using h⟩

/-- Inputs that pass the check are as many as the function has, and each fits its slot. -/
theorem checkInputs_eq_ok {f : Function} {slot : Nat} {inputs : List NodeId}
    (hslot : slot ≤ f.signature.arity) (h : g.checkInputs f slot inputs = .ok ()) :
    slot + inputs.length = f.signature.arity ∧ ∀ i source, inputs[i]? = some source →
      ∃ input m, f.signature.input? (slot + i) = some input ∧ g.node? source = some m ∧
        m.output.channels = input.ty.channels := by
  -- by induction on the inputs, with the number of the slot counted up
  induction inputs generalizing slot with
  | nil =>
    simp only [checkInputs] at h
    split at h
    · cases h
    next hnone =>
      have hge : f.signature.arity ≤ slot := List.getElem?_eq_none_iff.1 hnone
      exact ⟨by simp; omega, by simp⟩
  | cons source rest ih =>
    simp only [checkInputs] at h
    split at h
    · cases h
    next found hfound =>
      split at h
      next hw =>
        obtain ⟨m, hm, rfl⟩ := Option.map_eq_some_iff.1 hfound
        obtain ⟨input, hi, hc⟩ := exists_input_of_width hw
        have hlt : slot < f.signature.arity := (List.getElem?_eq_some_iff.1 hi).1
        obtain ⟨hlen, hrest⟩ := ih hlt h
        refine ⟨by simp; omega, fun i s hs => ?_⟩
        cases i with
        | zero =>
          simp only [List.getElem?_cons_zero, Option.some.injEq] at hs
          exact ⟨input, m, hi, hs ▸ hm, hc.symm⟩
        | succ i =>
          rw [List.getElem?_cons_succ] at hs
          obtain ⟨input', m', hi', h'⟩ := hrest i s hs
          exact ⟨input', m', by rwa [← Nat.add_assoc, Nat.add_right_comm], h'⟩
      next => cases h

theorem WellFormed.addWired (h : g.WellFormed) {f : Function} {inputs : List NodeId}
    {r : Graph × NodeId} (hr : g.addWired f inputs = .ok r) : r.1.WellFormed := by
  unfold Graph.addWired at hr
  split at hr
  · cases hr
  next hcheck =>
    cases hr
    obtain ⟨hlen, hwires⟩ := checkInputs_eq_ok (Nat.zero_le _) hcheck
    refine h.push (by simpa [Node.signature] using hlen) fun {slot source} hslot => ?_
    have hs : inputs[slot]? = some source := by
      simpa [Node.input?, Option.join_eq_some_iff] using hslot
    simpa [Fits, Node.signature] using hwires slot source hs

/-! ### One more wire, or one less -/

section Rewire

variable {node : NodeId} {n : Node} {slot : Nat} {new : Option NodeId}

/-- A slot that names a node after a change is the changed one, or it named the node before. -/
theorem eq_of_input?_wire {slot' : Nat} {source : NodeId}
    (h : (n.wire slot new).input? slot' = some source) :
    slot' = slot ∧ new = some source ∨ n.input? slot' = some source := by
  simp only [Node.wire, Node.input?, List.getElem?_set] at h
  split at h
  next heq =>
    split at h
    · exact Or.inl ⟨heq.symm, h⟩
    · simp at h
  next => exact Or.inr h

theorem node?_modify_wire (hn : g.node? node = some n) {id : NodeId} {m : Node}
    (hm : (g.modify node (·.wire slot new)).node? id = some m) :
    id = node ∧ m = n.wire slot new ∨ g.node? id = some m := by
  have hc : g.contains node = true := by simp [contains, hn]
  rw [node?_modify g hc] at hm
  split at hm
  next heq =>
    subst heq
    simp only [hn, Option.map_some, Option.some.injEq] at hm
    exact Or.inl ⟨rfl, hm.symm⟩
  next => exact Or.inr hm

theorem exists_node?_modify_wire (hn : g.node? node = some n) {id : NodeId} {m : Node}
    (hm : g.node? id = some m) :
    ∃ m', (g.modify node (·.wire slot new)).node? id = some m' ∧ m'.function = m.function := by
  have hc : g.contains node = true := by simp [contains, hn]
  rw [node?_modify g hc]
  split
  · exact ⟨m.wire slot new, by simp [hm], rfl⟩
  · exact ⟨m, hm, rfl⟩

theorem wire_modify_wire (hn : g.node? node = some n) {a b : NodeId}
    (hw : (g.modify node (·.wire slot new)).Wire a b) :
    g.Wire a b ∨ a = node ∧ new = some b := by
  obtain ⟨m, hm, hmem⟩ := wire_iff.1 hw
  rcases node?_modify_wire hn hm with ⟨rfl, rfl⟩ | hm
  · obtain ⟨slot', hslot⟩ := Node.mem_sources.1 hmem
    rcases eq_of_input?_wire hslot with ⟨-, hnew⟩ | hold
    · exact Or.inr ⟨rfl, hnew⟩
    · exact Or.inl (wire_iff.2 ⟨n, hn, Node.mem_sources.2 ⟨slot', hold⟩⟩)
  · exact Or.inl (wire_iff.2 ⟨m, hm, hmem⟩)

/-- A graph without cycles still has none after a wire was changed, unless the new one leads to
a node that depends on its start. The old wire may be part of no cycle, so it need not go first. -/
theorem Acyclic.rewire (hg : g.Acyclic) (hn : g.node? node = some n)
    (hnew : ∀ source, new = some source → ¬ g.Reaches source node) :
    (g.modify node (·.wire slot new)).Acyclic := by
  cases new with
  | none => exact hg.mono fun a b hw => (wire_modify_wire hn hw).resolve_right (by simp)
  | some source =>
    refine hg.of_wire (fun a b hw => ?_) (hnew source rfl)
    refine (wire_modify_wire hn hw).imp_right fun ⟨ha, hb⟩ => ⟨ha, ?_⟩
    exact (Option.some.inj hb).symm

theorem WellFormed.rewire (h : g.WellFormed) (hn : g.node? node = some n)
    (hnew : ∀ source, new = some source → ¬ g.Reaches source node ∧ g.Fits n slot source) :
    (g.modify node (·.wire slot new)).WellFormed where
  acyclic := h.acyclic.rewire hn fun source hs => (hnew source hs).1
  slots {id m} hm := by
    rcases node?_modify_wire hn hm with ⟨rfl, rfl⟩ | hm
    · simpa [Node.wire, Node.signature] using h.slots hn
    · exact h.slots hm
  wires {id m slot' source} hm hslot := by
    have hfits : g.Fits m slot' source := by
      rcases node?_modify_wire hn hm with ⟨rfl, rfl⟩ | hm
      · change g.Fits n slot' source
        rcases eq_of_input?_wire hslot with ⟨rfl, hsource⟩ | hold
        · exact (hnew source hsource).2
        · exact h.wires hn hold
      · exact h.wires hm hslot
    obtain ⟨input, m', hi, hm', hc⟩ := hfits
    obtain ⟨m'', hm'', hf⟩ := exists_node?_modify_wire hn hm'
    refine ⟨input, m'', hi, hm'', ?_⟩
    rw [← hc, Node.output, Node.output, Node.signature, Node.signature, hf]

end Rewire

theorem connect_eq_ok {node source : NodeId} {slot : Nat} {g' : Graph}
    (h : g.connect node slot source = .ok g') :
    ∃ n m input, g.node? node = some n ∧ g.node? source = some m ∧
      n.signature.input? slot = some input ∧ m.output.channels = input.ty.channels ∧
      ¬ g.Reaches source node ∧ g' = g.modify node (·.wire slot (some source)) := by
  unfold connect at h
  split at h
  · cases h
  next found hfound =>
    obtain ⟨m, hm, rfl⟩ := Option.map_eq_some_iff.1 hfound
    split at h
    · cases h
    next n hn =>
      split at h
      · cases h
      next input hi =>
        split at h
        · cases h
        next hc =>
          split at h
          · cases h
          next hcycle =>
            rw [not_or, reaches_iff] at hcycle
            cases h
            exact ⟨n, m, input, hn, hm, hi, (not_not.1 hc).symm, hcycle.2, rfl⟩

theorem WellFormed.connect (h : g.WellFormed) {node source : NodeId} {slot : Nat} {g' : Graph}
    (hg' : g.connect node slot source = .ok g') : g'.WellFormed := by
  obtain ⟨n, m, input, hn, hm, hi, hc, hpath, rfl⟩ := connect_eq_ok hg'
  refine h.rewire hn fun source' hs => ?_
  cases hs
  exact ⟨hpath, input, m, hi, hm, hc⟩

theorem WellFormed.disconnect (h : g.WellFormed) {node : NodeId} {slot : Nat} {g' : Graph}
    (hg' : g.disconnect node slot = .ok g') : g'.WellFormed := by
  unfold Graph.disconnect at hg'
  split at hg'
  · cases hg'
  next n hn =>
    cases hg'
    exact h.rewire hn nofun

/-! ### Any edits -/

theorem WellFormed.apply (h : g.WellFormed) {e : Edit} {r : Graph × Option NodeId}
    (hr : g.apply e = .ok r) : r.1.WellFormed := by
  cases e with
  | add f | constant value | builtin b =>
    cases hr
    exact h.add _
  | sample t coordinates | addWired f inputs =>
    obtain ⟨r', hr', rfl⟩ := Except.map_eq_ok.1 hr
    exact h.addWired hr'
  | connect node slot source =>
    obtain ⟨g', hg', rfl⟩ := Except.map_eq_ok.1 hr
    exact h.connect hg'
  | disconnect node slot =>
    obtain ⟨g', hg', rfl⟩ := Except.map_eq_ok.1 hr
    exact h.disconnect hg'

theorem after_eq_of_error {e : Edit} {err : Error} (h : g.apply e = .error err) :
    g.after e = g := by
  simp [after, h]

theorem WellFormed.after (h : g.WellFormed) (e : Edit) : (g.after e).WellFormed := by
  cases hr : g.apply e with
  | ok r => simpa [Graph.after, hr] using h.apply hr
  | error err => rwa [after_eq_of_error hr]

theorem wellFormed_foldl_after (h : g.WellFormed) (edits : List Edit) :
    (edits.foldl Graph.after g).WellFormed := by
  induction edits generalizing g with
  | nil => exact h
  | cons e edits ih => exact ih (h.after e)

theorem Built.wellFormed (h : g.Built) : g.WellFormed := by
  obtain ⟨edits, rfl⟩ := h
  exact wellFormed_foldl_after wellFormed_empty edits

/-- **No edits lead astray.** Whatever the edits, refused ones among them, the graph that they lead
to has no cycle, each node has one slot for each input, and each wire leads to a node of the graph
that is as wide as the input. A further edit that is refused leaves that graph as it was. -/
theorem acyclic_and_fitting_build (edits : List Edit) :
    (build edits).Acyclic ∧
      (∀ id n, (build edits).node? id = some n → n.inputs.length = n.signature.arity ∧
        ∀ slot source, n.input? slot = some source →
          ∃ input m, n.signature.input? slot = some input ∧
            (build edits).node? source = some m ∧ m.output.channels = input.ty.channels) ∧
      ∀ e err, (build edits).apply e = .error err → build (edits ++ [e]) = build edits := by
  have h : (build edits).WellFormed := (built_build edits).wellFormed
  refine ⟨h.acyclic, fun id n hn => ⟨h.slots hn, fun slot source => h.wires hn⟩, ?_⟩
  intro e err herr
  rw [build, List.foldl_append]
  exact after_eq_of_error herr

end ShaderFlow.Graph
