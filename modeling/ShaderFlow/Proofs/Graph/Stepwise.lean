import ShaderFlow.Proofs.Graph.Connect

/-!
# Adding a node at once or step by step

A node can be added with all its wires, or added without any and wired slot by slot. The first way
checks widths alone, and the second checks each wire for cycles, too. Both come to the same: a new
node is not reached from any node that was there, so no wire of it closes a cycle
(`Graph.not_reaches_nextId`).

While the node is wired step by step, the graph is the old one with a node of which the first
slots are wired (`Node.partly`). One step and the check of one input give the same verdict
(`Graph.connect_partly`), and so do all steps and the check of all inputs
(`Graph.connectAll_partly`). `Graph.addWired_stepwise` is the comparison of the two ways.
-/

namespace ShaderFlow

/-- The node of a function of which the first slots are wired. -/
def Node.partly (f : Function) (sources : List NodeId) : Node :=
  ⟨f, sources.map some ++ List.replicate (f.signature.arity - sources.length) none⟩

namespace Graph

/-- Wires values to the inputs of a node one after the other, from a slot on. -/
def connectAll (node : NodeId) : Graph → Nat → List NodeId → Except Error Graph
  | g, _, [] => .ok g
  | g, slot, source :: rest =>
    (g.connect node slot source).bind fun g' => connectAll node g' (slot + 1) rest

/-- Adds a node and then wires its inputs one after the other. -/
def addStepwise (g : Graph) (f : Function) (inputs : List NodeId) :
    Except Error (Graph × NodeId) :=
  (connectAll (g.add f).2 (g.add f).1 0 inputs).map fun g' => (g', (g.add f).2)

/-- Two refusals of an input for the same reason. One speaks of a node of the graph, the other of a
node that was about to be added. -/
inductive SameRefusal (function : String) : Error → Error → Prop
  /-- There is no such source. -/
  | unknownNode (source : NodeId) :
    SameRefusal function (.unknownNode source) (.unknownNode source)
  /-- The source does not fit the slot. -/
  | typeMismatch (site : Site) (slot expected found : Nat) :
    SameRefusal function (.typeMismatch site slot expected found)
      (.typeMismatch (.newNode function) slot expected found)

variable {g : Graph} {f : Function} {sources rest : List NodeId} {source : NodeId}

/-! ### A node with its first slots wired -/

theorem partly_nil : Node.partly f [] = .unwired f := by
  simp [Node.partly, Node.unwired]

theorem partly_of_length_eq (h : sources.length = f.signature.arity) :
    Node.partly f sources = ⟨f, sources.map some⟩ := by
  simp [Node.partly, h]

theorem sources_partly : (Node.partly f sources).sources = sources := by
  simp [Node.partly, Node.sources, List.filterMap_append, List.filterMap_map]

theorem partly_wire (h : sources.length < f.signature.arity) :
    (Node.partly f sources).wire sources.length (some source) =
      .partly f (sources ++ [source]) := by
  have hleft : f.signature.arity - sources.length =
      f.signature.arity - (sources.length + 1) + 1 := by
    omega
  simp [Node.partly, Node.wire, hleft, List.replicate_succ]

theorem modify_push_nextId (n : Node) (change : Node → Node) :
    (g.push n).modify g.nextId change = g.push (change n) := by
  simp only [modify, push, nextId, NodeId.ofIndex, size, Nat.add_sub_cancel, Graph.mk.injEq]
  refine Array.ext_getElem? fun i => ?_
  rw [Array.getElem?_modify, Array.getElem?_push, Array.getElem?_push]
  by_cases hi : i = g.nodes.size
  · simp [hi]
  · simp [hi, Ne.symm hi]

/-- A node that is added is reached from no other, if its wires lead into the graph. -/
theorem not_reaches_nextId (hg : g.WellFormed) {n : Node}
    (hn : ∀ source ∈ n.sources, g.contains source = true) (hne : source ≠ g.nextId) :
    ¬ (g.push n).Reaches source g.nextId := by
  intro hpath
  rcases Relation.ReflTransGen.cases_tail hpath with heq | ⟨a, -, hw⟩
  · exact hne heq.symm
  · exact ne_nextId_of_wire_push hg.contains_source hn hw rfl

/-! ### One input -/

theorem outputType?_push_of_ne {n : Node} (hne : source ≠ g.nextId) :
    (g.push n).outputType? source = g.outputType? source := by
  rw [outputType?, node?_push, if_neg hne, outputType?]

/-- One more input is wired exactly if it passes the check, and it is refused for the same reason
otherwise. -/
theorem connect_partly (hg : g.WellFormed) (hsources : ∀ a ∈ sources, g.contains a = true)
    (hne : source ≠ g.nextId) :
    ((g.push (.partly f sources)).connect g.nextId sources.length source =
        .ok (g.push (.partly f (sources ++ [source]))) ∧
      g.contains source = true ∧ sources.length < f.signature.arity ∧
      ∀ rest, g.checkInputs f sources.length (source :: rest) =
        g.checkInputs f (sources.length + 1) rest) ∨
    ∃ e e', (g.push (.partly f sources)).connect g.nextId sources.length source = .error e ∧
      SameRefusal f.name e e' ∧
      ∀ rest, g.checkInputs f sources.length (source :: rest) = .error e' := by
  have hnode : (g.push (.partly f sources)).node? g.nextId = some (.partly f sources) := by
    rw [node?_push, if_pos rfl]
  have hout := outputType?_push_of_ne (n := .partly f sources) hne
  cases hfound : g.outputType? source with
  | none =>
    refine .inr ⟨_, _, ?_, .unknownNode source, fun rest => ?_⟩
    · simp [connect, hout, hfound]
    · simp [checkInputs, hfound]
  | some found =>
    by_cases hw : width f.signature sources.length = found.channels
    · obtain ⟨m, hm, rfl⟩ := Option.map_eq_some_iff.1 hfound
      obtain ⟨input, hi, -⟩ := exists_input_of_width hw
      have hslot := (width_of_input? hi).1
      have hadmits : (g.push (.partly f sources)).Admits g.nextId sources.length source :=
        ⟨_, m, hnode, node?_push_of_some hm, hslot, hw.symm⟩
      have hpath : ¬ (g.push (.partly f sources)).reaches source g.nextId = true := by
        rw [reaches_iff]
        exact not_reaches_nextId hg (sources_partly.symm ▸ hsources) hne
      refine .inl ⟨?_, by simp [contains, hm], hslot, fun rest => ?_⟩
      · rw [connect_of_admits hadmits, if_neg hpath, rewired, modify_push_nextId,
          partly_wire hslot]
      · simp [checkInputs, hfound, hw]
    · -- beyond the last slot a width of zero is expected, as by the check
      refine .inr ⟨_, _, ?_, .typeMismatch (.node ((g.push (.partly f sources)).label g.nextId))
        sources.length (width f.signature sources.length) found.channels, fun rest => ?_⟩
      · have hsig : (Node.partly f sources).signature = f.signature := rfl
        cases hi : f.signature.input? sources.length with
        | none => simp [connect, hout, hfound, hnode, hsig, hi, width]
        | some input =>
          rw [(width_of_input? hi).2] at hw ⊢
          simp [connect, hout, hfound, hnode, hsig, hi, hw]
      · simp [checkInputs, hfound, hw]

/-! ### All inputs -/

/-- Given inputs are all wired exactly if they pass the check, which asks for the missing ones next,
and the first one that does not is refused for the same reason. -/
theorem connectAll_partly (hg : g.WellFormed) (hsources : ∀ a ∈ sources, g.contains a = true)
    (hlen : sources.length ≤ f.signature.arity) (hnew : g.nextId ∉ rest) :
    (connectAll g.nextId (g.push (.partly f sources)) sources.length rest =
        .ok (g.push (.partly f (sources ++ rest))) ∧
      (sources ++ rest).length ≤ f.signature.arity ∧
      g.checkInputs f sources.length rest = g.checkInputs f (sources ++ rest).length []) ∨
    ∃ e e', connectAll g.nextId (g.push (.partly f sources)) sources.length rest = .error e ∧
      SameRefusal f.name e e' ∧ g.checkInputs f sources.length rest = .error e' := by
  -- by induction on the inputs that are left, with those that are wired put aside
  induction rest generalizing sources with
  | nil => exact .inl ⟨by simp [connectAll], by simpa using hlen, by simp⟩
  | cons source rest ih =>
    obtain ⟨hne, hnew⟩ := List.ne_and_not_mem_of_not_mem_cons hnew
    rw [connectAll]
    obtain ⟨hok, hsource, hslot, hcheck⟩ | ⟨e, e', herror, hsame, hcheck⟩ :=
      connect_partly (f := f) hg hsources (Ne.symm hne)
    · have hsources' : ∀ a ∈ sources ++ [source], g.contains a = true := by
        simpa [or_imp, forall_and] using ⟨hsources, hsource⟩
      have hlen' : (sources ++ [source]).length = sources.length + 1 := by simp
      have := ih hsources' (hlen' ▸ hslot) hnew
      rw [hlen', List.append_assoc, List.singleton_append] at this
      rw [hok, hcheck]
      exact this
    · exact .inr ⟨e, e', by rw [herror]; rfl, hsame, hcheck rest⟩

theorem checkInputs_of_missing {slot : Nat} {missing : Input}
    (h : f.signature.input? slot = some missing) : g.checkInputs f slot [] =
      .error (.typeMismatch (.newNode f.name) slot missing.ty.channels 0) := by
  simp [checkInputs, h]

theorem addWired_of_checkInputs_error {inputs : List NodeId} {e : Error}
    (h : g.checkInputs f 0 inputs = .error e) : g.addWired f inputs = .error e := by
  simp [addWired, h]

/-- The two ways of adding a node agree, or inputs are missing, or both ways refuse an input. -/
theorem addWired_cases (hg : g.WellFormed) (f : Function) {inputs : List NodeId}
    (hnew : g.nextId ∉ inputs) :
    (∃ r, g.addStepwise f inputs = .ok r ∧ inputs.length = f.signature.arity ∧
      g.addWired f inputs = .ok r) ∨
    (∃ r missing, g.addStepwise f inputs = .ok r ∧
      f.signature.input? inputs.length = some missing ∧ g.addWired f inputs =
        .error (.typeMismatch (.newNode f.name) inputs.length missing.ty.channels 0)) ∨
    ∃ e e', g.addStepwise f inputs = .error e ∧ SameRefusal f.name e e' ∧
      g.addWired f inputs = .error e' := by
  have hstart : g.addStepwise f inputs =
      (connectAll g.nextId (g.push (.partly f [])) 0 inputs).map fun g' => (g', g.nextId) := by
    rw [partly_nil]
    rfl
  have hnone : ∀ a ∈ ([] : List NodeId), g.contains a = true := by simp
  obtain ⟨hok, hlen, hcheck⟩ | ⟨e, e', herror, hsame, hcheck⟩ :=
    connectAll_partly (f := f) hg hnone (Nat.zero_le _) hnew
  · simp only [List.length_nil, List.nil_append] at hok hlen hcheck
    rw [hok] at hstart
    cases hmissing : f.signature.input? inputs.length with
    | none =>
      have hge : f.signature.arity ≤ inputs.length := List.getElem?_eq_none_iff.1 hmissing
      have heq : inputs.length = f.signature.arity := Nat.le_antisymm hlen hge
      refine .inl ⟨_, hstart, heq, ?_⟩
      simp [addWired, hcheck, checkInputs, hmissing, partly_of_length_eq heq]
    | some missing =>
      rw [checkInputs_of_missing hmissing] at hcheck
      exact .inr (.inl ⟨_, missing, hstart, rfl, addWired_of_checkInputs_error hcheck⟩)
  · rw [List.length_nil] at herror hcheck
    rw [herror] at hstart
    exact .inr (.inr ⟨e, e', hstart, hsame, addWired_of_checkInputs_error hcheck⟩)

/-- **Adding a node at once comes to the same as adding and wiring it step by step.** In a graph
that was built, and with inputs of which none is the node itself, a node is added at once exactly
if there are as many inputs as it has slots and they can be wired one after the other; the graph
and the identifier are the same. If it is refused, the graph stays as it was, and the reason is
that of the first wire that is refused. If all given inputs can be wired and some are missing, the
reason is the first missing one. -/
theorem addWired_stepwise (hg : g.Built) (f : Function) (inputs : List NodeId)
    (hnew : g.nextId ∉ inputs) :
    (∀ r, g.addWired f inputs = .ok r ↔
      inputs.length = f.signature.arity ∧ g.addStepwise f inputs = .ok r) ∧
    (∀ e, g.addWired f inputs = .error e → g.after (.addWired f inputs) = g ∧
      ((∃ e', g.addStepwise f inputs = .error e' ∧ SameRefusal f.name e' e) ∨
        ∃ r missing, g.addStepwise f inputs = .ok r ∧
          f.signature.input? inputs.length = some missing ∧
          e = .typeMismatch (.newNode f.name) inputs.length missing.ty.channels 0)) ∧
    ∀ r missing, g.addStepwise f inputs = .ok r →
      f.signature.input? inputs.length = some missing →
      g.addWired f inputs =
        .error (.typeMismatch (.newNode f.name) inputs.length missing.ty.channels 0) := by
  have hafter : ∀ e, g.addWired f inputs = .error e → g.after (.addWired f inputs) = g := by
    intro e he
    have hedit : g.apply (.addWired f inputs) = .error e := by simp [apply, he, Except.map]
    exact after_eq_of_error hedit
  obtain ⟨r, hstep, hlen, hat⟩ | ⟨r, missing, hstep, hmissing, hat⟩ | ⟨e', e, hstep, hsame, hat⟩ :=
    addWired_cases hg.wellFormed f hnew
  · refine ⟨fun r' => by simp [hstep, hlen, hat], fun e he => ?_, ?_⟩
    · cases hat.symm.trans he
    · intro r' missing _ hmissing
      have hlt := (width_of_input? hmissing).1
      omega
  · have hlt := (width_of_input? hmissing).1
    refine ⟨fun r' => ?_, fun e he => ⟨hafter e he, ?_⟩, fun r' missing' _ hmissing' => ?_⟩
    · have hne : inputs.length ≠ f.signature.arity := by omega
      simp [hat, hne]
    · cases hat.symm.trans he
      exact .inr ⟨r, missing, hstep, hmissing, rfl⟩
    · cases hmissing.symm.trans hmissing'
      exact hat
  · refine ⟨fun r' => by simp [hstep, hat], fun e he => ⟨hafter e he, ?_⟩, by simp [hstep]⟩
    cases hat.symm.trans he
    exact .inl ⟨e', hstep, hsame⟩

namespace Chain

theorem nextId_notMem : graph.nextId ∉ [NodeId.ofIndex 3, .ofIndex 0] ∧
    graph.nextId ∉ [NodeId.ofIndex 0] ∧ graph.nextId ∉ [NodeId.ofIndex 3, .null, .ofIndex 0] := by
  decide

theorem exists_addStepwise : ∃ r, graph.addStepwise sum [.ofIndex 0] = .ok r :=
  Except.exists_ok_of_isOk (by decide +kernel)

end Chain

/-- A sum of two nodes is added either way. A sum of one is not added at once, for want of the
second, and a node that is not there is refused either way. -/
theorem addWired_stepwise_chain :
    (∃ r, Chain.graph.addWired Chain.sum [.ofIndex 3, .ofIndex 0] = .ok r ∧
      Chain.graph.addStepwise Chain.sum [.ofIndex 3, .ofIndex 0] = .ok r) ∧
    Chain.graph.addWired Chain.sum [.ofIndex 0] =
      .error (.typeMismatch (.newNode "add") 1 1 0) ∧
    ∃ e, Chain.graph.addStepwise Chain.sum [.ofIndex 3, .null, .ofIndex 0] = .error e ∧
      SameRefusal "add" e (.unknownNode .null) := by
  have hbuilt : Chain.graph.Built := built_build _
  obtain ⟨hpair, hone, hnull⟩ := Chain.nextId_notMem
  obtain ⟨r, hr⟩ := Chain.exists_addStepwise
  refine ⟨⟨_, rfl, ?_⟩, ?_, ?_⟩
  · exact (((addWired_stepwise hbuilt Chain.sum _ hpair).1 _).1 rfl).2
  · exact (addWired_stepwise hbuilt Chain.sum _ hone).2.2 r _ hr rfl
  · obtain ⟨-, h | ⟨r, missing, -, hmissing, -⟩⟩ :=
      (addWired_stepwise hbuilt Chain.sum _ hnull).2.1 (.unknownNode .null) rfl
    · exact h
    · cases hmissing

end Graph

end ShaderFlow
