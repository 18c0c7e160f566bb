import ShaderFlow.Proofs.Graph.WellFormed
import ShaderFlow.Proofs.Sink.Routes

/-!
# Materials

A material is a graph with a sink that takes its values. The two are edited in any order, and a
parameter is bound to a node of the graph as it is at the time. The width of the node is checked
then and never again. It need not be, because no later edit takes a node away or changes the type
of its value (`Graph.outputType?_after`).

`Material.Sound` is what all edits keep: the graph is well formed, each link fits, and the source
of each parameter is a node of the graph that is as wide as the parameter.
-/

namespace ShaderFlow

/-! ### Edits keep the types of nodes -/

namespace Graph

variable {g : Graph}

theorem outputType?_push {id : NodeId} {ty : Ty} (h : g.outputType? id = some ty) (n : Node) :
    (g.push n).outputType? id = some ty := by
  obtain ⟨m, hm, rfl⟩ := Option.map_eq_some_iff.1 h
  simp [outputType?, node?_push_of_some hm]

theorem outputType?_rewire {node id : NodeId} {n : Node} {ty : Ty} (hn : g.node? node = some n)
    (h : g.outputType? id = some ty) (slot : Nat) (source : Option NodeId) :
    (g.modify node (·.wire slot source)).outputType? id = some ty := by
  obtain ⟨m, hm, rfl⟩ := Option.map_eq_some_iff.1 h
  obtain ⟨m', hm', hf⟩ : ∃ m', (g.modify node (·.wire slot source)).node? id = some m' ∧
      m'.function = m.function := exists_node?_modify_wire hn hm
  simp [outputType?, hm', Node.output, Node.signature, hf]

theorem outputType?_apply {id : NodeId} {ty : Ty} (h : g.outputType? id = some ty) {e : Edit}
    {r : Graph × Option NodeId} (hr : g.apply e = .ok r) : r.1.outputType? id = some ty := by
  cases e with
  | add f | constant value | builtin b =>
    cases hr
    exact outputType?_push h _
  | sample t coordinates | addWired f inputs =>
    obtain ⟨r', hr', rfl⟩ := Except.map_eq_ok.1 hr
    unfold addWired at hr'
    split at hr'
    · cases hr'
    · cases hr'
      exact outputType?_push h _
  | connect node slot source =>
    obtain ⟨g', hg', rfl⟩ := Except.map_eq_ok.1 hr
    obtain ⟨n, -, -, hn, -, -, -, -, rfl⟩ := connect_eq_ok hg'
    exact outputType?_rewire hn h slot (some source)
  | disconnect node slot =>
    obtain ⟨g', hg', rfl⟩ := Except.map_eq_ok.1 hr
    unfold disconnect at hg'
    split at hg'
    · cases hg'
    next n hn =>
      cases hg'
      exact outputType?_rewire hn h slot none

theorem outputType?_after {id : NodeId} {ty : Ty} (h : g.outputType? id = some ty) (e : Edit) :
    (g.after e).outputType? id = some ty := by
  cases hr : g.apply e with
  | ok r => simpa [after, hr] using outputType?_apply h hr
  | error err => rwa [after_eq_of_error hr]

end Graph

/-! ### Materials -/

/-- A graph and a sink that takes its values. -/
structure Material where
  /-- The graph. -/
  graph : Graph := .empty
  /-- The sink. -/
  sink : Sink := .empty

namespace Material

/-- A change to a material that a caller may ask for. -/
inductive Edit where
  /-- Changes the graph. -/
  | graph (e : Graph.Edit)
  /-- Adds an output. -/
  | output (o : Output)
  /-- Adds a parameter without a source. -/
  | parameter (name : String) (ty : Ty)
  /-- Makes a node of the graph the source of a parameter. -/
  | bind (parameter : Nat) (node : NodeId)
  /-- Routes a parameter to an output. -/
  | link (parameter output : Nat) (selector : Selector)

variable (m : Material)

/-- The material after an edit; a refused edit changes nothing. -/
def after : Edit → Material
  | .graph e => { m with graph := m.graph.after e }
  | .output o => { m with sink := m.sink.after (.output o) }
  | .parameter name ty => { m with sink := m.sink.after (.parameter name ty) }
  | .bind parameter node => { m with sink := m.sink.after (.bind m.graph parameter node) }
  | .link parameter output selector =>
    { m with sink := m.sink.after (.link parameter output selector) }

/-- The material that edits of the empty material lead to. -/
def build (edits : List Edit) : Material := edits.foldl after {}

/-- The material can be built by edits of the empty material. -/
def Built : Prop := ∃ edits, build edits = m

/-- The source of each parameter is a node of the graph and as wide as the parameter. -/
def Bound (g : Graph) (k : Sink) : Prop :=
  ∀ p ∈ k.parameters, ∀ id, p.source = some id →
    ∃ ty, g.outputType? id = some ty ∧ ty.channels = p.ty.channels

/-- What holds of every material that was built. -/
structure Sound : Prop where
  /-- The graph is well formed. -/
  graph : m.graph.WellFormed
  /-- Each link fits. -/
  links : m.sink.LinksFit
  /-- Each source fits its parameter. -/
  bound : Bound m.graph m.sink

variable {m}

theorem Bound.of_outputType? {g g' : Graph} {k : Sink} (h : Bound g k)
    (hg : ∀ id ty, g.outputType? id = some ty → g'.outputType? id = some ty) : Bound g' k := by
  intro p hp id hid
  obtain ⟨ty, hty, hc⟩ := h p hp id hid
  exact ⟨ty, hg id ty hty, hc⟩

theorem Bound.apply {g : Graph} {k k' : Sink} (h : Bound g k) {e : Sink.Edit}
    (he : ∀ g' parameter node, e = .bind g' parameter node → g' = g) (hk' : k.apply e = .ok k') :
    Bound g k' := by
  cases e with
  | output o =>
    cases hk'
    exact h
  | parameter name ty =>
    cases hk'
    intro p hp id hid
    rcases List.mem_append.1 hp with hp | hp
    · exact h p hp id hid
    · cases List.mem_singleton.1 hp
      cases hid
  | bind g' parameter node =>
    cases he g' parameter node rfl
    obtain ⟨n, q, hn, hq, hc, rfl⟩ := Sink.bindParameter_eq_ok hk'
    intro p hp id hid
    rcases List.mem_or_eq_of_mem_set hp with hp | rfl
    · exact h p hp id hid
    · cases hid
      exact ⟨n.output, by simp [Graph.outputType?, hn], hc⟩
  | link parameter output selector =>
    obtain ⟨-, -, -, -, -, rfl⟩ := Sink.link_eq_ok hk'
    exact h

theorem Bound.after {g : Graph} {k : Sink} (h : Bound g k) {e : Sink.Edit}
    (he : ∀ g' parameter node, e = .bind g' parameter node → g' = g) : Bound g (k.after e) := by
  unfold Sink.after
  split
  next hk' => exact h.apply he hk'
  next => exact h

theorem Sound.editSink (h : m.Sound) {e : Sink.Edit}
    (he : ∀ g parameter node, e = .bind g parameter node → g = m.graph) :
    Sound { m with sink := m.sink.after e } :=
  ⟨h.graph, h.links.after e, h.bound.after he⟩

theorem Sound.after (h : m.Sound) (e : Edit) : (m.after e).Sound := by
  cases e with
  | graph e =>
    refine ⟨h.graph.after e, h.links, h.bound.of_outputType? fun id ty hty => ?_⟩
    exact Graph.outputType?_after hty e
  | output o => exact h.editSink nofun
  | parameter name ty => exact h.editSink nofun
  | bind parameter node =>
    refine h.editSink fun g parameter' node' heq => ?_
    cases heq
    rfl
  | link parameter output selector => exact h.editSink nofun

theorem sound_empty : Sound {} where
  graph := Graph.wellFormed_empty
  links := Sink.linksFit_empty
  bound := by simp [Bound, Sink.empty]

theorem Built.sound (h : m.Built) : m.Sound := by
  obtain ⟨edits, rfl⟩ := h
  suffices ∀ m : Material, m.Sound → (edits.foldl Material.after m).Sound from
    this {} sound_empty
  induction edits with
  | nil => exact fun m hm => hm
  | cons e edits ih => exact fun m hm => ih _ (hm.after e)

/-- A route of a material takes the value of a node that is as wide as the part of the output that
the route writes. -/
theorem Sound.route_width (h : m.Sound) {stage : Stage} {routes : List Route}
    (hroutes : m.sink.routes stage m.sink.links = .ok routes) {r : Route} (hr : r ∈ routes) :
    ∃ ty, m.graph.outputType? r.source = some ty ∧
      ty.channels = r.selector.width r.output.ty := by
  obtain ⟨l, hl, hout, hselector, p, hp, hsource⟩ :=
    exists_left_of_forall₂ (Sink.forall₂_of_routes hroutes) hr
  obtain ⟨q, out, hq, ho, hfits⟩ := h.links l (List.mem_filter.1 hl).1
  cases hp.symm.trans hq
  cases hout.symm.trans ho
  obtain ⟨ty, hty, hc⟩ := h.bound p (List.mem_of_getElem? hp) r.source hsource
  refine ⟨ty, hty, ?_⟩
  simp only [Sink.fits, Bool.and_eq_true, beq_iff_eq] at hfits
  rw [hc, hselector, hfits.1]

end Material

end ShaderFlow
