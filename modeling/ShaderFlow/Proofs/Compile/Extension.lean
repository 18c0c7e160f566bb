import ShaderFlow.Proofs.Backend.Edits
import ShaderFlow.Proofs.Compile.Manifest
import ShaderFlow.Proofs.Renaming.Compile

/-!
# Compiling for a backend that is added to

A backend that compiles a sink goes on to do so when more resources are registered, and when
capabilities or builtins that no node behind the sink requires are given to others. The result is
the same, down to the numbers in its texts (`compile_extended`).

Each part of a compilation that succeeds for a backend succeeds alike for one that extends it
(`Backend.Extends`): one node, all nodes of a stage, the text of the stage, and the check of what
is routed nowhere.
-/

namespace ShaderFlow

/-- What the nodes behind the parameters of a sink require. -/
def Graph.required (g : Graph) (k : Sink) : Set Requirement :=
  { r | ∃ id ∈ g.needed k, ∃ n, g.node? id = some n ∧ n.function.requirement = some r }

variable {o : Options} {g : Graph} {k : Sink} {b b' : Backend} {R : Set Requirement}

theorem Graph.mem_needed_of_feeds {stage : Stage} {source id : NodeId}
    (hfeeds : k.Feeds stage source) (hpath : g.Reaches source id) : id ∈ g.needed k := by
  obtain ⟨l, -, output, p, -, -, hp, hsource⟩ := hfeeds
  exact ⟨p, List.mem_of_getElem? hp, source, hsource, hpath⟩

/-! ### One stage -/

theorem Emission.node_extended (h : b.Extends R b') {s s' : Emission} {shared : Bool}
    {id : NodeId}
    (hid : ∀ n r, g.node? id = some n → n.function.requirement = some r → r ∈ R)
    (hok : s.node o g b shared id = .ok s') : s.node o g b' shared id = .ok s' := by
  unfold Emission.node at hok ⊢
  cases hn : g.node? id with
  | none => simp [hn] at hok
  | some n =>
    rw [hn] at hok
    obtain ⟨args, hargs, hok⟩ := Except.bind_eq_ok.1 hok
    obtain ⟨found, hfound, hok⟩ := Except.bind_eq_ok.1 hok
    exact Except.bind_eq_ok.2 ⟨args, hargs,
      Except.bind_eq_ok.2 ⟨found, h.access (fun r => hid n r hn) hfound, hok⟩⟩

namespace Compile

variable {textures : TextureArray} {stage : Stage} {routes : List Route} {plan : Schedule}
  {nodes s : Emission}

/-- A stage that was written for a backend is written alike for one that extends it. -/
theorem StageRun.extended (h : StageRun o g k b textures stage routes plan nodes s)
    (hg : g.WellFormed) (hb : b.Extends (g.required k) b') :
    StageRun o g k b' textures stage routes plan nodes s where
  routes_eq := h.routes_eq
  plan_eq := h.plan_eq
  nodes_eq := by
    refine Except.foldlM_eq_ok_of_steps h.nodes_eq fun id hid s s' => ?_
    obtain ⟨source, hfeeds, hpath⟩ := (h.mem_order hg).1 hid
    exact Emission.node_extended hb fun n r hn hr =>
      ⟨id, Graph.mem_needed_of_feeds hfeeds hpath, n, hn, hr⟩
  assigned := h.assigned

/-- The resources that a stage uses are declared alike, so its text is the same. -/
theorem StageRun.text_extended (h : StageRun o g k b textures stage routes plan nodes s)
    (hg : g.WellFormed) (hb : b.Extends R b') (outputs : List Output) :
    s.text o b' outputs = s.text o b outputs := by
  have hdeclared : ∀ x ∈ s.used, (b'.declaration? x).getD "" = (b.declaration? x).getD "" := by
    intro x hx
    obtain ⟨resource, hresource⟩ := Graph.exists_resource ((h.mem_used hg).1 hx)
    have hx : b.declaration? x = some resource.declaration := by
      simp [Backend.declaration?, hresource]
    rw [hb.declaration? hx, hx]
  rw [Emission.text, Emission.text, List.map_congr_left hdeclared]

theorem addStage_extended (hg : g.WellFormed) (hb : b.Extends (g.required k) b')
    {shader shader' : Shader} (h : (addStage o g k b shader stage).result = .ok shader') :
    (addStage o g k b' shader stage).result = .ok shader' := by
  obtain ⟨routes, plan, nodes, s, hrun, -⟩ := addStage_eq_ok h
  rw [(hrun.extended hg hb).addStage_result, hrun.text_extended hg hb, ← hrun.addStage_result, h]

/-! ### All stages -/

theorem addStages_extended (hg : g.WellFormed) (hb : b.Extends (g.required k) b')
    {shader shader' : Shader} {stages : List Stage}
    (h : (addStages o g k b shader stages).result = .ok shader') :
    (addStages o g k b' shader stages).result = .ok shader' := by
  induction stages generalizing shader with
  | nil => exact h
  | cons stage stages ih =>
    obtain ⟨next, hnext, h⟩ := addStages_cons.1 h
    exact addStages_cons.2 ⟨next, addStage_extended hg hb hnext, ih h⟩

theorem checkUnlinked_extended (hg : g.WellFormed) (hb : b.Extends (g.required k) b')
    {sources : List NodeId}
    (hsources : ∀ source ∈ sources, ∃ p ∈ k.parameters, p.source = some source)
    (h : (checkUnlinked g b sources).result = .ok ()) :
    (checkUnlinked g b' sources).result = .ok () := by
  rw [checkUnlinked_eq_ok hg] at h ⊢
  intro source hs id hpath
  obtain ⟨hwired, hprovided⟩ := h source hs id hpath
  obtain ⟨p, hp, hsource⟩ := hsources source hs
  refine ⟨hwired, fun n r hn hr => ?_⟩
  exact hb.provides ⟨id, ⟨p, hp, source, hsource, hpath⟩, n, hn, hr⟩ (hprovided n r hn hr)

end Compile

/-- **A result stays when the backend is added to.** If a sink compiles, it compiles to the same
result after more resources are registered, in any order with edits of capabilities and builtins
that no node behind its parameters requires. -/
theorem compile_extended {shader : Shader} {edits : List Backend.Edit} (hg : g.Built)
    (hok : (compile o g k b).result = .ok shader)
    (hedits : ∀ e ∈ edits, e.Spares (g.required k)) :
    (compile o g k (b.afterAll edits)).result = .ok shader := by
  have hwf := hg.wellFormed
  have hb : b.Extends (g.required k) (b.afterAll edits) := Backend.extends_afterAll hedits
  obtain ⟨sources, hsources, hcheck, hstages⟩ := Compile.compile_eq_ok.1 hok
  have hparameters := Sink.exists_parameter_of_unlinkedSources hsources
  exact Compile.compile_eq_ok.2 ⟨sources, hsources,
    Compile.checkUnlinked_extended hwf hb hparameters hcheck,
    Compile.addStages_extended hwf hb hstages⟩

/-! ### A sample -/

namespace Textured

/-- More resources, one of them in the descriptor set that is in use, a provider that is not
registered, and a builtin that nothing reads. -/
def edits : List Backend.Edit :=
  [.register (.binding ⟨0, "lights", .uniformBlock "Lights" [⟨"sun", .vec4⟩]⟩),
    .register (.inputBlock "instance" [⟨"offset", .vec3⟩]), .provide .transform ⟨.uniformBlock, 7⟩,
    .setAccessor .normal "normal", .register (.binding ⟨1, "more", .sampledTextures 1⟩)]

theorem edits_spare : ∀ e ∈ edits, e.Spares (graph.required sink) := by
  have hall : ∀ n ∈ graph.nodes.toList, ∀ r ∈ n.function.requirement,
      r.needs ≠ .transform ∧ r ≠ .builtin .normal := by decide
  have hrequired : ∀ r ∈ graph.required sink, r.needs ≠ .transform ∧ r ≠ .builtin .normal := by
    rintro r ⟨id, -, n, hn, hr⟩
    exact hall n (Graph.mem_nodes_of_node? hn) r hr
  simp only [edits, List.forall_mem_cons, List.not_mem_nil, false_implies, implies_true, and_true]
  exact ⟨trivial, trivial, fun r hr => (hrequired r hr).1, fun hr => (hrequired _ hr).2 rfl,
    trivial⟩

end Textured

/-- The sample compiles to the same result after its backend is added to. -/
theorem compile_extended_sample :
    ∃ shader, (compile {} Textured.graph Textured.sink Textured.backend).result = .ok shader ∧
      (∀ e ∈ Textured.edits, e.Spares (Textured.graph.required Textured.sink)) ∧
      (compile {} Textured.graph Textured.sink
        (Textured.backend.afterAll Textured.edits)).result = .ok shader := by
  obtain ⟨shader, hok⟩ := Textured.exists_compile
  exact ⟨shader, hok, Textured.edits_spare,
    compile_extended (g := Textured.graph) (Graph.built_build _) hok Textured.edits_spare⟩

end ShaderFlow
