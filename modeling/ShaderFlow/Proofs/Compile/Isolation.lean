import ShaderFlow.Proofs.Compile.Textures
import ShaderFlow.Proofs.Sink.Only

/-!
# A stage compiled on its own

What a stage compiles to depends on its own outputs and links, and on the places that textures
have when its turn comes. A sink with the outputs of one stage alone (`Sink.only`) compiles as that
stage does when no texture has a place (`Compile.compile_only`). Parameters that are routed to
other stages are routed nowhere then: what they need is no longer written, but passes the check.

So the first stage is what it is without the second, and the second is what it is without the
first, unless the first gives a texture a place (`Compile.stages_isolated`).
-/

namespace ShaderFlow

variable {o : Options} {g : Graph} {k : Sink} {b : Backend} {stage : Stage} {shader : Shader}

theorem Sink.Links.of_only {parameter : Nat} {source : NodeId}
    (h : (k.only stage).Links parameter source) : k.Links parameter source := by
  obtain ⟨hlinked, hp⟩ := h
  refine ⟨?_, hp⟩
  obtain ⟨_, hmem, hparameter⟩ := List.any_eq_true.1 hlinked
  obtain ⟨l, hl, rfl⟩ := List.mem_map.1 hmem
  exact List.any_eq_true.2 ⟨l, (Sink.mem_linksTo.1 hl).1, hparameter⟩

/-- What it takes to compile a sink is enough for each of its stages. -/
theorem Compilable.only (h : Compilable g k b) (stage : Stage) :
    Compilable g (k.only stage) b where
  bound := h.bound
  wired := h.wired
  provided := h.provided
  room count hcount := by
    refine le_trans (Set.encard_le_encard ?_) (h.room count hcount)
    rintro t ⟨parameter, source, id, hlinks, ht⟩
    exact ⟨parameter, source, id, hlinks.of_only, ht⟩

namespace Compile

/-- The outputs and links of other stages make no difference to a stage. -/
theorem addStage_only (hk : k.LinksRefer) (shader : Shader) (stage : Stage) :
    addStage o g (k.only stage) b shader stage = addStage o g k b shader stage := by
  rw [addStage, addStage, Sink.routes_only hk, Sink.outputsOf_only]

/-- A sink with the outputs of one stage compiles as the stage does when it comes first. -/
theorem compile_only (hc : Compilable g k b) (hg : g.WellFormed) (hk : k.LinksRefer)
    (hstage : stage ∈ k.stages) {alone : Shader} :
    (compile o g (k.only stage) b).result = .ok alone ↔
      (addStage o g k b {} stage).result = .ok alone := by
  obtain ⟨sources, hsources, hcheck⟩ := (hc.only stage).exists_unlinked hg
  rw [compile_eq_ok, Sink.stages_only hstage, ← addStage_only hk]
  constructor
  · rintro ⟨-, -, -, h⟩
    obtain ⟨next, hnext, h⟩ := addStages_cons.1 h
    cases addStages_nil.1 h
    exact hnext
  · intro h
    exact ⟨sources, hsources, hcheck, addStages_cons.2 ⟨alone, h, addStages_nil.2 rfl⟩⟩

theorem StageRun.unique {textures : TextureArray} {routes routes' : List Route}
    {plan plan' : Schedule} {nodes nodes' s s' : Emission}
    (h : StageRun o g k b textures stage routes plan nodes s)
    (h' : StageRun o g k b textures stage routes' plan' nodes' s') : s = s' := by
  cases h.routes_eq.symm.trans h'.routes_eq
  cases h.plan_eq.symm.trans h'.plan_eq
  cases h.nodes_eq.symm.trans h'.nodes_eq
  exact Except.ok.inj (h.assigned.symm.trans h'.assigned)

theorem StageRun.textures_eq_of_none {textures : TextureArray} {routes : List Route}
    {plan : Schedule} {nodes s : Emission}
    (h : StageRun o g k b textures stage routes plan nodes s) (hg : g.WellFormed)
    (hnone : ∀ source id, k.Feeds stage source → g.Reaches source id → g.texture? id = none) :
    s.textures = textures := by
  have hempty : plan.order.filterMap g.texture? = [] := by
    refine List.filterMap_eq_nil_iff.2 fun id hid => ?_
    obtain ⟨source, hfeeds, hpath⟩ := (h.mem_order hg).1 hid
    exact hnone source id hfeeds hpath
  have htextures := h.textures_eq hg
  rw [hempty] at htextures
  exact congrArg TextureArray.mk htextures

/-- **Stages are isolated.** Let a sink with outputs of both stages compile. With the outputs of the
vertex stage alone it compiles to the same vertex text, and its textures are the first of those
there were. With the outputs of the fragment stage alone it compiles too, and to the same fragment
text if no node behind the vertex stage depends on a texture. -/
theorem stages_isolated (hg : g.Built) (hk : k.Built)
    (hok : (compile o g k b).result = .ok shader) (hboth : shader.stages.map (·.1) = Stage.all) :
    (∀ stage, (k.only stage).Built) ∧
      (∃ text alone, shader.stage? .vertex = some text ∧
        (compile o g (k.only .vertex) b).result = .ok alone ∧ alone.stages = [(.vertex, text)] ∧
        alone.textures.textures <+: shader.textures.textures) ∧
      ∃ text alone text', shader.stage? .fragment = some text ∧
        (compile o g (k.only .fragment) b).result = .ok alone ∧
        alone.stages = [(.fragment, text')] ∧
        ((∀ source id, k.Feeds .vertex source → g.Reaches source id → g.texture? id = none) →
          text' = text) := by
  have hwf := hg.wellFormed
  have hrefer := hk.links_refer
  have hc := compilable_of_ok hwf hrefer hok
  rw [(stageText_of_compile hwf hok).1] at hboth
  have hmem : ∀ stage, stage ∈ k.stages := fun stage => hboth ▸ Stage.mem_all stage
  obtain ⟨-, -, -, hstages⟩ := compile_eq_ok.1 hok
  rw [hboth] at hstages
  obtain ⟨first, hfirst, hstages⟩ := addStages_cons.1 hstages
  obtain ⟨hpre, -⟩ := addStages_result hwf hstages
  obtain ⟨last, hlast, hstages⟩ := addStages_cons.1 hstages
  cases addStages_nil.1 hstages
  obtain ⟨_, _, _, sv, hrunv, htextv, htexturesv, -⟩ := addStage_eq_ok hfirst
  obtain ⟨_, _, _, sf, hrunf, htextf, -, -⟩ := addStage_eq_ok hlast
  have htexts : shader.stages = [(.vertex, sv.text o b (k.outputsOf .vertex)),
      (.fragment, sf.text o b (k.outputsOf .fragment))] := by
    rw [htextf, htextv]
    rfl
  refine ⟨hk.only, ⟨_, first, by rw [Shader.stage?, htexts]; rfl,
    (compile_only hc hwf hrefer (hmem .vertex)).2 hfirst, htextv, hpre⟩, ?_⟩
  have hnd : ({} : TextureArray).textures.Nodup := List.nodup_nil
  obtain ⟨_, _, _, s, hrun⟩ := hc.exists_stageRun (o := o) hwf hrefer hnd (by simp) .fragment
  refine ⟨_, _, _, by rw [Shader.stage?, htexts]; rfl,
    (compile_only hc hwf hrefer (hmem .fragment)).2 hrun.addStage_result, rfl, fun hnone => ?_⟩
  have hempty : first.textures = {} := by
    rw [htexturesv, hrunv.textures_eq_of_none hwf hnone]
  rw [hempty] at hrunf
  rw [hrun.unique hrunf]

end Compile

/-! ### A sample -/

namespace Textured

/-- A sink whose vertex stage takes the coordinates, and whose fragment stage takes both samples.
The outputs of the two stages alternate, and the time is routed nowhere. -/
def layered : Sink :=
  .build [.output ⟨"color", .fragment, 0, .vec4⟩, .output ⟨"coords", .vertex, 0, .vec2⟩,
    .output ⟨"glow", .fragment, 1, .vec4⟩, .parameter "base" .vec4, .parameter "uv" .vec2,
    .parameter "detail" .vec4, .parameter "clock" .float, .bind graph 0 (.ofIndex 1),
    .bind graph 1 (.ofIndex 0), .bind graph 2 (.ofIndex 2), .bind graph 3 (.ofIndex 3),
    .link 2 2 .whole, .link 1 1 .whole, .link 0 0 .whole]

theorem texture?_vertex {source id : NodeId} (hfeeds : layered.Feeds .vertex source)
    (hpath : graph.Reaches source id) : graph.texture? id = none := by
  have hlinks : layered.linksTo .vertex = [⟨1, 1, .whole⟩] := rfl
  obtain ⟨l, hl, p, hp, hsource⟩ := Sink.feeds_iff.1 hfeeds
  rw [hlinks, List.mem_singleton] at hl
  cases hl
  cases hp
  cases hsource
  have hid : id ∈ [NodeId.ofIndex 0] := hpath.mem_of_closed (by decide) (by decide)
  cases List.mem_singleton.1 hid
  rfl

end Textured

/-- Each stage of the sample compiles on its own to the text that it has with the other. -/
theorem Compile.stages_isolated_sample :
    ∃ shader, (compile {} Textured.graph Textured.layered Textured.backend).result = .ok shader ∧
      ∀ stage, ∃ text alone, shader.stage? stage = some text ∧
        (compile {} Textured.graph (Textured.layered.only stage) Textured.backend).result =
          .ok alone ∧ alone.stages = [(stage, text)] := by
  obtain ⟨shader, hok⟩ : ∃ shader,
      (compile {} Textured.graph Textured.layered Textured.backend).result = .ok shader :=
    Except.exists_ok_of_isOk (by decide +kernel)
  have hboth : shader.stages.map (·.1) = Stage.all := by
    rw [(stageText_of_compile (Graph.built_build _).wellFormed hok).1]
    rfl
  obtain ⟨-, ⟨text, alone, htext, halone, hstages, -⟩, hfragment⟩ :=
    stages_isolated (g := Textured.graph) (k := Textured.layered) (Graph.built_build _)
      (Sink.built_build _) hok hboth
  refine ⟨shader, hok, fun stage => ?_⟩
  cases stage with
  | vertex => exact ⟨text, alone, htext, halone, hstages⟩
  | fragment =>
    obtain ⟨text, alone, text', htext, halone, hstages, heq⟩ := hfragment
    rw [heq fun _ _ => Textured.texture?_vertex] at hstages
    exact ⟨text, alone, htext, halone, hstages⟩

end ShaderFlow
