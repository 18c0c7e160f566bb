import ShaderFlow.Proofs.Sink.Routes
import ShaderFlow.Proofs.Stage.Run

/-!
# The parts of a compilation

A sink is compiled in three parts: the parameters are looked through, what is routed nowhere is
checked, and the stages are written one after the other.

* `Sink.unlinkedSources_eq_ok` and `Compile.checkUnlinked_eq_ok` say what the first two parts ask;
* `Compile.StageRun` has the parts of one stage that was written, and `Compile.StageText` says
  where a text among the results comes from;
* `Compile.compile_eq_ok` takes a compilation apart, and `Compile.addStages_result` the stages.
-/

namespace ShaderFlow

/-! ### Parameters -/

namespace Sink

variable {k : Sink}

theorem unlinkedSources_eq_ok {ps : List (Parameter × Nat)} {sources : List NodeId}
    (h : (k.unlinkedSources ps).result = .ok sources) :
    (∀ e ∈ ps, e.1.source.isSome = true) ∧
      ∀ source, source ∈ sources ↔
        ∃ e ∈ ps, e.1.source = some source ∧ k.isLinked e.2 = false := by
  induction ps generalizing sources with
  | nil =>
    cases h
    simp
  | cons e ps ih =>
    obtain ⟨p, i⟩ := e
    rw [unlinkedSources] at h
    split at h
    · cases h
    next source hsource =>
      split at h
      next hlinked =>
        obtain ⟨hall, hmem⟩ := ih h
        refine ⟨List.forall_mem_cons.2 ⟨by simp [hsource], hall⟩, fun a => ?_⟩
        simp [hmem, hlinked]
      next hlinked =>
        -- the report that comes first cannot fail
        simp only [Traced.result_bind, Traced.result_report, Traced.result_pure] at h
        obtain ⟨-, -, h⟩ := Except.bind_eq_ok.1 h
        obtain ⟨rest, hrest, h⟩ := Except.bind_eq_ok.1 h
        cases h
        obtain ⟨hall, hmem⟩ := ih hrest
        refine ⟨List.forall_mem_cons.2 ⟨by simp [hsource], hall⟩, fun a => ?_⟩
        simp [hmem, hsource, hlinked, @eq_comm _ a]

theorem exists_unlinkedSources {ps : List (Parameter × Nat)}
    (h : ∀ e ∈ ps, e.1.source.isSome = true) :
    ∃ sources, (k.unlinkedSources ps).result = .ok sources := by
  induction ps with
  | nil => exact ⟨[], rfl⟩
  | cons e ps ih =>
    obtain ⟨p, i⟩ := e
    obtain ⟨source, hsource⟩ := Option.isSome_iff_exists.1 (h _ List.mem_cons_self)
    obtain ⟨sources, hsources⟩ := ih fun e he => h e (List.mem_cons_of_mem _ he)
    rw [unlinkedSources]
    simp only at hsource
    simp only [hsource]
    split
    · exact ⟨sources, hsources⟩
    · exact ⟨source :: sources, by simp [hsources, Except.bind]⟩

theorem exists_unlinkedSources_of_bound (h : ∀ p ∈ k.parameters, p.source.isSome = true) :
    ∃ sources, (k.unlinkedSources k.parameters.zipIdx).result = .ok sources :=
  exists_unlinkedSources fun e he =>
    h e.1 (List.mem_of_getElem? (List.mem_zipIdx_iff_getElem?.1 he))

theorem exists_parameter_of_unlinkedSources {sources : List NodeId}
    (h : (k.unlinkedSources k.parameters.zipIdx).result = .ok sources) :
    ∀ source ∈ sources, ∃ p ∈ k.parameters, p.source = some source := by
  intro source hs
  obtain ⟨e, he, hsource, -⟩ := ((unlinkedSources_eq_ok h).2 source).1 hs
  exact ⟨e.1, List.mem_of_getElem? (List.mem_zipIdx_iff_getElem?.1 he), hsource⟩

@[simp]
theorem reportUnwritten_result (outputs : List (Output × Nat)) :
    (k.reportUnwritten outputs).result = .ok () := by
  induction outputs with
  | nil => rfl
  | cons e outputs ih =>
    rw [reportUnwritten]
    split
    · exact ih
    · simp [ih, Except.bind]

end Sink

/-! ### What is routed nowhere -/

theorem Requirement.check_eq_ok {b : Backend} {r : Requirement} :
    (r.check b).result = .ok () ↔ b.Provides r := by
  simp only [Requirement.check, Backend.resolveTraced, Traced.result_bind, Traced.result_lift,
    Traced.result_report, Traced.result_pure, Except.bind_eq_ok, Except.ok.injEq]
  cases r with
  | capability c => simp [checkThrough, Backend.Provides, needs]
  | builtin v => simp [checkThrough, Backend.Provides, needs, Except.map_eq_ok]
  | texture t =>
    simp only [checkThrough, Backend.Provides, needs, Except.map_eq_ok, Backend.capacity_eq_ok,
      Backend.HasSamplers]
    constructor
    · rintro ⟨r, ⟨_, hr, -, -, rfl⟩, -, ⟨set, name, count, -, hd⟩, -⟩
      exact ⟨count, _, set, name, hr, hd⟩
    · rintro ⟨count, r, set, name, hr, hd⟩
      exact ⟨r, ⟨r, hr, (), trivial, rfl⟩, _, ⟨set, name, count, rfl, hd⟩, trivial⟩

namespace Schedule

variable {g : Graph} {b : Backend}

theorem checkNode_eq_ok {id : NodeId} (hid : g.contains id = true) :
    (checkNode g b id).result = .ok () ↔ g.IsProvided b id := by
  obtain ⟨n, hn⟩ := Option.isSome_iff_exists.1 hid
  rw [Graph.isProvided_iff hn]
  unfold checkNode
  cases hr : n.function.requirement with
  | none => simp [hn, hr]
  | some r => simp [hn, hr, Requirement.check_eq_ok]

theorem checkNodes_eq_ok {ids : List NodeId} (hids : ∀ id ∈ ids, g.contains id = true) :
    (checkNodes g b ids).result = .ok () ↔ ∀ id ∈ ids, g.IsProvided b id := by
  induction ids with
  | nil => simp [checkNodes]
  | cons id ids ih =>
    rw [checkNodes, Traced.result_bind, Except.bind_eq_ok, List.forall_mem_cons,
      ← ih fun a ha => hids a (List.mem_cons_of_mem _ ha),
      ← checkNode_eq_ok (hids id List.mem_cons_self)]
    exact ⟨fun ⟨(), h⟩ => h, fun h => ⟨(), h⟩⟩

end Schedule

namespace Compile

variable {o : Options} {g : Graph} {k : Sink} {b : Backend}

theorem checkUnlinked_eq_ok (hg : g.WellFormed) {sources : List NodeId} :
    (checkUnlinked g b sources).result = .ok () ↔
      ∀ r ∈ sources, ∀ id, g.Reaches r id → g.IsWired id ∧ g.IsProvided b id := by
  unfold checkUnlinked
  split
  next hempty => simp [List.isEmpty_iff.1 hempty]
  next =>
    simp only [Traced.result_bind, Traced.result_lift, Except.bind_eq_ok]
    constructor
    · rintro ⟨plan, hplan, hcheck⟩ r hr id hpath
      have hsound := Schedule.sound_of_ofRoots hg hplan
      have hid := (hsound.mem_iff id).2 ⟨r, hr, hpath⟩
      rw [Schedule.check,
        Schedule.checkNodes_eq_ok fun a ha => (hsound.wired a ha).contains] at hcheck
      exact ⟨hsound.wired id hid, hcheck id hid⟩
    · intro h
      obtain ⟨plan, hplan⟩ :=
        (Schedule.exists_ofRoots_iff hg).2 fun r hr id hpath => (h r hr id hpath).1
      have hsound := Schedule.sound_of_ofRoots hg hplan
      refine ⟨plan, hplan, ?_⟩
      rw [Schedule.check, Schedule.checkNodes_eq_ok fun a ha => (hsound.wired a ha).contains]
      intro id hid
      obtain ⟨r, hr, hpath⟩ := (hsound.mem_iff id).1 hid
      exact (h r hr id hpath).2

/-! ### Stages -/

/-- The parts of a stage that was written, when the textures had these places before. -/
structure StageRun (o : Options) (g : Graph) (k : Sink) (b : Backend) (textures : TextureArray)
    (stage : Stage) (routes : List Route) (plan : Schedule) (nodes s : Emission) : Prop where
  /-- The routes of the stage. -/
  routes_eq : k.routes stage k.links = .ok routes
  /-- The schedule of what the routes need. -/
  plan_eq : Schedule.ofRoots g (routes.map (·.source)) = .ok plan
  /-- The state after the nodes are written. -/
  nodes_eq : Emission.schedule o g b { textures } plan = .ok nodes
  /-- The state after the assignments are written. -/
  assigned : nodes.assignAll routes = .ok s

namespace StageRun

variable {textures : TextureArray} {stage : Stage} {routes : List Route} {plan : Schedule}
  {nodes s : Emission}

theorem sound (h : StageRun o g k b textures stage routes plan nodes s) (hg : g.WellFormed) :
    plan.Sound g (routes.map (·.source)) :=
  Schedule.sound_of_ofRoots hg h.plan_eq

theorem ran (h : StageRun o g k b textures stage routes plan nodes s) (hg : g.WellFormed) :
    Emission.Ran g b textures.textures plan.order nodes :=
  Emission.ran_of_schedule (h.sound hg) h.nodes_eq

theorem textures_eq (h : StageRun o g k b textures stage routes plan nodes s)
    (hg : g.WellFormed) : s.textures.textures =
      TextureArray.placeAll textures.textures (plan.order.filterMap g.texture?) := by
  rw [← (h.ran hg).textures]
  obtain ⟨lines, -, rfl⟩ := Emission.assignAll_eq_ok h.assigned
  rfl

/-- Scheduled are the nodes that the sources of the stage reach. -/
theorem mem_order (h : StageRun o g k b textures stage routes plan nodes s) (hg : g.WellFormed)
    {id : NodeId} :
    id ∈ plan.order ↔ ∃ source, k.Feeds stage source ∧ g.Reaches source id := by
  rw [(h.sound hg).mem_iff]
  simp only [Sink.mem_sources_of_routes h.routes_eq]

end StageRun

/-- The text is that of a stage that was written, and its textures have their final places. -/
def StageText (o : Options) (g : Graph) (k : Sink) (b : Backend) (final : TextureArray)
    (stage : Stage) (text : String) : Prop :=
  ∃ textures routes plan nodes s, StageRun o g k b textures stage routes plan nodes s ∧
    s.textures.textures <+: final.textures ∧ text = s.text o b (k.outputsOf stage)

theorem addStage_eq_ok {shader shader' : Shader} {stage : Stage}
    (h : (addStage o g k b shader stage).result = .ok shader') :
    ∃ routes plan nodes s, StageRun o g k b shader.textures stage routes plan nodes s ∧
      shader'.stages = shader.stages ++ [(stage, s.text o b (k.outputsOf stage))] ∧
      shader'.textures = s.textures ∧ shader'.used = Handle.insertAll shader.used s.used := by
  simp only [addStage, Traced.result_bind, Traced.result_lift, Traced.result_report,
    Traced.result_pure] at h
  obtain ⟨routes, hroutes, h⟩ := Except.bind_eq_ok.1 h
  obtain ⟨plan, hplan, h⟩ := Except.bind_eq_ok.1 h
  obtain ⟨-, -, h⟩ := Except.bind_eq_ok.1 h
  obtain ⟨s, hs, h⟩ := Except.bind_eq_ok.1 h
  cases h
  cases hwritten : writeStage o g b shader.textures plan routes with
  | error stopped => simp [hwritten, Emission.traced] at hs
  | ok s' =>
    simp only [hwritten, Emission.traced, Except.ok.injEq] at hs
    subst hs
    obtain ⟨nodes, hnodes, hassigned⟩ := Except.bind_eq_ok.1 hwritten
    exact ⟨routes, plan, nodes, s', ⟨hroutes, hplan, hnodes, hassigned⟩, rfl, rfl, rfl⟩

/-- A stage that was written is added with its text, its resources and its textures. -/
theorem StageRun.addStage_result {shader : Shader} {stage : Stage} {routes : List Route}
    {plan : Schedule} {nodes s : Emission}
    (h : StageRun o g k b shader.textures stage routes plan nodes s) :
    (addStage o g k b shader stage).result = .ok
      { stages := shader.stages ++ [(stage, s.text o b (k.outputsOf stage))]
        used := Handle.insertAll shader.used s.used
        textures := s.textures } := by
  have hwritten : writeStage o g b shader.textures plan routes = .ok s :=
    Except.bind_eq_ok.2 ⟨nodes, h.nodes_eq, h.assigned⟩
  simp [addStage, h.routes_eq, h.plan_eq, hwritten, Emission.traced, Except.bind,
    Handle.insertAll]

theorem exists_addStage {shader : Shader} {stage : Stage} {routes : List Route} {plan : Schedule}
    {nodes s : Emission} (h : StageRun o g k b shader.textures stage routes plan nodes s) :
    ∃ shader', (addStage o g k b shader stage).result = .ok shader' ∧
      shader'.textures = s.textures :=
  ⟨_, h.addStage_result, rfl⟩

theorem addStages_nil {shader shader' : Shader} :
    (addStages o g k b shader []).result = .ok shader' ↔ shader = shader' := by
  simp [addStages]

theorem addStages_cons {shader shader' : Shader} {stage : Stage} {stages : List Stage} :
    (addStages o g k b shader (stage :: stages)).result = .ok shader' ↔
      ∃ next, (addStage o g k b shader stage).result = .ok next ∧
        (addStages o g k b next stages).result = .ok shader' := by
  simp only [addStages, Traced.result_bind, Except.bind_eq_ok]

/-- Each stage adds its text, and textures that have places keep them. -/
theorem addStages_result (hg : g.WellFormed) {shader shader' : Shader} {stages : List Stage}
    (h : (addStages o g k b shader stages).result = .ok shader') :
    shader.textures.textures <+: shader'.textures.textures ∧
      ∃ added, shader'.stages = shader.stages ++ added ∧ added.map (·.1) = stages ∧
        ∀ e ∈ added, StageText o g k b shader'.textures e.1 e.2 := by
  induction stages generalizing shader with
  | nil =>
    cases addStages_nil.1 h
    exact ⟨List.prefix_refl _, [], by simp⟩
  | cons stage stages ih =>
    obtain ⟨next, hnext, h⟩ := addStages_cons.1 h
    obtain ⟨routes, plan, nodes, s, hrun, hstages, htextures, -⟩ := addStage_eq_ok hnext
    obtain ⟨hpre, added, hadded, hkeys, htexts⟩ := ih h
    rw [htextures] at hpre
    refine ⟨?_, (stage, s.text o b (k.outputsOf stage)) :: added, ?_, ?_, ?_⟩
    · rw [hrun.textures_eq hg] at hpre
      exact TextureArray.prefix_placeAll.trans hpre
    · simp [hadded, hstages]
    · simp [hkeys]
    · refine List.forall_mem_cons.2 ⟨?_, htexts⟩
      exact ⟨shader.textures, routes, plan, nodes, s, hrun, hpre, rfl⟩

/-- A compilation succeeds if its three parts do. -/
theorem compile_eq_ok {shader : Shader} :
    (compile o g k b).result = .ok shader ↔
      ∃ sources, (k.unlinkedSources k.parameters.zipIdx).result = .ok sources ∧
        (checkUnlinked g b sources).result = .ok () ∧
        (addStages o g k b {} k.stages).result = .ok shader := by
  simp only [compile, Traced.result_bind, Sink.reportUnwritten_result, Except.bind_eq_ok]
  constructor
  · rintro ⟨sources, hsources, -, -, ⟨⟩, hcheck, h⟩
    exact ⟨sources, hsources, hcheck, h⟩
  · rintro ⟨sources, hsources, hcheck, h⟩
    exact ⟨sources, hsources, (), trivial, (), hcheck, h⟩

/-- Every text among the results is that of a stage that was written. -/
theorem stageText_of_compile (hg : g.WellFormed) {shader : Shader}
    (h : (compile o g k b).result = .ok shader) :
    shader.stages.map (·.1) = k.stages ∧
      ∀ e ∈ shader.stages, StageText o g k b shader.textures e.1 e.2 := by
  obtain ⟨-, -, -, h⟩ := compile_eq_ok.1 h
  obtain ⟨-, added, hadded, hkeys, htexts⟩ := addStages_result hg h
  rw [List.nil_append] at hadded
  rw [hadded]
  exact ⟨hkeys, htexts⟩

/-- There is a text for every stage of the sink. -/
theorem exists_text (hg : g.WellFormed) {shader : Shader}
    (h : (compile o g k b).result = .ok shader) {stage : Stage} (hstage : stage ∈ k.stages) :
    ∃ text, (stage, text) ∈ shader.stages := by
  rw [← (stageText_of_compile hg h).1] at hstage
  obtain ⟨⟨_, text⟩, hmem, rfl⟩ := List.mem_map.1 hstage
  exact ⟨text, hmem⟩

end Compile

end ShaderFlow
