import Mathlib.Data.Set.Card
import ShaderFlow.Proofs.Compile.Stages

/-!
# When compiling succeeds

A sink compiles exactly if all its parameters have sources, all that the sources need is there,
wired and provided by the backend, and the sampler array has room for the textures that linked
parameters need (`compile_succeeds_iff`). Textures behind a parameter that is linked nowhere take
no room. The stages share the array, so the bound is one on all of them together.
-/

namespace ShaderFlow

/-- The textures that nodes behind linked parameters depend on. -/
def Graph.linkedTextures (g : Graph) (k : Sink) : Set Texture :=
  { t | ∃ parameter source id, k.Links parameter source ∧ g.Reaches source id ∧
      g.texture? id = some t }

/-- What it takes to compile a sink. -/
structure Compilable (g : Graph) (k : Sink) (b : Backend) : Prop where
  /-- Every parameter has a source. -/
  bound : ∀ p ∈ k.parameters, p.source.isSome = true
  /-- What a source needs is there, with all inputs wired. -/
  wired : ∀ p ∈ k.parameters, ∀ source, p.source = some source →
    ∀ id, g.Reaches source id → g.IsWired id
  /-- What a source needs has what it requires. -/
  provided : ∀ p ∈ k.parameters, ∀ source, p.source = some source →
    ∀ id, g.Reaches source id → g.IsProvided b id
  /-- The sampler array has room for the textures of linked parameters. -/
  room : ∀ count, b.HasSamplers count → (g.linkedTextures k).encard ≤ count.toNat

theorem length_le_encard {α : Type} [DecidableEq α] {l : List α} {S : Set α} (hnd : l.Nodup)
    (hmem : ∀ a ∈ l, a ∈ S) : (l.length : ℕ∞) ≤ S.encard := by
  rw [← List.toFinset_card_of_nodup hnd, ← Set.encard_coe_eq_coe_finsetCard]
  exact Set.encard_le_encard fun a ha => hmem a (by simpa using ha)

namespace Compile

variable {o : Options} {g : Graph} {k : Sink} {b : Backend}

/-! ### Textures of linked parameters -/

section

variable {stage : Stage} {routes : List Route} {plan : Schedule}

theorem mem_linkedTextures (hroutes : k.routes stage k.links = .ok routes)
    (hplan : plan.Sound g (routes.map (·.source))) {id : NodeId} (hid : id ∈ plan.order)
    {t : Texture} (ht : g.texture? id = some t) : t ∈ g.linkedTextures k := by
  obtain ⟨source, hs, hpath⟩ := (hplan.mem_iff id).1 hid
  obtain ⟨parameter, hlinks⟩ := ((Sink.mem_sources_of_routes hroutes).1 hs).exists_links
  exact ⟨parameter, source, id, hlinks, hpath, ht⟩

/-- Nodes of a plan add textures of linked parameters to those that have places. -/
theorem linked_placeAll (hroutes : k.routes stage k.links = .ok routes)
    (hplan : plan.Sound g (routes.map (·.source))) {textures : List Texture}
    (hnd : textures.Nodup) (hsub : ∀ t ∈ textures, t ∈ g.linkedTextures k) {done : List NodeId}
    (hdone : ∀ id ∈ done, id ∈ plan.order) :
    (TextureArray.placeAll textures (done.filterMap g.texture?)).Nodup ∧
      ∀ t ∈ TextureArray.placeAll textures (done.filterMap g.texture?),
        t ∈ g.linkedTextures k := by
  refine ⟨TextureArray.nodup_placeAll hnd, fun t ht => ?_⟩
  rcases TextureArray.mem_placeAll.1 ht with ht | ht
  · exact hsub t ht
  · obtain ⟨id, hid, ht⟩ := List.mem_filterMap.1 ht
    exact mem_linkedTextures hroutes hplan (hdone id hid) ht

theorem StageRun.linked_textures {textures : TextureArray} {nodes s : Emission}
    (h : StageRun o g k b textures stage routes plan nodes s) (hg : g.WellFormed)
    (hnd : textures.textures.Nodup) (hsub : ∀ t ∈ textures.textures, t ∈ g.linkedTextures k) :
    s.textures.textures.Nodup ∧ ∀ t ∈ s.textures.textures, t ∈ g.linkedTextures k := by
  rw [h.textures_eq hg]
  exact linked_placeAll h.routes_eq (h.sound hg) hnd hsub fun _ hid => hid

end

/-! ### From success to what it takes -/

/-- No stage gives a texture two places or leaves the sampler array. -/
theorem addStages_textures (hg : g.WellFormed) {shader shader' : Shader} {stages : List Stage}
    (h : (addStages o g k b shader stages).result = .ok shader')
    (hnd : shader.textures.textures.Nodup) :
    shader'.textures.textures.Nodup ∧
      ∀ count, b.HasSamplers count → shader.textures.textures.length ≤ count.toNat →
        shader'.textures.textures.length ≤ count.toNat := by
  induction stages generalizing shader with
  | nil =>
    cases addStages_nil.1 h
    exact ⟨hnd, fun _ _ h => h⟩
  | cons stage stages ih =>
    obtain ⟨next, hnext, h⟩ := addStages_cons.1 h
    obtain ⟨routes, plan, nodes, s, hrun, -, htextures, -⟩ := addStage_eq_ok hnext
    have hran := hrun.ran hg
    have hnodes : next.textures.textures = nodes.textures.textures := by
      rw [htextures, hrun.textures_eq hg, hran.textures]
    have hnext_nd : next.textures.textures.Nodup := by
      rw [hnodes, hran.textures]
      exact TextureArray.nodup_placeAll hnd
    obtain ⟨hnd', hwithin⟩ := ih h hnext_nd
    refine ⟨hnd', fun count hcount hlen => hwithin count hcount ?_⟩
    rw [hnodes]
    exact hran.within count hcount hlen

/-- What feeds a stage that was written is wired and provided, and its textures have places. -/
theorem StageText.needs (hg : g.WellFormed) {final : TextureArray} {stage : Stage} {text : String}
    (h : StageText o g k b final stage text) {source id : NodeId} (hfeeds : k.Feeds stage source)
    (hpath : g.Reaches source id) :
    g.IsWired id ∧ g.IsProvided b id ∧ ∀ t, g.texture? id = some t → t ∈ final.textures := by
  obtain ⟨textures, routes, plan, nodes, s, hrun, hpre, -⟩ := h
  have hid : id ∈ plan.order := (hrun.mem_order hg).2 ⟨source, hfeeds, hpath⟩
  refine ⟨(hrun.sound hg).wired id hid, (hrun.ran hg).provided id hid, fun t ht => ?_⟩
  refine hpre.subset ?_
  rw [hrun.textures_eq hg]
  exact TextureArray.mem_placeAll.2 (Or.inr (List.mem_filterMap.2 ⟨id, hid, ht⟩))

theorem compilable_of_ok (hg : g.WellFormed) (hk : k.LinksRefer) {shader : Shader}
    (h : (compile o g k b).result = .ok shader) : Compilable g k b := by
  obtain ⟨hkeys, htexts⟩ := stageText_of_compile hg h
  obtain ⟨sources, hsources, hcheck, hstages⟩ := compile_eq_ok.1 h
  obtain ⟨hbound, hmem⟩ := Sink.unlinkedSources_eq_ok hsources
  rw [checkUnlinked_eq_ok hg] at hcheck
  -- what is behind a linked parameter was written in some stage
  have hlinked : ∀ parameter source, k.Links parameter source → ∀ id, g.Reaches source id →
      g.IsWired id ∧ g.IsProvided b id ∧
        ∀ t, g.texture? id = some t → t ∈ shader.textures.textures := by
    intro parameter source hlinks id hpath
    obtain ⟨stage, hstage, hfeeds⟩ := hk.exists_feeds_iff.2 ⟨parameter, hlinks⟩
    rw [← hkeys, List.mem_map] at hstage
    obtain ⟨e, he, rfl⟩ := hstage
    exact (htexts e he).needs hg hfeeds hpath
  -- and what is behind any other was checked
  have hall : ∀ p ∈ k.parameters, ∀ source, p.source = some source → ∀ id, g.Reaches source id →
      g.IsWired id ∧ g.IsProvided b id := by
    intro p hp source hsource id hpath
    obtain ⟨i, hi⟩ := List.mem_iff_getElem?.1 hp
    cases hlink : k.isLinked i with
    | true =>
      obtain ⟨hwired, hprovided, -⟩ := hlinked i source ⟨hlink, p, hi, hsource⟩ id hpath
      exact ⟨hwired, hprovided⟩
    | false =>
      refine hcheck source ((hmem source).2 ⟨(p, i), ?_, hsource, hlink⟩) id hpath
      exact List.mem_zipIdx_iff_getElem?.2 hi
  refine ⟨fun p hp => ?_, fun p hp source hs id hpath => (hall p hp source hs id hpath).1,
    fun p hp source hs id hpath => (hall p hp source hs id hpath).2, fun count hcount => ?_⟩
  · obtain ⟨i, hi⟩ := List.mem_iff_getElem?.1 hp
    exact hbound (p, i) (List.mem_zipIdx_iff_getElem?.2 hi)
  · obtain ⟨hnd, hwithin⟩ := addStages_textures hg hstages List.nodup_nil
    have hsub : g.linkedTextures k ⊆ shader.textures.textures.toFinset := by
      rintro t ⟨parameter, source, id, hlinks, hpath, ht⟩
      simpa using (hlinked parameter source hlinks id hpath).2.2 t ht
    calc (g.linkedTextures k).encard
        ≤ (shader.textures.textures.toFinset : Set Texture).encard := Set.encard_le_encard hsub
      _ = shader.textures.textures.length := by
          rw [Set.encard_coe_eq_coe_finsetCard, List.toFinset_card_of_nodup hnd]
      _ ≤ count.toNat := by exact_mod_cast hwithin count hcount (Nat.zero_le _)

end Compile

/-! ### From what it takes to success -/

namespace Compilable

open Compile

variable {o : Options} {g : Graph} {k : Sink} {b : Backend}

theorem of_feeds (h : Compilable g k b) {stage : Stage} {source : NodeId}
    (hfeeds : k.Feeds stage source) {id : NodeId} (hpath : g.Reaches source id) :
    g.IsWired id ∧ g.IsProvided b id := by
  obtain ⟨l, -, output, p, -, -, hp, hsource⟩ := hfeeds
  have hmem := List.mem_of_getElem? hp
  exact ⟨h.wired p hmem source hsource id hpath, h.provided p hmem source hsource id hpath⟩

/-- A stage can be written if the textures that have places are behind linked parameters. -/
theorem exists_stageRun (h : Compilable g k b) (hg : g.WellFormed) (hk : k.LinksRefer)
    {textures : TextureArray} (hnd : textures.textures.Nodup)
    (hsub : ∀ t ∈ textures.textures, t ∈ g.linkedTextures k) (stage : Stage) :
    ∃ routes plan nodes s, StageRun o g k b textures stage routes plan nodes s := by
  obtain ⟨routes, hroutes⟩ := Sink.exists_routes stage hk h.bound
  have hfeeds : ∀ source ∈ routes.map (·.source), k.Feeds stage source := fun source hs =>
    (Sink.mem_sources_of_routes hroutes).1 hs
  obtain ⟨plan, hplan⟩ := (Schedule.exists_ofRoots_iff hg).2 fun source hs id hpath =>
    (h.of_feeds (hfeeds source hs) hpath).1
  have hsound := Schedule.sound_of_ofRoots hg hplan
  have hprovided : ∀ id ∈ plan.order, g.IsProvided b id := by
    intro id hid
    obtain ⟨source, hs, hpath⟩ := (hsound.mem_iff id).1 hid
    exact (h.of_feeds (hfeeds source hs) hpath).2
  obtain ⟨hplaced_nd, hplaced⟩ := linked_placeAll hroutes hsound hnd hsub fun _ hid => hid
  obtain ⟨nodes, hnodes⟩ : ∃ nodes, Emission.schedule o g b { textures } plan = .ok nodes :=
    Emission.exists_schedule hsound hprovided fun count hcount => by
      exact_mod_cast (length_le_encard hplaced_nd hplaced).trans (h.room count hcount)
  obtain ⟨s, hs⟩ :=
    Emission.exists_assignAll ((Emission.ran_of_schedule hsound hnodes).isSome_source hsound)
  exact ⟨routes, plan, nodes, s, hroutes, hplan, hnodes, hs⟩

theorem exists_addStages (h : Compilable g k b) (hg : g.WellFormed)
    (hk : k.LinksRefer) {shader : Shader} (hnd : shader.textures.textures.Nodup)
    (hsub : ∀ t ∈ shader.textures.textures, t ∈ g.linkedTextures k) (stages : List Stage) :
    ∃ shader', (addStages o g k b shader stages).result = .ok shader' := by
  induction stages generalizing shader with
  | nil => exact ⟨shader, addStages_nil.2 rfl⟩
  | cons stage stages ih =>
    obtain ⟨routes, plan, nodes, s, hrun⟩ := h.exists_stageRun (o := o) hg hk hnd hsub stage
    obtain ⟨next, hnext, htextures⟩ := exists_addStage hrun
    obtain ⟨hnd', hsub'⟩ := hrun.linked_textures hg hnd hsub
    rw [← htextures] at hnd' hsub'
    obtain ⟨shader', hshader'⟩ := ih hnd' hsub'
    exact ⟨shader', addStages_cons.2 ⟨next, hnext, hshader'⟩⟩

/-- Every parameter has a source, and what is routed nowhere passes its check. -/
theorem exists_unlinked (h : Compilable g k b) (hg : g.WellFormed) :
    ∃ sources, (k.unlinkedSources k.parameters.zipIdx).result = .ok sources ∧
      (checkUnlinked g b sources).result = .ok () := by
  obtain ⟨sources, hsources⟩ := Sink.exists_unlinkedSources_of_bound h.bound
  refine ⟨sources, hsources, (checkUnlinked_eq_ok hg).2 fun source hs id hpath => ?_⟩
  obtain ⟨p, hp, hsource⟩ := Sink.exists_parameter_of_unlinkedSources hsources source hs
  exact ⟨h.wired p hp source hsource id hpath, h.provided p hp source hsource id hpath⟩

theorem exists_compile (h : Compilable g k b) (hg : g.WellFormed) (hk : k.LinksRefer) :
    ∃ shader, (compile o g k b).result = .ok shader := by
  obtain ⟨sources, hsources, hcheck⟩ := h.exists_unlinked hg
  obtain ⟨shader, hshader⟩ : ∃ shader, (addStages o g k b {} k.stages).result = .ok shader :=
    h.exists_addStages hg hk List.nodup_nil (by simp) k.stages
  exact ⟨shader, compile_eq_ok.2 ⟨sources, hsources, hcheck, hshader⟩⟩

end Compilable

/-- **When compiling succeeds.** A graph and a sink that were built compile exactly if they are
compilable, and then there is one text for each stage that has an output. -/
theorem compile_succeeds_iff {o : Options} {g : Graph} {k : Sink} {b : Backend} (hg : g.Built)
    (hk : k.Built) :
    ((∃ shader, (compile o g k b).result = .ok shader) ↔ Compilable g k b) ∧
      ∀ shader, (compile o g k b).result = .ok shader →
        (shader.stages.map (·.1)).Nodup ∧
          ∀ stage, stage ∈ shader.stages.map (·.1) ↔
            ∃ output ∈ k.outputs, output.stage = stage := by
  refine ⟨⟨?_, fun h => h.exists_compile hg.wellFormed hk.links_refer⟩, fun shader h => ?_⟩
  · rintro ⟨shader, h⟩
    exact Compile.compilable_of_ok hg.wellFormed hk.links_refer h
  · rw [(Compile.stageText_of_compile hg.wellFormed h).1]
    exact ⟨Sink.nodup_stages, fun stage => Sink.mem_stages⟩

/-! ### A sample -/

namespace Sample

/-- The type of the values. -/
def ty : Ty := .ofScalar .uint

/-- The number seven. -/
def seven : Function := .constant ⟨ty, .uints [7], rfl, rfl⟩

/-- The call of a function of one argument. -/
def call : Function := .library (.call "ñ" [⟨"x", ty⟩] ty) rfl

/-- The sum of two values. -/
def sum : Function := .library (.add ty) rfl

/-- A graph with a call whose value is used twice. -/
def graph : Graph :=
  .build [.add seven, .addWired call [.ofIndex 0], .addWired sum [.ofIndex 1, .ofIndex 1]]

/-- A sink that takes the sum. -/
def sink : Sink :=
  .build [.output ⟨"color", .fragment, 0, ty⟩, .parameter "value" ty, .bind graph 0 (.ofIndex 2),
    .link 0 0 .whole]

theorem feeds : sink.Feeds .fragment (.ofIndex 2) :=
  ⟨⟨0, 0, .whole⟩, List.mem_singleton_self _, ⟨"color", .fragment, 0, ty⟩,
    ⟨"value", ty, some (.ofIndex 2)⟩, rfl, rfl, rfl, rfl⟩

theorem not_hasSamplers (count : UInt32) : ¬ Backend.HasSamplers {} count := by
  rintro ⟨resolution, -, -, hresolution, -⟩
  cases hresolution

theorem compilable : Compilable graph sink {} where
  bound := by decide
  wired p hp source hsource id hpath := by
    cases List.mem_singleton.1 hp
    cases hsource
    obtain ⟨n, hn⟩ := Option.isSome_iff_exists.1
      ((Graph.built_build _).wellFormed.contains_of_reaches rfl hpath)
    exact ⟨n, hn, Graph.forall_node? (P := Node.Wired) (by decide) id n hn⟩
  provided _ _ _ _ id _ n r hn hr := by
    have hnone : ∀ n ∈ graph.nodes.toList, n.function.requirement = none := by decide
    cases hr.symm.trans (hnone n (Graph.mem_nodes_of_node? hn))
  room count hcount := absurd hcount (not_hasSamplers count)

theorem exists_compile : ∃ shader, (compile {} graph sink {}).result = .ok shader :=
  compilable.exists_compile (Graph.built_build _).wellFormed (Sink.built_build _).links_refer

end Sample

theorem compile_sample_succeeds :
    ∃ shader, (compile {} Sample.graph Sample.sink {}).result = .ok shader ∧
      ∀ stage, stage ∈ shader.stages.map (·.1) ↔ stage = .fragment := by
  obtain ⟨hiff, hkeys⟩ := compile_succeeds_iff (o := {}) (g := Sample.graph) (k := Sample.sink)
    (b := {}) (Graph.built_build _) (Sink.built_build _)
  obtain ⟨shader, h⟩ := hiff.2 Sample.compilable
  have houtputs : Sample.sink.outputs = [⟨"color", .fragment, 0, Sample.ty⟩] := rfl
  refine ⟨shader, h, fun stage => ((hkeys shader h).2 stage).trans ?_⟩
  simp [houtputs, eq_comm]

end ShaderFlow
