import ShaderFlow.Proofs.Compile.Textures
import ShaderFlow.Proofs.Stage.Used

/-!
# What a stage declares

A stage declares the resources that its nodes use and no others. Which nodes these are depends on
the links to the stage alone (`Graph.linkedHandles`): a node behind a parameter that is routed
nowhere is checked, but leaves no trace.

* `Compile.TextExact` says what the text of a stage consists of;
* `Compile.manifest_exact` says that the texts of all stages are of this form, and that the
  resources of the result are those that the stages declare.
-/

namespace ShaderFlow

/-- The resources of what the nodes behind links to a stage require. -/
def Graph.linkedHandles (g : Graph) (k : Sink) (b : Backend) (stage : Stage) : Set Handle :=
  { h | ∃ source id n r resolution, k.Feeds stage source ∧ g.Reaches source id ∧
      g.node? id = some n ∧ n.function.requirement = some r ∧
      b.resolve r.needs = .ok resolution ∧ resolution.handle = h }

namespace Graph

variable {g : Graph} {k : Sink} {b : Backend} {stage : Stage} {h : Handle}

theorem handle?_eq_some {id : NodeId} : g.handle? b id = some h ↔
    ∃ n r resolution, g.node? id = some n ∧ n.function.requirement = some r ∧
      b.resolve r.needs = .ok resolution ∧ resolution.handle = h := by
  simp only [handle?, Backend.handle?, Option.bind_eq_some_iff, Option.map_eq_some_iff,
    Backend.resolve_eq_ok]
  constructor
  · rintro ⟨n, hn, r, hr, resolution, hres, hh⟩
    exact ⟨n, r, resolution, hn, hr, hres, hh⟩
  · rintro ⟨n, r, resolution, hn, hr, hres, hh⟩
    exact ⟨n, hn, r, hr, resolution, hres, hh⟩

theorem mem_linkedHandles : h ∈ g.linkedHandles k b stage ↔
    ∃ source id, k.Feeds stage source ∧ g.Reaches source id ∧ g.handle? b id = some h := by
  simp only [linkedHandles, Set.mem_ofPred_eq, handle?_eq_some]
  constructor
  · rintro ⟨source, id, n, r, resolution, hfeeds, hpath, hn⟩
    exact ⟨source, id, hfeeds, hpath, n, r, resolution, hn⟩
  · rintro ⟨source, id, hfeeds, hpath, n, r, resolution, hn⟩
    exact ⟨source, id, n, r, resolution, hfeeds, hpath, hn⟩

theorem exists_resource (hh : h ∈ g.linkedHandles k b stage) :
    ∃ resource, b.resource? h = some resource := by
  obtain ⟨source, id, n, r, resolution, -, -, -, -, hres, rfl⟩ := hh
  exact Backend.exists_resource (r := r) (by simp [Backend.handle?, Backend.resolve_eq_ok.1 hres])

end Graph

namespace Output

/-- The line that declares an output. -/
def line (o : Output) : String :=
  "layout(location = " ++ Nat.repr o.index ++ ") out " ++ o.ty.name ++ " " ++ o.name ++ ";\n"

/-- The outputs that the language does not declare by itself. -/
def declared (outputs : List Output) : List Output :=
  outputs.filter fun o => ¬ ['g', 'l', '_'] <+: o.name.toList

theorem join_declarations (outputs : List Output) :
    String.join (outputs.map declaration) = String.join ((declared outputs).map line) := by
  induction outputs with
  | nil => rfl
  | cons o outputs ih =>
    rw [List.map_cons, String.join_cons, ih, declared, declared]
    by_cases hname : ['g', 'l', '_'] <+: o.name.toList
    · have hdecl : o.declaration = "" := if_pos (List.isPrefixOf_iff_prefix.2 hname)
      rw [List.filter_cons_of_neg (by simpa using hname), hdecl, String.empty_append]
    · have hdecl : o.declaration = o.line := if_neg fun h => hname (List.isPrefixOf_iff_prefix.1 h)
      rw [List.filter_cons_of_pos (by simpa using hname), List.map_cons, String.join_cons, hdecl]

end Output

theorem Backend.Provides.exists_resolution {b : Backend} {r : Requirement} (h : b.Provides r) :
    ∃ resolution, b.resolve r.needs = .ok resolution := by
  cases r with
  | capability c => exact h
  | builtin v => exact h.1
  | texture t =>
    obtain ⟨count, resolution, -, -, hres, -⟩ := h
    exact ⟨resolution, hres⟩

namespace Compile

variable {o : Options} {g : Graph} {k : Sink} {b : Backend} {textures : TextureArray}
  {stage : Stage} {routes : List Route} {plan : Schedule} {nodes s : Emission}

theorem StageRun.used_eq (h : StageRun o g k b textures stage routes plan nodes s)
    (hg : g.WellFormed) : s.used = Handle.insertAll [] (plan.order.filterMap (g.handle? b)) := by
  rw [← Emission.used_of_schedule (h.sound hg) h.nodes_eq]
  obtain ⟨lines, -, rfl⟩ := Emission.assignAll_eq_ok h.assigned
  rfl

theorem StageRun.pairwise_used (h : StageRun o g k b textures stage routes plan nodes s)
    (hg : g.WellFormed) : s.used.Pairwise fun a b => a.lt b = true := by
  rw [h.used_eq hg]
  exact Handle.pairwise_insertAll .nil

theorem StageRun.mem_used (h : StageRun o g k b textures stage routes plan nodes s)
    (hg : g.WellFormed) {x : Handle} : x ∈ s.used ↔ x ∈ g.linkedHandles k b stage := by
  rw [h.used_eq hg, Handle.mem_insertAll, Graph.mem_linkedHandles, List.mem_filterMap]
  simp only [List.not_mem_nil, false_or, h.mem_order hg]
  constructor
  · rintro ⟨id, ⟨source, hfeeds, hpath⟩, hx⟩
    exact ⟨source, id, hfeeds, hpath, hx⟩
  · rintro ⟨source, id, hfeeds, hpath, hx⟩
    exact ⟨id, ⟨source, hfeeds, hpath⟩, hx⟩

/-- The text of a stage: the version, the declarations of the resources that the links to the stage
need, each once and in the order of handles, a line for each output that is declared, and the code
that was written. -/
def TextExact (o : Options) (g : Graph) (k : Sink) (b : Backend) (stage : Stage) (text : String) :
    Prop :=
  ∃ handles declarations textures routes plan nodes s,
    handles.Pairwise (fun a b => a.lt b = true) ∧
    (∀ h, h ∈ handles ↔ h ∈ g.linkedHandles k b stage) ∧
    List.Forall₂ (fun h declaration => b.declaration? h = some declaration) handles declarations ∧
    StageRun o g k b textures stage routes plan nodes s ∧
    text = versionHeader o.version ++ String.join declarations ++
      String.join ((Output.declared (k.outputsOf stage)).map Output.line) ++
      "\nvoid main() \x7b\n" ++ s.block.render o.stem ++ "\x7d\n"

/-- All resources that a stage uses have been registered, so all of them are declared. -/
theorem StageRun.exists_declarations (h : StageRun o g k b textures stage routes plan nodes s)
    (hg : g.WellFormed) :
    ∃ declarations, List.Forall₂ (fun h declaration => b.declaration? h = some declaration)
        s.used declarations ∧
      (s.used.map fun h => (b.declaration? h).getD "") = declarations := by
  refine ⟨_, ?_, rfl⟩
  rw [List.forall₂_map_right_iff, List.forall₂_same]
  intro x hx
  obtain ⟨resource, hresource⟩ := Graph.exists_resource ((h.mem_used hg).1 hx)
  simp [Backend.declaration?, hresource]

theorem StageText.exact (hg : g.WellFormed) {final : TextureArray} {text : String}
    (h : StageText o g k b final stage text) : TextExact o g k b stage text := by
  obtain ⟨textures, routes, plan, nodes, s, hrun, -, rfl⟩ := h
  obtain ⟨declarations, hdecl, hmap⟩ := hrun.exists_declarations hg
  refine ⟨s.used, declarations, textures, routes, plan, nodes, s, hrun.pairwise_used hg,
    fun _ => hrun.mem_used hg, hdecl, hrun, ?_⟩
  rw [Emission.text, hmap, Output.join_declarations]

/-- The resources of a result are those of its stages. -/
theorem addStages_used (hg : g.WellFormed) {shader shader' : Shader} {stages : List Stage}
    (h : (addStages o g k b shader stages).result = .ok shader')
    (hsorted : shader.used.Pairwise fun a b => a.lt b = true) :
    (shader'.used.Pairwise fun a b => a.lt b = true) ∧
      ∀ x, x ∈ shader'.used ↔
        x ∈ shader.used ∨ ∃ stage ∈ stages, x ∈ g.linkedHandles k b stage := by
  induction stages generalizing shader with
  | nil =>
    cases addStages_nil.1 h
    exact ⟨hsorted, by simp⟩
  | cons stage stages ih =>
    obtain ⟨next, hnext, h⟩ := addStages_cons.1 h
    obtain ⟨routes, plan, nodes, s, hrun, -, -, hused⟩ := addStage_eq_ok hnext
    obtain ⟨hsorted', hmem⟩ := ih h (hused ▸ Handle.pairwise_insertAll hsorted)
    refine ⟨hsorted', fun x => ?_⟩
    rw [hmem, hused, Handle.mem_insertAll, hrun.mem_used hg, or_assoc]
    simp only [List.mem_cons, exists_eq_or_imp]

/-- A stage that needs a resource has an output. -/
theorem mem_stages_of_linkedHandles {x : Handle} (h : x ∈ g.linkedHandles k b stage) :
    stage ∈ k.stages := by
  obtain ⟨source, -, -, -, -, ⟨l, -, output, -, ho, hstage, -⟩, -⟩ := h
  exact Sink.mem_stages.2 ⟨output, List.mem_of_getElem? ho, hstage⟩

/-- The texts and the resources of a result are exactly what the links need. -/
structure ManifestExact (o : Options) (g : Graph) (k : Sink) (b : Backend) (shader : Shader) :
    Prop where
  /-- There is a text for each stage with an output. -/
  stages : shader.stages.map (·.1) = k.stages
  /-- Each text declares what the links to its stage need and nothing else. -/
  texts : ∀ e ∈ shader.stages, TextExact o g k b e.1 e.2
  /-- What the nodes behind links require resolves to a resource. -/
  resolved : ∀ stage source id n r, k.Feeds stage source → g.Reaches source id →
    g.node? id = some n → n.function.requirement = some r →
      ∃ resolution, b.resolve r.needs = .ok resolution
  /-- Such a resource has been registered and has a declaration. -/
  registered : ∀ stage, ∀ h ∈ g.linkedHandles k b stage, ∃ descriptor declaration,
    b.descriptor? h = some descriptor ∧ b.declaration? h = some declaration
  /-- The resources of the result are in the order of handles, without repetition. -/
  sorted : shader.used.Pairwise fun a b => a.lt b = true
  /-- They are the resources of all stages. -/
  used : ∀ h, h ∈ shader.used ↔ ∃ stage, h ∈ g.linkedHandles k b stage
  /-- Each of them is there for a node behind a parameter that is routed somewhere. -/
  linked : ∀ h, h ∈ shader.used ↔ ∃ parameter source id, k.Links parameter source ∧
    g.Reaches source id ∧ g.handle? b id = some h

/-- **The manifest is exact.** When compiling succeeds, each stage declares the resources that the
nodes behind its links require, all of them and no others, and the resources of the result are
those that the stages declare. -/
theorem manifest_exact {shader : Shader} (hg : g.Built) (hk : k.Built)
    (hok : (compile o g k b).result = .ok shader) : ManifestExact o g k b shader := by
  have hwf := hg.wellFormed
  have hrefer := hk.links_refer
  obtain ⟨-, -, -, hstages⟩ := compile_eq_ok.1 hok
  obtain ⟨hkeys, htexts⟩ := stageText_of_compile hwf hok
  obtain ⟨hsorted, hmem⟩ := addStages_used hwf hstages .nil
  have hused : ∀ h, h ∈ shader.used ↔ ∃ stage, h ∈ g.linkedHandles k b stage := by
    intro h
    rw [hmem]
    constructor
    · rintro (hnil | ⟨stage, -, hh⟩)
      · cases hnil
      · exact ⟨stage, hh⟩
    · rintro ⟨stage, hh⟩
      exact Or.inr ⟨stage, mem_stages_of_linkedHandles hh, hh⟩
  refine ⟨hkeys, fun e he => (htexts e he).exact hwf, ?_, ?_, hsorted, hused, fun h => ?_⟩
  · intro stage source id n r hfeeds hpath hn hr
    exact (((compilable_of_ok hwf hrefer hok).of_feeds hfeeds hpath).2 n r hn hr).exists_resolution
  · intro stage h hh
    obtain ⟨resource, hresource⟩ := Graph.exists_resource hh
    exact ⟨resource.descriptor, resource.declaration, by simp [Backend.descriptor?, hresource],
      by simp [Backend.declaration?, hresource]⟩
  · -- a parameter is linked if and only if it feeds some stage
    rw [hused]
    simp only [Graph.mem_linkedHandles]
    constructor
    · rintro ⟨stage, source, id, hfeeds, hpath, hh⟩
      have hstage := mem_stages_of_linkedHandles
        (Graph.mem_linkedHandles.2 ⟨source, id, hfeeds, hpath, hh⟩)
      obtain ⟨parameter, hlinks⟩ := hrefer.exists_feeds_iff.1 ⟨stage, hstage, hfeeds⟩
      exact ⟨parameter, source, id, hlinks, hpath, hh⟩
    · rintro ⟨parameter, source, id, hlinks, hpath, hh⟩
      obtain ⟨stage, -, hfeeds⟩ := hrefer.exists_feeds_iff.2 ⟨parameter, hlinks⟩
      exact ⟨stage, source, id, hfeeds, hpath, hh⟩

end Compile

/-- The time is not behind a parameter of the sample that is routed anywhere. -/
theorem Textured.linked_node {parameter : Nat} {source id : NodeId}
    (hlinks : sink.Links parameter source) (hpath : graph.Reaches source id) :
    id ∈ [NodeId.ofIndex 0, .ofIndex 1, .ofIndex 2] := by
  have hsource : source ∈ [NodeId.ofIndex 0, .ofIndex 1, .ofIndex 2] := by
    obtain ⟨hlinked, p, hp, hsource⟩ := hlinks
    have hcases : parameter = 0 ∨ parameter = 1 := by
      have hlinks : sink.links = [⟨0, 0, .whole⟩, ⟨1, 1, .whole⟩, ⟨0, 2, .whole⟩] := rfl
      simp only [Sink.isLinked, hlinks, List.any_cons, List.any_nil, Bool.or_false,
        Bool.or_eq_true, beq_iff_eq] at hlinked
      omega
    obtain rfl | rfl := hcases
    · cases hp
      cases hsource
      decide
    · cases hp
      cases hsource
      decide
  exact hpath.mem_of_closed (by decide) hsource

/-- The sample uses its sampler array, but not the uniform block that only its unrouted parameter
reads. -/
theorem Compile.manifest_exact_sample :
    ∃ shader, (compile {} Textured.graph Textured.sink Textured.backend).result = .ok shader ∧
      Compile.ManifestExact {} Textured.graph Textured.sink Textured.backend shader ∧
      ⟨.sampledTextures, 0⟩ ∈ shader.used ∧ ⟨.uniformBlock, 0⟩ ∉ shader.used := by
  obtain ⟨shader, hok⟩ := Textured.exists_compile
  have h := manifest_exact (g := Textured.graph) (k := Textured.sink) (Graph.built_build _)
    (Sink.built_build _) hok
  refine ⟨shader, hok, h, (h.used _).2 ⟨.vertex, ?_⟩, fun hmem => ?_⟩
  · exact Graph.mem_linkedHandles.2
      ⟨.ofIndex 1, .ofIndex 1, Textured.feeds_vertex, .refl _, rfl⟩
  · obtain ⟨parameter, source, id, hlinks, hpath, hh⟩ := (h.linked _).1 hmem
    have hnone : ∀ id ∈ [NodeId.ofIndex 0, .ofIndex 1, .ofIndex 2],
        Textured.graph.handle? Textured.backend id ≠ some ⟨.uniformBlock, 0⟩ := by decide
    exact hnone id (Textured.linked_node hlinks hpath) hh

end ShaderFlow
