import ShaderFlow.Proofs.Compile.Extension
import ShaderFlow.Proofs.Stage.Errors

/-!
# Errors are true

When compiling fails, what the error says is so: the parameter, the node, the slot, the capability
or the resource that it names is there and in the way (`Error.TrueOf`, `compile_error_true`). Of
all the reasons for which a compilation can fail, a parameter without a source comes first.

Behind this stands what each part of a compilation can fail for. The parameters are looked through
in order (`Sink.unlinkedSources_of_find?`); what is routed nowhere is blocked by a node or lacks
something in the backend (`Compile.trueOf_of_checkUnlinked`); and the same holds for what a stage
needs, but for the room that textures take (`Compile.trueOf_of_addStage`). The errors that report a
missing value, output or parameter cannot arise.
-/

namespace ShaderFlow

variable {o : Options} {g : Graph} {k : Sink} {b : Backend} {e : Error}

/-- What an error of compiling a sink says is so. No other errors arise. -/
def Error.TrueOf (g : Graph) (k : Sink) (b : Backend) : Error → Prop
  -- the first parameter without a source has this name
  | unboundParameter name => ∃ p, k.parameters.find? (·.source.isNone) = some p ∧ p.name = name
  -- a parameter takes its value from a node that is not there
  | unknownNode id => g.node? id = none ∧ ∃ p ∈ k.parameters, p.source = some id
  -- of the inputs of a node that is needed, this is the last that is not wired
  | unboundInput label slot => ∃ id ∈ g.needed k, ∃ n, g.node? id = some n ∧ label = g.label id ∧
      n.inputs[slot]? = some none ∧ ∀ later, slot < later → n.inputs[later]? ≠ some none
  -- a node that is needed requires the capability, and nothing provides it
  | unresolvedCapability c => (∃ r ∈ g.required k, r.needs = c) ∧ b.resolve? c = none
  -- a node that is needed reads the builtin; its capability is provided, but not how to read it
  | missingAccessor v => .builtin v ∈ g.required k ∧ (b.resolve? v.capability).isSome = true ∧
      b.accessors.lookup v = none
  -- a node that is needed samples a texture, but the resource with this name is of another kind
  | incompatibleResource c name => c = .textureSample ∧ (∃ t, .texture t ∈ g.required k) ∧
      ∃ resolution d, b.resolve? .textureSample = some resolution ∧
        b.descriptor? resolution.handle = some d ∧ d.name = name ∧ d.kind ≠ .sampledTextures
  -- the sampler array with this name has this many places, and linked parameters need more
  | textureSlotsExhausted name capacity => ∃ resolution set count,
      b.resolve? .textureSample = some resolution ∧
      b.descriptor? resolution.handle = some (.binding ⟨set, name, .sampledTextures count⟩) ∧
      count.toNat = capacity ∧ capacity < (g.linkedTextures k).encard
  | _ => False

/-! ### Parameters -/

theorem Sink.unlinkedSources_of_find? {ps : List (Parameter × Nat)} {p : Parameter}
    (h : (ps.map (·.1)).find? (·.source.isNone) = some p) :
    (k.unlinkedSources ps).result = .error (.unboundParameter p.name) := by
  induction ps with
  | nil => cases h
  | cons e ps ih =>
    obtain ⟨q, i⟩ := e
    rw [List.map_cons, List.find?_cons] at h
    rw [unlinkedSources]
    cases hsource : q.source with
    | none =>
      simp only [hsource, Option.isNone_none, Option.some.injEq] at h
      rw [h]
      rfl
    | some source =>
      simp only [hsource, Option.isNone_some] at h
      simp only
      split_ifs
      · exact ih h
      · simp [ih h, Except.bind]

/-! ### Causes -/

theorem Graph.eq_of_reaches {root id : NodeId} (h : g.node? root = none)
    (hpath : g.Reaches root id) : id = root := by
  have hid : id ∈ [root] := hpath.mem_of_closed (by simp [Graph.sources, h]) List.mem_cons_self
  exact List.mem_singleton.1 hid

/-- What blocks a schedule is a missing source of a parameter or an input that is not wired. -/
theorem Schedule.Blocks.trueOf (hg : g.WellFormed) {root id : NodeId} (h : Blocks g id e)
    (hroot : ∃ p ∈ k.parameters, p.source = some root) (hpath : g.Reaches root id) :
    e.TrueOf g k b := by
  obtain ⟨p, hp, hsource⟩ := hroot
  obtain ⟨hnone, rfl⟩ | ⟨n, slot, hn, hslot, rfl⟩ := h
  · -- wires lead to nodes that are there, so the missing node is the source itself
    refine ⟨hnone, p, hp, ?_⟩
    cases hroot : g.node? root with
    | none => rwa [Graph.eq_of_reaches hroot hpath]
    | some m =>
      have hid := hg.contains_of_reaches (by simp [Graph.contains, hroot]) hpath
      simp [Graph.contains, hnone] at hid
  · exact ⟨id, ⟨p, hp, root, hsource, hpath⟩, n, hn, rfl, Node.lastUnwired?_eq_some hslot⟩

theorem Backend.Lacks.trueOf {r : Requirement} (h : b.Lacks r e) (hr : r ∈ g.required k) :
    e.TrueOf g k b := by
  cases h with
  | unresolved hnone => exact ⟨⟨r, hr, rfl⟩, hnone⟩
  | unreadable hres hv => exact ⟨hr, by simp [hres], hv⟩
  | incompatible hres hd hkind => exact ⟨rfl, ⟨_, hr⟩, _, _, hres, hd, rfl, hkind⟩

/-- A texture without a place and those that have one are more than the array holds. -/
theorem Emission.Full.trueOf {s : Emission} {t : Texture} (h : s.Full b t e)
    (hnd : s.textures.textures.Nodup) (hsub : ∀ t ∈ s.textures.textures, t ∈ g.linkedTextures k)
    (ht : t ∈ g.linkedTextures k) : e.TrueOf g k b := by
  obtain ⟨hnew, resolution, set, name, count, hres, hd, hfull, rfl⟩ := h
  refine ⟨resolution, set, count, hres, hd, rfl, ?_⟩
  have hlength := length_le_encard (List.nodup_cons.2 ⟨hnew, hnd⟩)
    (List.forall_mem_cons.2 ⟨ht, hsub⟩)
  rw [List.length_cons] at hlength
  refine lt_of_lt_of_le ?_ hlength
  exact_mod_cast Nat.lt_succ_of_le hfull

/-! ### Parts of a compilation -/

namespace Compile

/-- What is routed nowhere is blocked, or it lacks something. -/
theorem trueOf_of_checkUnlinked (hg : g.WellFormed) {sources : List NodeId}
    (hsources : ∀ source ∈ sources, ∃ p ∈ k.parameters, p.source = some source)
    (h : (checkUnlinked g b sources).result = .error e) : e.TrueOf g k b := by
  unfold checkUnlinked at h
  split at h
  · cases h
  rw [Traced.result_bind, Traced.result_lift] at h
  obtain h | ⟨plan, hplan, h⟩ := Except.bind_eq_error.1 h
  · obtain ⟨source, hs, id, hpath, hblocks⟩ := Schedule.exists_blocks_of_ofRoots hg h
    exact hblocks.trueOf hg (hsources source hs) hpath
  · have hsound := Schedule.sound_of_ofRoots hg hplan
    obtain ⟨id, hid, n, r, hn, hr, hlacks⟩ :=
      Schedule.exists_lacks_of_checkNodes (fun id hid => (hsound.wired id hid).contains) h
    obtain ⟨source, hs, hpath⟩ := (hsound.mem_iff id).1 hid
    obtain ⟨p, hp, hsource⟩ := hsources source hs
    exact hlacks.trueOf ⟨id, ⟨p, hp, source, hsource, hpath⟩, n, hn, hr⟩

variable {stage : Stage} {shader : Shader}

/-- A stage fails when its plan is made or when the nodes of the plan are written: routes are
found, and so are the values of their sources. -/
theorem addStage_eq_error (hg : g.WellFormed) (hk : k.LinksRefer)
    (hbound : ∀ p ∈ k.parameters, p.source.isSome = true)
    (h : (addStage o g k b shader stage).result = .error e) :
    ∃ routes, k.routes stage k.links = .ok routes ∧
      (Schedule.ofRoots g (routes.map (·.source)) = .error e ∨
        ∃ plan stopped, Schedule.ofRoots g (routes.map (·.source)) = .ok plan ∧
          Emission.schedule o g b { textures := shader.textures } plan = .error stopped ∧
          stopped.error = e) := by
  obtain ⟨routes, hroutes⟩ := Sink.exists_routes stage hk hbound
  refine ⟨routes, hroutes, ?_⟩
  simp only [addStage, Traced.result_bind, Traced.result_lift, Traced.result_report,
    Traced.result_pure, hroutes] at h
  cases hplan : Schedule.ofRoots g (routes.map (·.source)) with
  | error e' => simpa [hplan, Except.bind] using h
  | ok plan =>
    refine .inr ⟨plan, ?_⟩
    cases hnodes : Emission.schedule o g b { textures := shader.textures } plan with
    | error stopped =>
      have hwritten : writeStage o g b shader.textures plan routes = .error stopped :=
        Except.bind_eq_error.2 (.inl hnodes)
      refine ⟨stopped, rfl, rfl, ?_⟩
      simpa [hplan, hwritten, Emission.traced, Except.bind] using h
    | ok nodes =>
      have hsound := Schedule.sound_of_ofRoots hg hplan
      obtain ⟨s, hs⟩ :=
        Emission.exists_assignAll ((Emission.ran_of_schedule hsound hnodes).isSome_source hsound)
      have hwritten : writeStage o g b shader.textures plan routes = .ok s :=
        Except.bind_eq_ok.2 ⟨nodes, hnodes, hs⟩
      simp [hplan, hwritten, Emission.traced, Except.bind] at h

/-- What a stage needs is blocked, or it lacks something, or there is no room for a texture. -/
theorem trueOf_of_addStage (hg : g.WellFormed) (hk : k.LinksRefer)
    (hbound : ∀ p ∈ k.parameters, p.source.isSome = true)
    (hnd : shader.textures.textures.Nodup)
    (hsub : ∀ t ∈ shader.textures.textures, t ∈ g.linkedTextures k)
    (h : (addStage o g k b shader stage).result = .error e) : e.TrueOf g k b := by
  obtain ⟨routes, hroutes, hfails⟩ := addStage_eq_error hg hk hbound h
  have hfeeds : ∀ source ∈ routes.map (·.source), k.Feeds stage source := fun source =>
    (Sink.mem_sources_of_routes hroutes).1
  obtain hplan | ⟨plan, stopped, hplan, hnodes, rfl⟩ := hfails
  · obtain ⟨source, hs, id, hpath, hblocks⟩ := Schedule.exists_blocks_of_ofRoots hg hplan
    obtain ⟨l, -, output, p, -, -, hp, hsource⟩ := hfeeds source hs
    exact hblocks.trueOf hg ⟨p, List.mem_of_getElem? hp, hsource⟩ hpath
  · have hsound := Schedule.sound_of_ofRoots hg hplan
    obtain ⟨done, id, rest, s, n, r, horder, hran, hn, hr, hcause⟩ :=
      Emission.exists_cause_of_schedule hsound hnodes
    have hid : id ∈ plan.order := by simp [horder]
    obtain hlacks | ⟨t, rfl, hfull⟩ := hcause
    · obtain ⟨source, hs, hpath⟩ := (hsound.mem_iff id).1 hid
      exact hlacks.trueOf ⟨id, Graph.mem_needed_of_feeds (hfeeds source hs) hpath, n, hn, hr⟩
    · have hdone : ∀ id ∈ done, id ∈ plan.order := fun id hid => by simp [horder, hid]
      obtain ⟨hnd', hsub'⟩ := linked_placeAll hroutes hsound hnd hsub hdone
      rw [← hran.textures] at hnd' hsub'
      exact hfull.trueOf hnd' hsub'
        (mem_linkedTextures hroutes hsound hid (Graph.texture?_eq_some.2 ⟨n, hn, hr⟩))

/-- Stages that are compiled give places to textures behind linked parameters alone, so the stage
that fails starts with such textures. -/
theorem trueOf_of_addStages (hg : g.WellFormed) (hk : k.LinksRefer)
    (hbound : ∀ p ∈ k.parameters, p.source.isSome = true)
    (hnd : shader.textures.textures.Nodup)
    (hsub : ∀ t ∈ shader.textures.textures, t ∈ g.linkedTextures k) {stages : List Stage}
    (h : (addStages o g k b shader stages).result = .error e) : e.TrueOf g k b := by
  induction stages generalizing shader with
  | nil => cases h
  | cons stage stages ih =>
    rw [addStages, Traced.result_bind] at h
    obtain h | ⟨next, hnext, h⟩ := Except.bind_eq_error.1 h
    · exact trueOf_of_addStage hg hk hbound hnd hsub h
    · obtain ⟨routes, plan, nodes, s, hrun, -, htextures, -⟩ := addStage_eq_ok hnext
      obtain ⟨hnd', hsub'⟩ := hrun.linked_textures hg hnd hsub
      rw [← htextures] at hnd' hsub'
      exact ih hnd' hsub' h

/-- The first parameter without a source is reported before anything else is looked at. -/
theorem compile_of_find? {p : Parameter}
    (h : k.parameters.find? (·.source.isNone) = some p) :
    (compile o g k b).result = .error (.unboundParameter p.name) := by
  rw [← List.zipIdx_map_fst 0 k.parameters] at h
  simp [compile, Sink.unlinkedSources_of_find? (k := k) h, Except.bind]

theorem trueOf_of_bound (hg : g.WellFormed) (hk : k.LinksRefer)
    (hbound : ∀ p ∈ k.parameters, p.source.isSome = true)
    (h : (compile o g k b).result = .error e) : e.TrueOf g k b := by
  obtain ⟨sources, hsources⟩ := Sink.exists_unlinkedSources_of_bound hbound
  simp only [compile, Traced.result_bind, Sink.reportUnwritten_result, Except.bind_eq_error,
    hsources, reduceCtorEq, false_or, Except.ok.injEq, exists_eq_left'] at h
  obtain ⟨_, -, h | ⟨_, -, h⟩⟩ := h
  · exact trueOf_of_checkUnlinked hg (Sink.exists_parameter_of_unlinkedSources hsources) h
  · exact trueOf_of_addStages hg hk hbound List.nodup_nil (by simp) h

end Compile

/-- **Errors are true.** When compiling fails, the error says what is in the way, and it is so. If
a parameter has no source, the error names the first such parameter, whatever else is wrong. -/
theorem compile_error_true (hg : g.Built) (hk : k.Built) :
    (∀ e, (compile o g k b).result = .error e → e.TrueOf g k b) ∧
      ((∃ p ∈ k.parameters, p.source = none) →
        ∃ p, k.parameters.find? (·.source.isNone) = some p ∧
          (compile o g k b).result = .error (.unboundParameter p.name)) := by
  constructor
  · intro e h
    cases hfind : k.parameters.find? (·.source.isNone) with
    | some p =>
      cases h.symm.trans (Compile.compile_of_find? hfind)
      exact ⟨p, hfind, rfl⟩
    | none =>
      refine Compile.trueOf_of_bound hg.wellFormed hk.links_refer ?_ h
      simpa [List.find?_eq_none, Option.isSome_iff_ne_none] using hfind
  · intro hunbound
    obtain ⟨p, hp⟩ : ∃ p, k.parameters.find? (·.source.isNone) = some p := by
      simpa [← Option.isSome_iff_exists, List.find?_isSome] using hunbound
    exact ⟨p, hp, Compile.compile_of_find? hp⟩

/-! ### A sample -/

namespace Textured

/-- The backend with another sampler array, which has one place. -/
def narrow : Backend :=
  backend.afterAll [.register (.binding ⟨1, "spare", .sampledTextures 1⟩),
    .provide .textureSample ⟨.sampledTextures, 1⟩]

/-- A sink that takes both samples. -/
def pair : Sink :=
  .build [.output ⟨"color", .fragment, 0, .vec4⟩, .output ⟨"glow", .fragment, 1, .vec4⟩,
    .parameter "base" .vec4, .parameter "detail" .vec4, .bind graph 0 (.ofIndex 1),
    .bind graph 1 (.ofIndex 2), .link 0 0 .whole, .link 1 1 .whole]

theorem compile_narrow : (compile {} graph pair narrow).result =
    .error (.textureSlotsExhausted "spare" 1) := by
  decide +kernel

end Textured

/-- The sample does not compile for want of room, and its linked parameters do need two textures.
With one more parameter, it does not compile for want of a source. -/
theorem compile_error_true_sample :
    (compile {} Textured.graph Textured.pair Textured.narrow).result =
        .error (.textureSlotsExhausted "spare" 1) ∧
      1 < (Textured.graph.linkedTextures Textured.pair).encard ∧
      (compile {} Textured.graph (Textured.pair.addParameter "mask" .float).1
        Textured.narrow).result = .error (.unboundParameter "mask") := by
  have hpair : Textured.pair.Built := Sink.built_build _
  have hmasked : (Textured.pair.addParameter "mask" .float).1.Built :=
    hpair.apply (e := .parameter "mask" .float) rfl
  have hgraph : Textured.graph.Built := Graph.built_build _
  obtain ⟨htrue, -⟩ := compile_error_true (o := {}) (b := Textured.narrow) hgraph hpair
  obtain ⟨-, hfirst⟩ := compile_error_true (o := {}) (b := Textured.narrow) hgraph hmasked
  obtain ⟨_, _, _, -, -, -, hmore⟩ := htrue _ Textured.compile_narrow
  obtain ⟨p, hp, hmask⟩ := hfirst ⟨⟨"mask", .float, none⟩, by decide, rfl⟩
  cases hp
  exact ⟨Textured.compile_narrow, hmore, hmask⟩

end ShaderFlow
