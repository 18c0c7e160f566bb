import ShaderFlow.Proofs.Compile.Course
import ShaderFlow.Proofs.Compile.Success

/-!
# Textures have one place each

One list of textures is handed from stage to stage. It holds the textures that the stages need in
the order of their first need, so a texture has the same place at every use in every stage, and
the access expression of a node names the place that the final list has for its texture
(`Compile.textures_in_place`).

Behind this stands what single requests do: a place that was given never changes, however many
requests follow and whatever capacities they come with, and a request that is refused leaves the
list as it was (`TextureArray.prefix_afterAll`, `Emission.textures_of_access_error`).
-/

namespace ShaderFlow

namespace Emission

variable {o : Options} {g : Graph} {b : Backend} {s : Emission} {stopped : Stopped}

theorem textures_of_access_error {r : Option Requirement}
    (h : s.access b r = .error stopped) : stopped.state.textures = s.textures := by
  cases r with
  | none => cases h
  | some req =>
    obtain h | ⟨resolution, -, h⟩ := Except.bind_eq_error.1 h
    · rw [state_of_orStop h]
    obtain h | ⟨_, -, h⟩ := Except.bind_eq_error.1 h
    · cases req with
      | capability c => cases h
      | builtin v =>
        obtain h | ⟨_, -, h⟩ := Except.bind_eq_error.1 h
        · rw [state_of_orStop h]
          rfl
        · cases h
      | texture t =>
        obtain h | ⟨capacity, -, h⟩ := Except.bind_eq_error.1 h
        · rw [state_of_orStop h]
          rfl
        obtain h | ⟨_, -, h⟩ := Except.bind_eq_error.1 h
        · rw [state_of_orStop h]
          rfl
        · cases h
    · cases h

end Emission

namespace Compile

variable {o : Options} {g : Graph} {k : Sink} {b : Backend} {stage : Stage} {shader : Shader}

/-- The schedule of what the links to a stage need. -/
def Plans (g : Graph) (k : Sink) (stage : Stage) (plan : Schedule) : Prop :=
  ∃ routes, k.routes stage k.links = .ok routes ∧
    Schedule.ofRoots g (routes.map (·.source)) = .ok plan

theorem Plans.unique {plan plan' : Schedule} (h : Plans g k stage plan)
    (h' : Plans g k stage plan') : plan = plan' := by
  obtain ⟨routes, hroutes, hplan⟩ := h
  obtain ⟨routes', hroutes', hplan'⟩ := h'
  cases hroutes.symm.trans hroutes'
  exact Except.ok.inj (hplan.symm.trans hplan')

/-- A stage without outputs needs nothing. -/
theorem plans_of_notMem (hk : k.LinksRefer) (hstage : stage ∉ k.stages) : Plans g k stage {} := by
  refine ⟨[], Sink.routes_eq_nil (fun l hl => (hk l hl).2) fun output ho heq => ?_, rfl⟩
  exact hstage (Sink.mem_stages.2 ⟨output, ho, heq⟩)

/-- Stages give places to the textures of their plans, one stage after the other. -/
theorem addStages_placeAll (hg : g.WellFormed) {plan : Stage → Schedule} {shader shader' : Shader}
    {stages : List Stage} (hplan : ∀ stage ∈ stages, Plans g k stage (plan stage))
    (h : (addStages o g k b shader stages).result = .ok shader') :
    shader'.textures.textures = TextureArray.placeAll shader.textures.textures
      ((stages.flatMap fun stage => (plan stage).order).filterMap g.texture?) := by
  induction stages generalizing shader with
  | nil =>
    cases addStages_nil.1 h
    rfl
  | cons stage stages ih =>
    obtain ⟨next, hnext, h⟩ := addStages_cons.1 h
    obtain ⟨routes, plan', nodes, s, hrun, -, htextures, -⟩ := addStage_eq_ok hnext
    obtain rfl : plan' = plan stage :=
      Plans.unique ⟨routes, hrun.routes_eq, hrun.plan_eq⟩ (hplan stage List.mem_cons_self)
    rw [ih (fun a ha => hplan a (List.mem_cons_of_mem _ ha)) h, htextures, hrun.textures_eq hg,
      List.flatMap_cons, List.filterMap_append, TextureArray.placeAll_append]

theorem exists_plans (hk : k.LinksRefer) (hok : (compile o g k b).result = .ok shader) :
    ∃ plan : Stage → Schedule, ∀ stage, Plans g k stage (plan stage) := by
  refine Classical.skolem.1 fun stage => ?_
  by_cases hstage : stage ∈ k.stages
  · obtain ⟨textures, routes, plan, hstarts⟩ := exists_starts hok hstage
    exact ⟨plan, routes, hstarts.routes_eq, hstarts.plan_eq⟩
  · exact ⟨{}, plans_of_notMem hk hstage⟩

/-- The order of all stages together is that of the vertex stage and then that of the fragment
stage; a stage without outputs adds nothing. -/
theorem flatMap_stages (hk : k.LinksRefer) {plan : Stage → Schedule}
    (hplan : ∀ stage, Plans g k stage (plan stage)) :
    (k.stages.flatMap fun stage => (plan stage).order) =
      (plan .vertex).order ++ (plan .fragment).order := by
  have hempty : ∀ stage, ¬ k.outputs.any (·.stage == stage) = true → (plan stage).order = [] := by
    intro stage hstage
    rw [(hplan stage).unique (plans_of_notMem hk (by simpa [Sink.mem_stages] using hstage))]
  simp only [Sink.stages, Stage.all, List.filter_cons, List.filter_nil]
  split_ifs with hvertex hfragment hfragment
  · simp
  · simp [hempty .fragment hfragment]
  · simp [hempty .vertex hvertex]
  · simp [hempty .vertex hvertex, hempty .fragment hfragment]

/-- Textures have places for the sampler array alone. -/
theorem exists_samplers (hg : g.WellFormed) (hk : k.LinksRefer)
    (hok : (compile o g k b).result = .ok shader) {plan : Schedule} (hplan : Plans g k stage plan)
    {id : NodeId} (hid : id ∈ plan.order) {t : Texture} (ht : g.texture? id = some t) :
    ∃ count, b.HasSamplers count := by
  obtain ⟨routes, hroutes, hplan⟩ := hplan
  obtain ⟨source, hsource, hpath⟩ := ((Schedule.sound_of_ofRoots hg hplan).mem_iff id).1 hid
  have hfeeds := (Sink.mem_sources_of_routes hroutes).1 hsource
  obtain ⟨n, hn, hr⟩ := Graph.texture?_eq_some.1 ht
  exact ((compilable_of_ok hg hk hok).of_feeds hfeeds hpath).2 n _ hn hr

/-- The access expression of a node that depends on a texture names the place of the texture in the
final list. -/
theorem Builds.access_eq (hg : g.WellFormed) (hok : (compile o g k b).result = .ok shader)
    {id : NodeId} {n : Node} {args : List Operand} {access : Option String} {t : Texture}
    (h : Builds o g k b stage id n args access) (hr : n.function.requirement = some (.texture t)) :
    ∃ resolution slot, b.resolve .textureSample = .ok resolution ∧
      shader.textures.textures.idxOf? t = some slot ∧
      access = some (resolution.path ++ "[" ++ Nat.repr slot ++ "]") := by
  obtain ⟨s, shared, s', hwrites, hpre⟩ := h.exists_writes hg hok
  have hsome := hwrites.isSome_path
  rw [hwrites.path_eq_of_isPrefix hpre, hr, Option.bind_some] at hsome ⊢
  obtain ⟨path, hpath⟩ := Option.isSome_iff_exists.1 hsome
  rw [hpath]
  obtain ⟨resolution, hres, hpath⟩ := Option.bind_eq_some_iff.1 hpath
  obtain ⟨slot, hslot, hpath⟩ := Option.bind_eq_some_iff.1 hpath
  exact ⟨resolution, slot, Backend.resolve_eq_ok.2 hres, hslot, hpath.symm⟩

/-- The textures of a result have one place each, and every use of a texture names its place. -/
structure TexturesInPlace (o : Options) (g : Graph) (k : Sink) (b : Backend) (shader : Shader) :
    Prop where
  /-- No texture has two places. -/
  nodup : shader.textures.textures.Nodup
  /-- Textures have places in the order of first need, by the vertex stage and then by the
  fragment stage. -/
  order : ∃ plan : Stage → Schedule, (∀ stage, Plans g k stage (plan stage)) ∧
    shader.textures.textures =
      (((plan .vertex).order ++ (plan .fragment).order).filterMap g.texture?).eraseDups
  /-- They are places in a sampler array. -/
  samplers : shader.textures.textures ≠ [] → ∃ count, b.HasSamplers count
  /-- The sampler array has room for them. -/
  within : ∀ count, b.HasSamplers count → shader.textures.textures.length ≤ count.toNat
  /-- The code of every node behind a link is called for. -/
  built : ∀ stage source id n, stage ∈ k.stages → k.Feeds stage source → g.Reaches source id →
    g.node? id = some n → ∃ args access, Builds o g k b stage id n args access
  /-- Each texture has a place that all accesses to it name, in every stage. -/
  accesses : ∃ place : Texture → Nat, ∀ stage id n args access t,
    Builds o g k b stage id n args access → n.function.requirement = some (.texture t) →
      shader.textures.textures[place t]? = some t ∧
        ∃ resolution, b.resolve .textureSample = .ok resolution ∧
          access = some (resolution.path ++ "[" ++ Nat.repr (place t) ++ "]")

/-- **Textures have one place each.** When compiling succeeds, the list of textures is that of
first needs, without repetition and within the sampler array, and all accesses in all stages name
the places of the list. Whatever requests are made of an array: it grows at its end only, a texture
that has a place is given the same one by every later request, and one that is refused changes
nothing. -/
theorem textures_in_place (hg : g.Built) (hk : k.Built)
    (hok : (compile o g k b).result = .ok shader) :
    TexturesInPlace o g k b shader ∧
      (∀ (s : TextureArray) (requests : List TextureArray.Request),
        s.textures <+: (s.afterAll requests).textures) ∧
      (∀ (s : TextureArray) (r : TextureArray.Request) e,
        s.assign r.texture r.binding r.capacity = .error e → s.after r = s) ∧
      (∀ (s s' : TextureArray) t binding capacity slot,
        s.assign t binding capacity = .ok (s', slot) →
          ∀ (requests : List TextureArray.Request),
            (s'.afterAll requests).textures[slot]? = some t ∧
              ∀ binding' capacity', (s'.afterAll requests).assign t binding' capacity' =
                .ok (s'.afterAll requests, slot)) ∧
      ∀ (s : Emission) (r : Option Requirement) (stopped : Stopped),
        s.access b r = .error stopped → stopped.state.textures = s.textures := by
  have hwf := hg.wellFormed
  have hrefer := hk.links_refer
  obtain ⟨-, -, -, hstages⟩ := compile_eq_ok.1 hok
  obtain ⟨hnd, hwithin⟩ := addStages_textures hwf hstages List.nodup_nil
  obtain ⟨plan, hplan⟩ := exists_plans hrefer hok
  have horder : shader.textures.textures =
      (((plan .vertex).order ++ (plan .fragment).order).filterMap g.texture?).eraseDups := by
    rw [addStages_placeAll hwf (fun stage _ => hplan stage) hstages, flatMap_stages hrefer hplan]
    exact TextureArray.placeAll_nil _
  refine ⟨⟨hnd, ⟨plan, hplan, horder⟩, fun hne => ?_, fun count hcount => ?_, ?_, ?_⟩,
    fun s requests => s.prefix_afterAll requests, ?_, ?_, ?_⟩
  · obtain ⟨t, ht⟩ := List.exists_mem_of_ne_nil _ hne
    rw [horder, List.mem_eraseDups, List.mem_filterMap] at ht
    obtain ⟨id, hid, ht⟩ := ht
    rcases List.mem_append.1 hid with hid | hid
    · exact exists_samplers hwf hrefer hok (hplan .vertex) hid ht
    · exact exists_samplers hwf hrefer hok (hplan .fragment) hid ht
  · exact hwithin count hcount (Nat.zero_le _)
  · intro stage source id n hstage hfeeds hpath hn
    exact exists_builds hwf hok hstage hfeeds hpath hn
  · refine ⟨fun t => shader.textures.textures.idxOf t, fun stage id n args access t h hr => ?_⟩
    obtain ⟨resolution, slot, hres, hslot, haccess⟩ := h.access_eq hwf hok hr
    obtain rfl : shader.textures.textures.idxOf t = slot := by
      rw [List.idxOf_eq_getD_idxOf?, hslot, Option.getD_some]
    exact ⟨TextureArray.getElem?_of_idxOf? hslot, resolution, hres, haccess⟩
  · intro s r e h
    simp only [TextureArray.after, h]
  · intro s s' t binding capacity slot h requests
    have hslot := TextureArray.idxOf?_of_isPrefix (TextureArray.prefix_afterAll requests)
      (TextureArray.assign_eq_ok h).2.1
    exact ⟨TextureArray.getElem?_of_idxOf? hslot, TextureArray.assign_of_idxOf? hslot⟩
  · exact fun s r stopped => Emission.textures_of_access_error

end Compile

/-! ### A sample -/

namespace Textured

/-- A graph with two samples at the same coordinates, and the time. -/
def graph : Graph :=
  .build [.add (.builtin .uv), .addWired (.sample ⟨7⟩) [.ofIndex 0],
    .addWired (.sample ⟨4⟩) [.ofIndex 0], .add (.builtin .time)]

/-- A sink with outputs of both stages. Both take the first sample, and the time is routed
nowhere. -/
def sink : Sink :=
  .build [.output ⟨"gl_Position", .vertex, 0, .vec4⟩, .output ⟨"color", .fragment, 0, .vec4⟩,
    .output ⟨"glow", .fragment, 1, .vec4⟩, .parameter "base" .vec4, .parameter "detail" .vec4,
    .parameter "clock" .float, .bind graph 0 (.ofIndex 1), .bind graph 1 (.ofIndex 2),
    .bind graph 2 (.ofIndex 3), .link 0 0 .whole, .link 1 1 .whole, .link 0 2 .whole]

/-- A backend with an input block, a sampler array and a uniform block. -/
def backend : Backend :=
  let b := (Backend.empty.register (.inputBlock "vertex" [⟨"uv", .vec2⟩])).1
  let b := (b.register (.binding ⟨0, "textures", .sampledTextures 4⟩)).1
  let b := (b.register (.binding ⟨0, "frame", .uniformBlock "Frame" [⟨"time", .float⟩]⟩)).1
  let b := (b.provide .vertexUv ⟨.inputBlock, 0⟩).provide .textureSample ⟨.sampledTextures, 0⟩
  ((b.provide .frameTime ⟨.uniformBlock, 0⟩).setAccessor .uv "uv").setAccessor .time ".time"

theorem hasSamplers : backend.HasSamplers 4 :=
  ⟨⟨⟨.sampledTextures, 0⟩, "textures"⟩, 0, "textures", rfl, rfl⟩

theorem exists_compile : ∃ shader, (compile {} graph sink backend).result = .ok shader :=
  Except.exists_ok_of_isOk (by decide +kernel)

theorem feeds_vertex : sink.Feeds .vertex (.ofIndex 1) :=
  ⟨⟨0, 0, .whole⟩, by decide, ⟨"gl_Position", .vertex, 0, .vec4⟩,
    ⟨"base", .vec4, some (.ofIndex 1)⟩, rfl, rfl, rfl, rfl⟩

theorem feeds_fragment : sink.Feeds .fragment (.ofIndex 1) :=
  ⟨⟨0, 2, .whole⟩, by decide, ⟨"glow", .fragment, 1, .vec4⟩,
    ⟨"base", .vec4, some (.ofIndex 1)⟩, rfl, rfl, rfl, rfl⟩

end Textured

/-- Both stages of the sample read its first texture through the same expression. -/
theorem Compile.textures_in_place_sample :
    ∃ shader slot, (compile {} Textured.graph Textured.sink Textured.backend).result = .ok shader ∧
      shader.textures.textures[slot]? = some ⟨7⟩ ∧ shader.textures.textures.length ≤ 4 ∧
      ∀ stage, ∃ args, Compile.Builds {} Textured.graph Textured.sink Textured.backend stage
        (.ofIndex 1) ⟨.sample ⟨7⟩, [some (.ofIndex 0)]⟩ args
        (some ("textures" ++ "[" ++ Nat.repr slot ++ "]")) := by
  obtain ⟨shader, hok⟩ := Textured.exists_compile
  obtain ⟨h, -⟩ := textures_in_place (g := Textured.graph) (k := Textured.sink)
    (Graph.built_build _) (Sink.built_build _) hok
  obtain ⟨place, hplace⟩ := h.accesses
  have hbuilt : ∀ stage, ∃ args access, Compile.Builds {} Textured.graph Textured.sink
      Textured.backend stage (.ofIndex 1) ⟨.sample ⟨7⟩, [some (.ofIndex 0)]⟩ args access := by
    intro stage
    cases stage with
    | vertex => exact h.built _ _ _ _ (by decide) Textured.feeds_vertex (.refl _) rfl
    | fragment => exact h.built _ _ _ _ (by decide) Textured.feeds_fragment (.refl _) rfl
  obtain ⟨args, access, hvertex⟩ := hbuilt .vertex
  refine ⟨shader, place ⟨7⟩, hok, (hplace _ _ _ _ _ _ hvertex rfl).1,
    h.within 4 Textured.hasSamplers, fun stage => ?_⟩
  obtain ⟨args, access, hbuilds⟩ := hbuilt stage
  obtain ⟨-, resolution, hres, rfl⟩ := hplace _ _ _ _ _ _ hbuilds rfl
  cases hres
  exact ⟨args, hbuilds⟩

end ShaderFlow
