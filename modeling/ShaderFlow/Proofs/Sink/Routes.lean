import Mathlib.Data.List.Forall2
import Mathlib.Data.List.Nodup
import ShaderFlow.Compile
import ShaderFlow.Proofs.Basic

/-!
# Links and routes

A sink is built by edits, of which some are refused. Every link of a sink that was built refers to
a parameter and an output of it, and the part of the output that it writes is as wide as the
parameter (`Sink.Built.links_fit`). So the routes of a stage are found as soon as all parameters
have a source, one for each link to the stage and in the order of the links
(`Sink.forall₂_of_routes`).
-/

namespace ShaderFlow.Sink

/-! ### Edits -/

/-- A change to a sink that a caller may ask for. -/
inductive Edit where
  /-- Adds an output. -/
  | output (o : Output)
  /-- Adds a parameter without a source. -/
  | parameter (name : String) (ty : Ty)
  /-- Makes a node of a graph the source of a parameter. -/
  | bind (g : Graph) (parameter : Nat) (node : NodeId)
  /-- Routes a parameter to an output. -/
  | link (parameter output : Nat) (selector : Selector)

variable (k : Sink)

/-- The sink after an edit, or why the edit is refused. -/
def apply : Edit → Except Error Sink
  | .output o => .ok (k.addOutput o).1
  | .parameter name ty => .ok (k.addParameter name ty).1
  | .bind g parameter node => k.bindParameter g parameter node
  | .link parameter output selector => k.link parameter output selector

/-- The sink after an edit; a refused edit changes nothing. -/
def after (e : Edit) : Sink :=
  match k.apply e with
  | .ok k' => k'
  | .error _ => k

/-- The sink that edits of the empty sink lead to. -/
def build (edits : List Edit) : Sink := edits.foldl after empty

/-- The sink can be built by edits of the empty sink. -/
def Built : Prop := ∃ edits, build edits = k

theorem built_build (edits : List Edit) : (build edits).Built := ⟨edits, rfl⟩

/-- Every link refers to a parameter and an output. -/
def LinksRefer : Prop :=
  ∀ l ∈ k.links, l.parameter < k.parameters.length ∧ l.output < k.outputs.length

/-- Every link routes a parameter to a part of an output that is there and as wide. -/
def LinksFit : Prop :=
  ∀ l ∈ k.links, ∃ p out, k.parameters[l.parameter]? = some p ∧ k.outputs[l.output]? = some out ∧
    fits l.selector p.ty out.ty = true

variable {k}

theorem bindParameter_eq_ok {g : Graph} {parameter : Nat} {node : NodeId} {k' : Sink}
    (h : k.bindParameter g parameter node = .ok k') :
    ∃ n p, g.node? node = some n ∧ k.parameters[parameter]? = some p ∧
      n.output.channels = p.ty.channels ∧
      k' = { k with parameters := k.parameters.set parameter { p with source := some node } } := by
  unfold bindParameter at h
  split at h
  · cases h
  next found hfound =>
    obtain ⟨n, hn, rfl⟩ := Option.map_eq_some_iff.1 hfound
    split at h
    · cases h
    next p hp =>
      split at h
      next hc =>
        cases h
        exact ⟨n, p, hn, hp, hc.symm, rfl⟩
      next => cases h

theorem link_eq_ok {parameter output : Nat} {selector : Selector} {k' : Sink}
    (h : k.link parameter output selector = .ok k') :
    ∃ p out, k.parameters[parameter]? = some p ∧ k.outputs[output]? = some out ∧
      fits selector p.ty out.ty = true ∧
      k' = { k with links := k.links ++ [⟨parameter, output, selector⟩] } := by
  unfold link at h
  split at h
  · cases h
  next p hp =>
    split at h
    · cases h
    next out ho =>
      split at h
      next hfits =>
        simp only at h
        split at h
        · cases h
          exact ⟨p, out, hp, ho, hfits, rfl⟩
        · cases h
      next => cases h

theorem getElem?_append_of_some {α : Type} {as bs : List α} {i : Nat} {a : α}
    (h : as[i]? = some a) : (as ++ bs)[i]? = some a := by
  rw [List.getElem?_append_left (List.getElem?_eq_some_iff.1 h).1, h]

/-- An edit that is not refused drops no parameter, output or link and changes no type, and a new
link fits. -/
theorem LinksFit.apply (h : k.LinksFit) {e : Edit} {k' : Sink} (hk' : k.apply e = .ok k') :
    k'.LinksFit := by
  cases e with
  | output o =>
    cases hk'
    intro l hl
    obtain ⟨p, out, hp, ho, hfits⟩ := h l hl
    exact ⟨p, out, hp, getElem?_append_of_some ho, hfits⟩
  | parameter name ty =>
    cases hk'
    intro l hl
    obtain ⟨p, out, hp, ho, hfits⟩ := h l hl
    exact ⟨p, out, getElem?_append_of_some hp, ho, hfits⟩
  | bind g parameter node =>
    obtain ⟨n, p, -, hp, -, rfl⟩ := bindParameter_eq_ok hk'
    intro l hl
    obtain ⟨q, out, hq, ho, hfits⟩ := h l hl
    by_cases heq : parameter = l.parameter
    · subst heq
      cases hp.symm.trans hq
      refine ⟨_, out, List.getElem?_set_self ?_, ho, hfits⟩
      exact (List.getElem?_eq_some_iff.1 hp).1
    · exact ⟨q, out, by rwa [List.getElem?_set_ne heq], ho, hfits⟩
  | link parameter output selector =>
    obtain ⟨p, out, hp, ho, hfits, rfl⟩ := link_eq_ok hk'
    intro l hl
    rcases List.mem_append.1 hl with hl | hl
    · exact h l hl
    · cases List.mem_singleton.1 hl
      exact ⟨p, out, hp, ho, hfits⟩

theorem LinksFit.after (h : k.LinksFit) (e : Edit) : (k.after e).LinksFit := by
  unfold Sink.after
  split
  next hk' => exact h.apply hk'
  next => exact h

theorem linksFit_empty : empty.LinksFit := by
  simp [LinksFit, empty]

theorem Built.apply (h : k.Built) {e : Edit} {k' : Sink} (he : k.apply e = .ok k') : k'.Built := by
  obtain ⟨edits, rfl⟩ := h
  refine ⟨edits ++ [e], ?_⟩
  rw [build, List.foldl_append, ← build, List.foldl_cons, List.foldl_nil, Sink.after, he]

/-- What holds of the empty sink and is kept by every edit that is accepted holds of every sink
that was built. -/
theorem Built.induction {P : Sink → Prop} (h : k.Built) (hempty : P empty)
    (hstep : ∀ k e k', k.Built → P k → k.apply e = .ok k' → P k') : P k := by
  obtain ⟨edits, rfl⟩ := h
  have key : ∀ k : Sink, k.Built → P k → P (edits.foldl Sink.after k) := by
    induction edits with
    | nil => exact fun _ _ hP => hP
    | cons e edits ih =>
      intro k hk hP
      rw [List.foldl_cons, Sink.after]
      split
      next he => exact ih _ (hk.apply he) (hstep k e _ hk hP he)
      next => exact ih k hk hP
  exact key empty ⟨[], rfl⟩ hempty

theorem Built.links_fit (h : k.Built) : k.LinksFit :=
  h.induction linksFit_empty fun _ _ _ _ hk he => hk.apply he

theorem LinksFit.links_refer (h : k.LinksFit) : k.LinksRefer := by
  intro l hl
  obtain ⟨p, out, hp, ho, -⟩ := h l hl
  exact ⟨(List.getElem?_eq_some_iff.1 hp).1, (List.getElem?_eq_some_iff.1 ho).1⟩

theorem Built.links_refer (h : k.Built) : k.LinksRefer := h.links_fit.links_refer

/-! ### Routes -/

/-- The links to outputs of a stage, in order. -/
def linksTo (k : Sink) (stage : Stage) : List Link :=
  k.links.filter fun l => (k.outputs[l.output]?).any (·.stage == stage)

/-- A route has the output, the selector and the source of a link. -/
def Follows (k : Sink) (l : Link) (r : Route) : Prop :=
  k.outputs[l.output]? = some r.output ∧ r.selector = l.selector ∧
    ∃ p, k.parameters[l.parameter]? = some p ∧ p.source = some r.source

/-- Some link leads a parameter with this source to an output of the stage. -/
def Feeds (k : Sink) (stage : Stage) (source : NodeId) : Prop :=
  ∃ l ∈ k.links, ∃ output p, k.outputs[l.output]? = some output ∧ output.stage = stage ∧
    k.parameters[l.parameter]? = some p ∧ p.source = some source

/-- The routes that are found are those of the links to the stage. -/
theorem forall₂_of_routes {stage : Stage} {links : List Link} {routes : List Route}
    (h : k.routes stage links = .ok routes) :
    List.Forall₂ k.Follows
      (links.filter fun l => (k.outputs[l.output]?).any (·.stage == stage)) routes := by
  induction links generalizing routes with
  | nil =>
    cases h
    exact .nil
  | cons l links ih =>
    simp only [Sink.routes] at h
    split at h
    · cases h
    next output ho =>
      split at h
      next hstage =>
        split at h
        · cases h
        next p hp =>
          split at h
          · cases h
          next source hsource =>
            obtain ⟨rest, hrest, rfl⟩ := Except.map_eq_ok.1 h
            rw [List.filter_cons_of_pos (by simp [ho, hstage])]
            exact .cons ⟨ho, rfl, p, hp, hsource⟩ (ih hrest)
      next hstage =>
        rw [List.filter_cons_of_neg (by simp [ho, hstage])]
        exact ih h

/-- The routes are found if the links refer and all parameters have a source. -/
theorem exists_routes (stage : Stage) {links : List Link}
    (hlinks : ∀ l ∈ links, l.parameter < k.parameters.length ∧ l.output < k.outputs.length)
    (hbound : ∀ p ∈ k.parameters, p.source.isSome = true) :
    ∃ routes, k.routes stage links = .ok routes := by
  induction links with
  | nil => exact ⟨[], rfl⟩
  | cons l links ih =>
    obtain ⟨hp, ho⟩ := hlinks l List.mem_cons_self
    obtain ⟨routes, hroutes⟩ := ih fun l hl => hlinks l (List.mem_cons_of_mem _ hl)
    obtain ⟨source, hsource⟩ := Option.isSome_iff_exists.1 (hbound _ (List.getElem_mem hp))
    simp only [Sink.routes, List.getElem?_eq_getElem hp, List.getElem?_eq_getElem ho, hsource,
      hroutes]
    split
    · exact ⟨_, rfl⟩
    · exact ⟨_, rfl⟩

theorem routes_eq_nil {stage : Stage} {links : List Link}
    (hlinks : ∀ l ∈ links, l.output < k.outputs.length)
    (hstage : ∀ output ∈ k.outputs, output.stage ≠ stage) : k.routes stage links = .ok [] := by
  induction links with
  | nil => rfl
  | cons l links ih =>
    have ho := hlinks l List.mem_cons_self
    simp only [Sink.routes, List.getElem?_eq_getElem ho, hstage _ (List.getElem_mem ho),
      ↓reduceIte]
    exact ih fun l hl => hlinks l (List.mem_cons_of_mem _ hl)

theorem mem_linksTo {stage : Stage} {l : Link} :
    l ∈ k.linksTo stage ↔
      l ∈ k.links ∧ ∃ output, k.outputs[l.output]? = some output ∧ output.stage = stage := by
  simp only [linksTo, List.mem_filter, Option.any_eq_true, beq_iff_eq]

theorem feeds_iff {stage : Stage} {source : NodeId} :
    k.Feeds stage source ↔ ∃ l ∈ k.linksTo stage, ∃ p,
      k.parameters[l.parameter]? = some p ∧ p.source = some source := by
  simp only [mem_linksTo, Feeds]
  constructor
  · rintro ⟨l, hl, output, p, ho, hstage, hp, hsource⟩
    exact ⟨l, ⟨hl, output, ho, hstage⟩, p, hp, hsource⟩
  · rintro ⟨l, ⟨hl, output, ho, hstage⟩, p, hp, hsource⟩
    exact ⟨l, hl, output, p, ho, hstage, hp, hsource⟩

theorem mem_sources_of_forall₂ {links : List Link} {routes : List Route}
    (h : List.Forall₂ k.Follows links routes) {source : NodeId} :
    source ∈ routes.map (·.source) ↔ ∃ l ∈ links, ∃ p,
      k.parameters[l.parameter]? = some p ∧ p.source = some source := by
  induction h with
  | nil => simp
  | @cons l r _ _ hfollows _ ih =>
    obtain ⟨-, -, p, hp, hsource⟩ := hfollows
    simp only [List.map_cons, List.mem_cons, ih, exists_eq_or_imp, hp, Option.some.injEq,
      exists_eq_left', hsource, @eq_comm _ source]

/-- The sources of a stage's routes are those of the parameters linked to the stage. -/
theorem mem_sources_of_routes {stage : Stage} {routes : List Route}
    (h : k.routes stage k.links = .ok routes) {source : NodeId} :
    source ∈ routes.map (·.source) ↔ k.Feeds stage source :=
  (mem_sources_of_forall₂ (forall₂_of_routes h)).trans feeds_iff.symm

theorem mem_stages {stage : Stage} :
    stage ∈ k.stages ↔ ∃ output ∈ k.outputs, output.stage = stage := by
  simp [stages, Stage.mem_all]

theorem nodup_stages : k.stages.Nodup :=
  List.Nodup.filter _ (by decide)

/-- The parameter with this number is linked and has this source. -/
def Links (k : Sink) (parameter : Nat) (source : NodeId) : Prop :=
  k.isLinked parameter = true ∧ ∃ p, k.parameters[parameter]? = some p ∧ p.source = some source

theorem Feeds.exists_links {stage : Stage} {source : NodeId} (h : k.Feeds stage source) :
    ∃ parameter, k.Links parameter source := by
  obtain ⟨l, hl, output, p, -, -, hp, hsource⟩ := h
  exact ⟨l.parameter, List.any_eq_true.2 ⟨l, hl, beq_self_eq_true _⟩, p, hp, hsource⟩

/-- A linked parameter feeds a stage that has an output. -/
theorem LinksRefer.exists_feeds_iff (h : k.LinksRefer) {source : NodeId} :
    (∃ stage ∈ k.stages, k.Feeds stage source) ↔ ∃ parameter, k.Links parameter source := by
  constructor
  · rintro ⟨stage, -, hfeeds⟩
    exact hfeeds.exists_links
  · rintro ⟨parameter, hlinked, p, hp, hsource⟩
    obtain ⟨l, hl, heq⟩ := List.any_eq_true.1 hlinked
    cases beq_iff_eq.1 heq
    have houtput := (h l hl).2
    refine ⟨k.outputs[l.output].stage, mem_stages.2 ⟨_, List.getElem_mem houtput, rfl⟩, ?_⟩
    exact ⟨l, hl, _, p, List.getElem?_eq_getElem houtput, rfl, hp, hsource⟩

end ShaderFlow.Sink
