import ShaderFlow.Proofs.Compile.Textures
import ShaderFlow.Proofs.Renaming.Stage

/-!
# Compiling does not depend on the names of nodes

What compiling a sink needs of a graph are the nodes behind its parameters (`Graph.needed`). If
another graph has a copy of them under other identifiers, then the sink with its sources renamed
compiles to the same result there, or fails for the same reason (`compile_renamed`). So neither the
order in which nodes were added nor a node that no parameter needs makes a difference.
-/

namespace ShaderFlow

variable {φ : NodeId → NodeId} {S : Set NodeId} {g g' : Graph} {k : Sink} {o : Options}
  {b : Backend}

/-! ### Sinks -/

namespace Sink

/-- The sources of parameters are in a set. -/
def SourcesIn (k : Sink) (S : Set NodeId) : Prop :=
  ∀ p ∈ k.parameters, ∀ source, p.source = some source → source ∈ S

theorem outputs_rename : (k.rename φ).outputs = k.outputs := rfl

theorem isLinked_rename (i : Nat) : (k.rename φ).isLinked i = k.isLinked i := rfl

theorem getElem?_parameters_rename (i : Nat) :
    (k.rename φ).parameters[i]? = k.parameters[i]?.map (Parameter.rename φ) :=
  List.getElem?_map ..

theorem routes_renamed (hk : k.SourcesIn S) (stage : Stage) (links : List Link) :
    Except.Rel (Error.Renamed φ)
      (fun rs rs' => (∀ r ∈ rs, r.source ∈ S) ∧ rs' = rs.map (Route.rename φ))
      (k.routes stage links) ((k.rename φ).routes stage links) := by
  induction links with
  | nil => exact .ok ⟨by simp, rfl⟩
  | cons l links ih =>
    simp only [routes, outputs_rename, getElem?_parameters_rename]
    cases k.outputs[l.output]? with
    | none => exact .error rfl
    | some output =>
      by_cases hstage : output.stage = stage
      · simp only [hstage, ↓reduceIte]
        cases hp : k.parameters[l.parameter]? with
        | none => exact .error rfl
        | some p =>
          cases hsource : p.source with
          | none =>
            simp only [Option.map_some, Parameter.rename, hsource, Option.map_none]
            exact .error rfl
          | some source =>
            simp only [Option.map_some, Parameter.rename, hsource]
            refine ih.map ?_
            rintro rs _ ⟨hrs, rfl⟩
            refine ⟨List.forall_mem_cons.2 ⟨?_, hrs⟩, rfl⟩
            exact hk p (List.mem_of_getElem? hp) source hsource
      · simp only [hstage, ↓reduceIte]
        exact ih

theorem unlinkedSources_renamed {ps : List (Parameter × Nat)}
    (hps : ∀ e ∈ ps, ∀ source, e.1.source = some source → source ∈ S) :
    Except.Rel (Error.Renamed φ) (fun ids ids' => (∀ id ∈ ids, id ∈ S) ∧ ids' = ids.map φ)
      (k.unlinkedSources ps).result
      ((k.rename φ).unlinkedSources (ps.map (Prod.map (Parameter.rename φ) id))).result := by
  induction ps with
  | nil => exact .ok ⟨by simp, rfl⟩
  | cons e ps ih =>
    obtain ⟨p, i⟩ := e
    have hrest := ih fun e he => hps e (List.mem_cons_of_mem _ he)
    rw [List.map_cons, Prod.map_apply, unlinkedSources, unlinkedSources]
    cases hsource : p.source with
    | none =>
      simp only [Parameter.rename, hsource, Option.map_none]
      exact .error rfl
    | some source =>
      simp only [Parameter.rename, hsource, Option.map_some, isLinked_rename, id_eq]
      split_ifs with hlinked
      · exact hrest
      · simp only [Traced.result_bind, Traced.result_report, Traced.result_pure]
        refine Except.Rel.bind (R := Eq) (.ok rfl) fun _ _ _ => hrest.bind ?_
        rintro ids _ ⟨hids, rfl⟩
        refine .ok ⟨List.forall_mem_cons.2 ⟨?_, hids⟩, rfl⟩
        exact hps _ List.mem_cons_self source hsource

end Sink

/-! ### Stages -/

namespace Compile

theorem checkUnlinked_renamed (hg : Graph.Copies φ S g g') {sources : List NodeId}
    (hsources : ∀ source ∈ sources, source ∈ S) :
    Except.Rel (Error.Renamed φ) Eq (checkUnlinked g b sources).result
      (checkUnlinked g' b (sources.map φ)).result := by
  simp only [checkUnlinked, List.isEmpty_map]
  split_ifs
  · exact .ok rfl
  · simp only [Traced.result_bind, Traced.result_lift]
    refine (Schedule.ofRoots_renamed hg hsources).bind fun plan plan' hplan => ?_
    rw [Schedule.check, Schedule.check, hplan.order]
    exact Schedule.checkNodes_renamed hg hplan.listed

theorem addStage_renamed (hg : Graph.Copies φ S g g') (hk : k.SourcesIn S) (shader : Shader)
    (stage : Stage) :
    Except.Rel (Error.Renamed φ) Eq (addStage o g k b shader stage).result
      (addStage o g' (k.rename φ) b shader stage).result := by
  simp only [addStage, Traced.result_bind, Traced.result_lift, Traced.result_report,
    Traced.result_pure]
  refine (Sink.routes_renamed hk stage k.links).bind ?_
  rintro routes _ ⟨hroutes, rfl⟩
  have hsources : ∀ source ∈ routes.map (·.source), source ∈ S := by
    simpa using hroutes
  have hplans := Schedule.ofRoots_renamed hg hsources
  rw [List.map_map] at hplans
  rw [List.map_map]
  refine hplans.bind fun plan plan' hplan => Except.Rel.bind (R := Eq) (.ok rfl) fun _ _ _ => ?_
  have hwritten : Except.Rel (Stopped.Renamed φ) (Emission.Renamed φ S)
      (writeStage o g b shader.textures plan routes)
      (writeStage o g' b shader.textures plan' (routes.map (Route.rename φ))) :=
    ((Emission.Renamed.initial shader.textures).schedule hg hplan).bind fun _ _ hs =>
      hs.assignAll hroutes
  refine (Emission.traced_renamed hwritten).bind fun s s' hs => ?_
  refine Except.Rel.bind (R := Eq) (.ok rfl) fun _ _ _ => .ok ?_
  rw [hs.text_eq, hs.used, hs.textures]
  rfl

theorem addStages_renamed (hg : Graph.Copies φ S g g') (hk : k.SourcesIn S) (shader : Shader)
    (stages : List Stage) :
    Except.Rel (Error.Renamed φ) Eq (addStages o g k b shader stages).result
      (addStages o g' (k.rename φ) b shader stages).result := by
  induction stages generalizing shader with
  | nil => exact .ok rfl
  | cons stage stages ih =>
    rw [addStages, addStages, Traced.result_bind, Traced.result_bind]
    refine (addStage_renamed hg hk shader stage).bind ?_
    rintro next _ rfl
    exact ih next

end Compile

/-- A sink whose sources have copies compiles as the sink with the copies does. -/
theorem Graph.Copies.compile_eq (hg : Graph.Copies φ S g g') (hk : k.SourcesIn S) :
    (compile o g' (k.rename φ) b).result =
      (compile o g k b).result.mapError (Error.rename φ) := by
  refine Except.Rel.eq_mapError ?_
  have hps : ∀ e ∈ k.parameters.zipIdx, ∀ source, e.1.source = some source → source ∈ S :=
    fun e he => hk e.1 (List.mem_of_getElem? (List.mem_zipIdx_iff_getElem?.1 he))
  have hzip : (k.rename φ).parameters.zipIdx =
      k.parameters.zipIdx.map (Prod.map (Parameter.rename φ) id) := List.zipIdx_map ..
  simp only [compile, Traced.result_bind, Sink.reportUnwritten_result, hzip]
  refine (Sink.unlinkedSources_renamed hps).bind ?_
  rintro sources _ ⟨hsources, rfl⟩
  refine Except.Rel.bind (R := Eq) (.ok rfl) fun _ _ _ => ?_
  refine (Compile.checkUnlinked_renamed hg hsources).bind fun _ _ _ => ?_
  exact Compile.addStages_renamed hg hk {} k.stages

/-! ### What a sink needs -/

/-- The nodes behind the parameters of a sink. -/
def Graph.needed (g : Graph) (k : Sink) : Set NodeId :=
  { id | ∃ p ∈ k.parameters, ∃ source, p.source = some source ∧ g.Reaches source id }

/-- `φ` renames the nodes of a graph that a sink needs to those that the renamed sink needs of
another graph: it is one-to-one between them, keeps functions, and takes inputs to inputs slot by
slot. -/
structure Renaming (φ : NodeId → NodeId) (g : Graph) (k : Sink) (g' : Graph) : Prop where
  /-- The sources of the parameters are nodes of the graph. -/
  contains : ∀ p ∈ k.parameters, ∀ source, p.source = some source → g.contains source = true
  /-- The nodes that are needed correspond to each other. -/
  bijOn : Set.BijOn φ (g.needed k) (g'.needed (k.rename φ))
  /-- A node and the one it corresponds to have the same function and the same inputs. -/
  node : ∀ id ∈ g.needed k, ∀ n, g.node? id = some n → g'.node? (φ id) = some (n.rename φ)

theorem Graph.needed_closed {id : NodeId} (hid : id ∈ g.needed k) :
    ∀ source ∈ g.sources id, source ∈ g.needed k := by
  intro source hs
  obtain ⟨p, hp, root, hroot, hpath⟩ := hid
  exact ⟨p, hp, root, hroot, hpath.tail hs⟩

theorem Graph.sourcesIn_needed : k.SourcesIn (g.needed k) :=
  fun p hp source hsource => ⟨p, hp, source, hsource, .refl _⟩

theorem Graph.WellFormed.contains_needed (hg : g.WellFormed)
    (hk : ∀ p ∈ k.parameters, ∀ source, p.source = some source → g.contains source = true)
    {id : NodeId} (hid : id ∈ g.needed k) : ∃ n, g.node? id = some n := by
  obtain ⟨p, hp, source, hsource, hpath⟩ := hid
  exact Option.isSome_iff_exists.1 (hg.contains_of_reaches (hk p hp source hsource) hpath)

/-- What is needed has copies if it is renamed one-to-one, with functions and inputs kept. -/
theorem Graph.WellFormed.copies_needed (hg : g.WellFormed)
    (hk : ∀ p ∈ k.parameters, ∀ source, p.source = some source → g.contains source = true)
    (hinj : Set.InjOn φ (g.needed k))
    (hnode : ∀ id ∈ g.needed k, ∀ n, g.node? id = some n → g'.node? (φ id) = some (n.rename φ)) :
    Graph.Copies φ (g.needed k) g g' where
  injOn := hinj
  node id hid := by
    obtain ⟨n, hn⟩ := hg.contains_needed hk hid
    exact ⟨n, hn, hnode id hid n hn⟩
  closed _ := needed_closed

/-- The copies of what a sink needs are what the renamed sink needs. -/
theorem Graph.Copies.bijOn_needed (h : Graph.Copies φ (g.needed k) g g') :
    Set.BijOn φ (g.needed k) (g'.needed (k.rename φ)) := by
  refine ⟨?_, h.injOn, ?_⟩
  · rintro id ⟨p, hp, source, hsource, hpath⟩
    refine ⟨p.rename φ, List.mem_map_of_mem hp, φ source, by simp [Parameter.rename, hsource], ?_⟩
    induction hpath with
    | refl => exact .refl _
    | @tail a c hpath hwire ih =>
      refine ih.tail ?_
      rw [Graph.Wire, h.sources_eq ⟨p, hp, source, hsource, hpath⟩]
      exact List.mem_map_of_mem hwire
  · rintro id ⟨p', hp', source', hsource', hpath⟩
    obtain ⟨p, hp, rfl⟩ := List.mem_map.1 hp'
    obtain ⟨source, hsource, rfl⟩ := Option.map_eq_some_iff.1 hsource'
    induction hpath with
    | refl => exact ⟨source, ⟨p, hp, source, hsource, .refl _⟩, rfl⟩
    | tail _ hwire ih =>
      obtain ⟨a, ha, rfl⟩ := ih
      rw [Graph.Wire, h.sources_eq ha] at hwire
      obtain ⟨c, hc, rfl⟩ := List.mem_map.1 hwire
      exact ⟨c, needed_closed ha c hc, rfl⟩

/-- **Compiling does not depend on the names of nodes.** With the nodes that a sink needs renamed,
it compiles to the same result, or fails with the same error about the renamed nodes. In
particular, graphs that have the nodes that are needed in common give one result, whatever else is
in them. -/
theorem compile_renamed (hg : g.Built) (h : Renaming φ g k g') :
    (compile o g' (k.rename φ) b).result =
        (compile o g k b).result.mapError (Error.rename φ) ∧
      ∀ other : Graph, (∀ id ∈ g.needed k, other.node? id = g.node? id) →
        (compile o other k b).result = (compile o g k b).result := by
  refine ⟨?_, fun other hsame => ?_⟩
  · have hcopies := hg.wellFormed.copies_needed h.contains h.bijOn.injOn h.node
    exact hcopies.compile_eq Graph.sourcesIn_needed
  -- nodes that both graphs have are their own copies
  have hcopies : Graph.Copies (fun id => id) (g.needed k) g other :=
    hg.wellFormed.copies_needed h.contains (Set.injOn_id _) fun id hid n hn => by
      rw [hsame id hid, hn, Node.rename_id]
  have heq := hcopies.compile_eq (o := o) (b := b) Graph.sourcesIn_needed
  rw [Sink.rename_id] at heq
  rw [heq]
  cases (compile o g k b).result with
  | ok shader => rfl
  | error e => rw [Except.mapError, Error.rename_id]

/-! ### A sample -/

namespace Textured

/-- The nodes of the graph in another order, and a literal that nothing needs. -/
def shuffled : Graph :=
  .build [.add (.builtin .time), .add Sample.seven, .add (.builtin .uv),
    .addWired (.sample ⟨4⟩) [.ofIndex 2], .addWired (.sample ⟨7⟩) [.ofIndex 2]]

/-- Where the nodes of the graph are in the other order. -/
def shuffle (id : NodeId) : NodeId := .ofIndex ([2, 4, 3, 0].getD (id.slot - 1) 1)

theorem contains_source : ∀ p ∈ sink.parameters, ∀ source ∈ p.source,
    graph.contains source = true := by
  decide

theorem renames : Renaming shuffle graph sink shuffled := by
  have hwf : graph.WellFormed := (Graph.built_build _).wellFormed
  have hindex : ∀ id ∈ graph.needed sink, ∃ i < 4, id = .ofIndex i := by
    intro id hid
    obtain ⟨n, hn⟩ := hwf.contains_needed contains_source hid
    obtain ⟨i, hi, rfl, -⟩ := graph.eq_ofIndex_of_node? hn
    exact ⟨i, hi, rfl⟩
  have hinj : Set.InjOn shuffle (graph.needed sink) := by
    intro a ha c hc heq
    obtain ⟨i, hi, rfl⟩ := hindex a ha
    obtain ⟨j, hj, rfl⟩ := hindex c hc
    have hdiffer : ∀ i < 4, ∀ j < 4, shuffle (.ofIndex i) = shuffle (.ofIndex j) → i = j := by
      decide
    rw [hdiffer i hi j hj heq]
  have hnode : ∀ id ∈ graph.needed sink, ∀ n, graph.node? id = some n →
      shuffled.node? (shuffle id) = some (n.rename shuffle) := by
    intro id hid n hn
    obtain ⟨i, hi, rfl⟩ := hindex id hid
    obtain rfl | rfl | rfl | rfl : i = 0 ∨ i = 1 ∨ i = 2 ∨ i = 3 := by omega
    all_goals
      cases hn
      rfl
  have hcopies := hwf.copies_needed contains_source hinj hnode
  exact ⟨contains_source, hcopies.bijOn_needed, hnode⟩

end Textured

/-- The sample in another order compiles to the same result, and fails alike with other
backends. -/
theorem compile_renamed_sample :
    ∃ shader, (compile {} Textured.graph Textured.sink Textured.backend).result = .ok shader ∧
      (compile {} Textured.shuffled (Textured.sink.rename Textured.shuffle)
        Textured.backend).result = .ok shader ∧
      ∀ b, (compile {} Textured.shuffled (Textured.sink.rename Textured.shuffle) b).result =
        (compile {} Textured.graph Textured.sink b).result.mapError
          (Error.rename Textured.shuffle) := by
  have h : ∀ b, _ := fun b =>
    (compile_renamed (o := {}) (g := Textured.graph) (b := b) (Graph.built_build _)
      Textured.renames).1
  obtain ⟨shader, hok⟩ := Textured.exists_compile
  refine ⟨shader, hok, ?_, h⟩
  rw [h, hok, Except.mapError]

end ShaderFlow
