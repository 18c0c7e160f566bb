import ShaderFlow.Proofs.Compile.Stages

/-!
# In the course of compiling

A compilation that fails in the end has written nodes before it fails. `Compile.Underway` is a
state that it comes through: the stages before the present one are compiled, and the first nodes
of the plan are written. `Compile.Builds` is a call for the code of a node in such a state, with
the arguments and the access expression that the node is given.

* `Compile.Underway.exists_arguments` says that the next node always finds its arguments;
* `Compile.Starts.stageRun` ties a state to the end of a compilation that succeeds, and
  `Compile.exists_builds` says that such a compilation calls for the code of all that it needs.
-/

namespace ShaderFlow.Compile

variable {o : Options} {g : Graph} {k : Sink} {b : Backend} {stage : Stage}
  {textures : TextureArray} {routes : List Route} {plan : Schedule} {done rest : List NodeId}
  {s : Emission} {shader : Shader}

/-- Compiling gets to a stage with these routes and this plan, when the textures have these
places. -/
structure Starts (o : Options) (g : Graph) (k : Sink) (b : Backend) (stage : Stage)
    (textures : TextureArray) (routes : List Route) (plan : Schedule) : Prop where
  /-- What is routed nowhere passes its check. -/
  checked : ∃ sources, (k.unlinkedSources k.parameters.zipIdx).result = .ok sources ∧
    (checkUnlinked g b sources).result = .ok ()
  /-- The stages before it are compiled. -/
  earlier : ∃ before after shader, k.stages = before ++ stage :: after ∧
    (addStages o g k b {} before).result = .ok shader ∧ shader.textures = textures
  /-- The routes of the stage. -/
  routes_eq : k.routes stage k.links = .ok routes
  /-- The schedule of what the routes need. -/
  plan_eq : Schedule.ofRoots g (routes.map (·.source)) = .ok plan

/-- Compiling comes through a state of a stage in which some nodes of the plan are written and the
rest is to come. -/
structure Underway (o : Options) (g : Graph) (k : Sink) (b : Backend) (stage : Stage)
    (textures : TextureArray) (routes : List Route) (plan : Schedule) (done rest : List NodeId)
    (s : Emission) : Prop extends Starts o g k b stage textures routes plan where
  /-- The plan is what is done and what is to come. -/
  order : plan.order = done ++ rest
  /-- The state after the nodes that are done. -/
  written : Emission.writeNodes o g b plan { textures } done = .ok s

/-- Compiling calls for the code of a node of a stage with these arguments and this access
expression. -/
def Builds (o : Options) (g : Graph) (k : Sink) (b : Backend) (stage : Stage) (id : NodeId)
    (n : Node) (args : List Operand) (access : Option String) : Prop :=
  ∃ textures routes plan done rest s s',
    Underway o g k b stage textures routes plan done (id :: rest) s ∧ g.node? id = some n ∧
      s.arguments (g.label id) 0 n.inputs = .ok args ∧
      s.access b n.function.requirement = .ok (s', access)

/-! ### States -/

theorem Starts.sound (h : Starts o g k b stage textures routes plan) (hg : g.WellFormed) :
    plan.Sound g (routes.map (·.source)) :=
  Schedule.sound_of_ofRoots hg h.plan_eq

namespace Underway

theorem ran (h : Underway o g k b stage textures routes plan done rest s) (hg : g.WellFormed) :
    Emission.Ran g b textures.textures done s :=
  Emission.ran_of_writeNodes (h.sound hg) h.order h.written

/-- The next node is there, all its inputs are wired, and the values of its sources are known. -/
theorem exists_arguments {id : NodeId}
    (h : Underway o g k b stage textures routes plan done (id :: rest) s) (hg : g.WellFormed) :
    ∃ n args, g.node? id = some n ∧ s.arguments (g.label id) 0 n.inputs = .ok args := by
  have hsound := h.sound hg
  obtain ⟨n, hn, hwired⟩ := hsound.wired id (by simp [h.order])
  obtain ⟨args, hargs⟩ :=
    Emission.exists_values ((h.ran hg).isSome_value? hsound h.order hn)
  exact ⟨n, args, hn, (Emission.arguments_eq_ok_of_wired hwired).2 hargs⟩

theorem isSome_value? (h : Underway o g k b stage textures routes plan done [] s)
    (hg : g.WellFormed) : ∀ r ∈ routes, (s.value? r.source).isSome = true := by
  have hran := h.ran hg
  rw [← List.append_nil done, ← h.order] at hran
  exact hran.isSome_source (h.sound hg)

end Underway

/-! ### Compilations that succeed -/

theorem addStages_append {shader shader' : Shader} {before after : List Stage} :
    (addStages o g k b shader (before ++ after)).result = .ok shader' ↔
      ∃ next, (addStages o g k b shader before).result = .ok next ∧
        (addStages o g k b next after).result = .ok shader' := by
  induction before generalizing shader with
  | nil => simp [addStages_nil]
  | cons stage before ih =>
    simp only [List.cons_append, addStages_cons, ih]
    constructor
    · rintro ⟨first, hfirst, next, hnext, h⟩
      exact ⟨next, ⟨first, hfirst, hnext⟩, h⟩
    · rintro ⟨next, ⟨first, hfirst, hnext⟩, h⟩
      exact ⟨first, hfirst, next, hnext, h⟩

/-- A compilation that succeeds comes to the end of each stage that it gets to. -/
theorem Starts.stageRun (h : Starts o g k b stage textures routes plan) (hg : g.WellFormed)
    (hok : (compile o g k b).result = .ok shader) :
    ∃ nodes s, StageRun o g k b textures stage routes plan nodes s ∧
      s.textures.textures <+: shader.textures.textures := by
  obtain ⟨before, after, first, hstages, hbefore, rfl⟩ := h.earlier
  obtain ⟨-, -, -, hall⟩ := compile_eq_ok.1 hok
  rw [hstages, addStages_append] at hall
  obtain ⟨first', hfirst, hall⟩ := hall
  cases hbefore.symm.trans hfirst
  obtain ⟨next, hnext, hafter⟩ := addStages_cons.1 hall
  obtain ⟨routes', plan', nodes, s, hrun, -, htextures, -⟩ := addStage_eq_ok hnext
  cases h.routes_eq.symm.trans hrun.routes_eq
  cases h.plan_eq.symm.trans hrun.plan_eq
  refine ⟨nodes, s, hrun, ?_⟩
  rw [← htextures]
  exact (addStages_result hg hafter).1

/-- A compilation that succeeds gets to every stage that has an output. -/
theorem exists_starts (hok : (compile o g k b).result = .ok shader)
    (hstage : stage ∈ k.stages) :
    ∃ textures routes plan, Starts o g k b stage textures routes plan := by
  obtain ⟨sources, hsources, hcheck, hall⟩ := compile_eq_ok.1 hok
  obtain ⟨before, after, hstages⟩ := List.append_of_mem hstage
  rw [hstages, addStages_append] at hall
  obtain ⟨first, hfirst, hall⟩ := hall
  obtain ⟨next, hnext, -⟩ := addStages_cons.1 hall
  obtain ⟨routes, plan, nodes, s, hrun, -⟩ := addStage_eq_ok hnext
  exact ⟨first.textures, routes, plan, ⟨sources, hsources, hcheck⟩,
    ⟨before, after, first, hstages, hfirst, rfl⟩, hrun.routes_eq, hrun.plan_eq⟩

theorem exists_addStage_of_text {shader shader' : Shader} {stages : List Stage} {text : String}
    (h : (addStages o g k b shader stages).result = .ok shader')
    (htext : (stage, text) ∈ shader'.stages) (hnew : (stage, text) ∉ shader.stages) :
    ∃ before after first next, stages = before ++ stage :: after ∧
      (addStages o g k b shader before).result = .ok first ∧
      (addStage o g k b first stage).result = .ok next ∧
      next.stages = first.stages ++ [(stage, text)] := by
  induction stages generalizing shader with
  | nil =>
    cases addStages_nil.1 h
    exact absurd htext hnew
  | cons stage' stages ih =>
    obtain ⟨next, hnext, h⟩ := addStages_cons.1 h
    obtain ⟨routes, plan, nodes, s, hrun, hstages, -⟩ := addStage_eq_ok hnext
    by_cases heq : (stage, text) = (stage', s.text o b (k.outputsOf stage'))
    · cases heq
      exact ⟨[], stages, shader, next, rfl, addStages_nil.2 rfl, hnext, hstages⟩
    · have hnew' : (stage, text) ∉ next.stages := by simp [hstages, hnew, heq]
      obtain ⟨before, after, first, last, rfl, hbefore, hlast⟩ := ih h hnew'
      exact ⟨stage' :: before, after, first, last, rfl,
        addStages_cons.2 ⟨next, hnext, hbefore⟩, hlast⟩

/-- A text among the results is that of a stage that compiling got to. -/
theorem exists_starts_of_text (hok : (compile o g k b).result = .ok shader) {text : String}
    (htext : (stage, text) ∈ shader.stages) :
    ∃ textures routes plan nodes s, Starts o g k b stage textures routes plan ∧
      StageRun o g k b textures stage routes plan nodes s ∧
      text = s.text o b (k.outputsOf stage) := by
  obtain ⟨sources, hsources, hcheck, hall⟩ := compile_eq_ok.1 hok
  obtain ⟨before, after, first, next, hstages, hfirst, hnext, htexts⟩ :=
    exists_addStage_of_text hall htext List.not_mem_nil
  obtain ⟨routes, plan, nodes, s, hrun, htexts', -⟩ := addStage_eq_ok hnext
  refine ⟨first.textures, routes, plan, nodes, s, ⟨⟨sources, hsources, hcheck⟩,
    ⟨before, after, first, hstages, hfirst, rfl⟩, hrun.routes_eq, hrun.plan_eq⟩, hrun, ?_⟩
  simpa [htexts'] using htexts.symm

theorem writeNodes_cons {s' : Emission} {id : NodeId} :
    Emission.writeNodes o g b plan s (id :: rest) = .ok s' ↔
      ∃ s₁, s.node o g b (1 < plan.uses.count id) id = .ok s₁ ∧
        Emission.writeNodes o g b plan s₁ rest = .ok s' :=
  Except.bind_eq_ok

theorem writeNodes_append {s' : Emission} {more : List NodeId} :
    Emission.writeNodes o g b plan s (done ++ more) = .ok s' ↔
      ∃ s₁, Emission.writeNodes o g b plan s done = .ok s₁ ∧
        Emission.writeNodes o g b plan s₁ more = .ok s' := by
  simp only [Emission.writeNodes, List.foldlM_append]
  exact Except.bind_eq_ok

theorem Underway.writeNodes_rest (h : Underway o g k b stage textures routes plan done rest s)
    {nodes s' : Emission} (hrun : StageRun o g k b textures stage routes plan nodes s') :
    Emission.writeNodes o g b plan s rest = .ok nodes := by
  have hnodes : Emission.writeNodes o g b plan { textures } (done ++ rest) = .ok nodes := by
    rw [← h.order]
    exact hrun.nodes_eq
  obtain ⟨s₁, hs₁, hrest⟩ := writeNodes_append.1 hnodes
  cases h.written.symm.trans hs₁
  exact hrest

/-- A compilation that succeeds comes to each node of each plan that it makes. -/
theorem Starts.exists_underway (h : Starts o g k b stage textures routes plan)
    {nodes s' : Emission} (hrun : StageRun o g k b textures stage routes plan nodes s')
    (horder : plan.order = done ++ rest) :
    ∃ s, Underway o g k b stage textures routes plan done rest s := by
  have hnodes : Emission.writeNodes o g b plan { textures } (done ++ rest) = .ok nodes := by
    rw [← horder]
    exact hrun.nodes_eq
  obtain ⟨s, hs, -⟩ := writeNodes_append.1 hnodes
  exact ⟨s, h, horder, hs⟩

/-- A node whose turn it is in a compilation that succeeds is written, with the arguments and the
access expression that its code is called for with. -/
theorem Builds.exists_writes (hg : g.WellFormed) (hok : (compile o g k b).result = .ok shader)
    {id : NodeId} {n : Node} {args : List Operand} {access : Option String}
    (h : Builds o g k b stage id n args access) :
    ∃ s shared s', Emission.Writes o g b s shared id n args access s' ∧
      s'.textures.textures <+: shader.textures.textures := by
  obtain ⟨textures, routes, plan, done, rest, s, s₁, hway, hn, hargs, haccess⟩ := h
  obtain ⟨nodes, final, hrun, hpre⟩ := hway.stageRun hg hok
  obtain ⟨s', hs', hrest⟩ := writeNodes_cons.1 (hway.writeNodes_rest hrun)
  obtain ⟨m, args', path, hwrites⟩ := Emission.writes_of_node hs'
  cases hn.symm.trans hwrites.node
  cases hargs.symm.trans (Emission.arguments_eq_ok.2 hwrites.arguments)
  obtain rfl : access = path := by
    rw [(Emission.accesses_of_access haccess).path_eq, hwrites.path_eq,
      (Emission.accesses_of_access haccess).textures, hwrites.textures]
    rfl
  refine ⟨s, _, s', hwrites, ?_⟩
  have hsplit : plan.order = (done ++ [id]) ++ rest := by simp [hway.order]
  have hwritten : Emission.writeNodes o g b plan { textures } (done ++ [id]) = .ok s' :=
    writeNodes_append.2 ⟨s, hway.written, writeNodes_cons.2 ⟨s', hs', rfl⟩⟩
  have hran := Emission.ran_of_writeNodes (hway.sound hg) hsplit hwritten
  have hend := hrun.ran hg
  rw [hsplit] at hend
  have htextures : final.textures.textures = nodes.textures.textures := by
    rw [hrun.textures_eq hg, (hrun.ran hg).textures]
  exact (hran.prefix_textures hend).trans (htextures ▸ hpre)

theorem exists_underway (hg : g.WellFormed) (hok : (compile o g k b).result = .ok shader)
    (hstage : stage ∈ k.stages) {source id : NodeId} (hfeeds : k.Feeds stage source)
    (hpath : g.Reaches source id) :
    ∃ textures routes plan done rest s,
      Underway o g k b stage textures routes plan done (id :: rest) s := by
  obtain ⟨textures, routes, plan, hstarts⟩ := exists_starts hok hstage
  obtain ⟨nodes, final, hrun, -⟩ := hstarts.stageRun hg hok
  obtain ⟨done, rest, horder⟩ := List.append_of_mem ((hrun.mem_order hg).2 ⟨source, hfeeds, hpath⟩)
  obtain ⟨s, hway⟩ := hstarts.exists_underway hrun horder
  exact ⟨textures, routes, plan, done, rest, s, hway⟩

/-- A compilation that succeeds calls for the code of every node behind a link of a stage. -/
theorem exists_builds (hg : g.WellFormed) (hok : (compile o g k b).result = .ok shader)
    (hstage : stage ∈ k.stages) {source id : NodeId} {n : Node} (hfeeds : k.Feeds stage source)
    (hpath : g.Reaches source id) (hn : g.node? id = some n) :
    ∃ args access, Builds o g k b stage id n args access := by
  obtain ⟨textures, routes, plan, done, rest, s, hway⟩ := exists_underway hg hok hstage hfeeds hpath
  obtain ⟨nodes, final, hrun, -⟩ := hway.stageRun hg hok
  obtain ⟨m, args, hm, hargs⟩ := hway.exists_arguments hg
  cases hn.symm.trans hm
  obtain ⟨s', hs', -⟩ := writeNodes_cons.1 (hway.writeNodes_rest hrun)
  unfold Emission.node at hs'
  rw [hn] at hs'
  obtain ⟨args', hargs', hs'⟩ := Except.bind_eq_ok.1 hs'
  obtain ⟨⟨s₁, access⟩, haccess, -⟩ := Except.bind_eq_ok.1 hs'
  exact ⟨args, access, textures, routes, plan, done, rest, s, s₁, hway, hn, hargs, haccess⟩

end ShaderFlow.Compile
