import ShaderFlow.Compile
import ShaderFlow.Proofs.Stage.Step

/-!
# Writing the nodes and the assignments of a stage

What one node keeps, the first nodes of a schedule keep, and so all of them
(`Emission.writeNodes_induction`, `Emission.schedule_induction`). While they are written, exactly
the nodes that are done have values, and the textures have places in the order of first need
(`Emission.Ran`). So a schedule can be written if the backend has what its nodes
require and there is room for its textures (`Emission.exists_schedule`), and after that each
assignment finds its value (`Emission.exists_assignAll`).
-/

namespace ShaderFlow

/-- The backend has what a node requires. -/
def Graph.IsProvided (g : Graph) (b : Backend) (id : NodeId) : Prop :=
  ∀ n r, g.node? id = some n → n.function.requirement = some r → b.Provides r

theorem Graph.isProvided_iff {g : Graph} {b : Backend} {id : NodeId} {n : Node}
    (h : g.node? id = some n) :
    g.IsProvided b id ↔ ∀ r, n.function.requirement = some r → b.Provides r := by
  simp only [IsProvided, h, Option.some.injEq]
  exact ⟨fun hp r => hp n r rfl, fun hp m r hm => hm ▸ hp r⟩

theorem Graph.texture?_of_node? {g : Graph} {id : NodeId} {n : Node} (h : g.node? id = some n) :
    g.texture? id = n.function.texture? := by
  simp [texture?, h]

theorem Graph.texture?_eq_some {g : Graph} {id : NodeId} {t : Texture} :
    g.texture? id = some t ↔
      ∃ n, g.node? id = some n ∧ n.function.requirement = some (.texture t) := by
  simp only [texture?, Function.texture?, Option.bind_eq_some_iff]
  constructor
  · rintro ⟨n, hn, r, hr, ht⟩
    cases r <;> simp only [Requirement.texture?, reduceCtorEq, Option.some.injEq] at ht
    exact ⟨n, hn, ht ▸ hr⟩
  · rintro ⟨n, hn, hr⟩
    exact ⟨n, hn, _, hr, rfl⟩

namespace Emission

variable {o : Options} {g : Graph} {b : Backend} {roots : List NodeId} {plan : Schedule}
  {s s' : Emission}

/-! ### Nodes -/

/-- Writes some nodes of a schedule. -/
def writeNodes (o : Options) (g : Graph) (b : Backend) (plan : Schedule) (s : Emission)
    (ids : List NodeId) : Except Stopped Emission :=
  ids.foldlM (fun s id => s.node o g b (1 < plan.uses.count id) id) s

/-- What holds at the start of a schedule and is kept by every node that is written holds after
the first nodes of it. All nodes that are written are wired. -/
theorem writeNodes_induction {P : List NodeId → Emission → Prop} {ids later : List NodeId}
    (hplan : plan.Sound g roots) (horder : plan.order = ids ++ later)
    (h : writeNodes o g b plan s ids = .ok s') (hinit : P [] s)
    (hstep : ∀ done id rest s s' n args path, plan.order = done ++ id :: rest → P done s →
      n.Wired → Writes o g b s (1 < plan.uses.count id) id n args path s' →
      P (done ++ [id]) s') :
    P ids s' := by
  refine Except.foldlM_induction h hinit ?_
  intro done id rest hids s s' hdone hnode
  obtain ⟨n, args, path, hwrites⟩ := writes_of_node hnode
  have hsplit : plan.order = done ++ id :: (rest ++ later) := by simp [horder, hids]
  obtain ⟨m, hm, hwired⟩ := hplan.wired id (by simp [hsplit])
  cases hwrites.node.symm.trans hm
  exact hstep done id (rest ++ later) s s' n args path hsplit hdone hwired hwrites

/-- What holds at the start of a schedule and is kept by every node that is written holds at its
end. -/
theorem schedule_induction {P : List NodeId → Emission → Prop} (hplan : plan.Sound g roots)
    (h : s.schedule o g b plan = .ok s') (hinit : P [] s)
    (hstep : ∀ done id rest s s' n args path, plan.order = done ++ id :: rest → P done s →
      n.Wired → Writes o g b s (1 < plan.uses.count id) id n args path s' →
      P (done ++ [id]) s') :
    P plan.order s' :=
  writeNodes_induction hplan (List.append_nil _).symm h hinit hstep

/-- The nodes that are done have values and what they require, and their textures have places
after those that had one before. -/
structure Ran (g : Graph) (b : Backend) (before : List Texture) (done : List NodeId)
    (s : Emission) : Prop where
  /-- The nodes that are done have values, and no others. -/
  known : ∀ id, (s.value? id).isSome = true ↔ id ∈ done
  /-- Textures have places in the order of first need. -/
  textures : s.textures.textures = TextureArray.placeAll before (done.filterMap g.texture?)
  /-- The backend has what the nodes require. -/
  provided : ∀ id ∈ done, g.IsProvided b id
  /-- The textures stay within the sampler array. -/
  within : ∀ count, b.HasSamplers count → before.length ≤ count.toNat →
    s.textures.textures.length ≤ count.toNat

theorem Ran.initial (textures : TextureArray) :
    Ran g b textures.textures [] { textures } where
  known := by simp [value?]
  textures := rfl
  provided := by simp
  within _ _ h := h

theorem Ran.write {before : List Texture} {done : List NodeId} {shared : Bool} {id : NodeId}
    {n : Node} {args : List Operand} {path : Option String} (h : Ran g b before done s)
    (hwrites : Writes o g b s shared id n args path s') : Ran g b before (done ++ [id]) s' where
  known x := by
    rw [hwrites.value?, List.mem_append, List.mem_singleton, ← h.known]
    split_ifs with hx <;> simp [hx]
  textures := by
    rw [hwrites.textures, h.textures, List.filterMap_append, TextureArray.placeAll_append,
      ← g.texture?_of_node? hwrites.node]
    cases hid : g.texture? id <;> simp [hid]
  provided x hx := by
    rcases List.mem_append.1 hx with hx | hx
    · exact h.provided x hx
    · cases List.mem_singleton.1 hx
      exact (Graph.isProvided_iff hwrites.node).2 hwrites.provides
  within count hcount hbefore := hwrites.within count hcount (h.within count hcount hbefore)

theorem Ran.prefix_textures {before : List Texture} {done rest : List NodeId}
    (h : Ran g b before done s) (h' : Ran g b before (done ++ rest) s') :
    s.textures.textures <+: s'.textures.textures := by
  rw [h.textures, h'.textures, List.filterMap_append, TextureArray.placeAll_append]
  exact TextureArray.prefix_placeAll

theorem ran_of_writeNodes {textures : TextureArray} {ids later : List NodeId}
    (hplan : plan.Sound g roots) (horder : plan.order = ids ++ later)
    (h : writeNodes o g b plan { textures } ids = .ok s') : Ran g b textures.textures ids s' :=
  writeNodes_induction hplan horder h (Ran.initial textures)
    fun _ _ _ _ _ _ _ _ _ hran _ hwrites => hran.write hwrites

theorem ran_of_schedule {textures : TextureArray} (hplan : plan.Sound g roots)
    (h : schedule o g b { textures } plan = .ok s') :
    Ran g b textures.textures plan.order s' :=
  ran_of_writeNodes hplan (List.append_nil _).symm h

theorem Ran.isSome_value? {before : List Texture} {done rest : List NodeId} {id : NodeId} {n : Node}
    (h : Ran g b before done s) (hplan : plan.Sound g roots)
    (horder : plan.order = done ++ id :: rest) (hn : g.node? id = some n) :
    ∀ source ∈ n.sources, (s.value? source).isSome = true := by
  intro source hsource
  rw [← g.sources_of_node? hn] at hsource
  exact (h.known source).2 (hplan.sorted done id rest horder hsource)

/-- The next node of a schedule can be written if the backend has what it requires and there is
room for all textures of the schedule. -/
theorem Ran.exists_node {before : List Texture} {done rest : List NodeId} {id : NodeId}
    (h : Ran g b before done s) (hplan : plan.Sound g roots)
    (horder : plan.order = done ++ id :: rest) (hprovided : g.IsProvided b id)
    (hroom : ∀ count, b.HasSamplers count →
      (TextureArray.placeAll before (plan.order.filterMap g.texture?)).length ≤ count.toNat)
    (shared : Bool) :
    ∃ s', s.node o g b shared id = .ok s' ∧ Ran g b before (done ++ [id]) s' := by
  obtain ⟨n, hn, hwired⟩ := hplan.wired id (by simp [horder])
  have hvalues := h.isSome_value? hplan horder hn
  have hfits : ∀ count, b.HasSamplers count →
      (TextureArray.placeAll s.textures.textures n.function.texture?.toList).length ≤
        count.toNat := by
    intro count hcount
    refine Nat.le_trans ?_ (hroom count hcount)
    rw [horder, h.textures, ← TextureArray.placeAll_append, ← g.texture?_of_node? hn]
    have hsplit : (done ++ id :: rest).filterMap g.texture? =
        (done.filterMap g.texture? ++ (g.texture? id).toList) ++ rest.filterMap g.texture? := by
      cases h : g.texture? id <;> simp [h]
    rw [hsplit, TextureArray.placeAll_append _ _ (rest.filterMap g.texture?)]
    exact TextureArray.prefix_placeAll.length_le
  obtain ⟨s', hs'⟩ :=
    Emission.exists_node hn hwired hvalues ((Graph.isProvided_iff hn).1 hprovided) hfits
  obtain ⟨m, args, path, hwrites⟩ := writes_of_node hs'
  exact ⟨s', hs', h.write hwrites⟩

/-- A schedule can be written if the backend has what its nodes require and there is room for its
textures. -/
theorem exists_schedule {textures : TextureArray} (hplan : plan.Sound g roots)
    (hprovided : ∀ id ∈ plan.order, g.IsProvided b id)
    (hroom : ∀ count, b.HasSamplers count →
      (TextureArray.placeAll textures.textures (plan.order.filterMap g.texture?)).length ≤
        count.toNat) :
    ∃ s', schedule o g b { textures } plan = .ok s' := by
  obtain ⟨s', hs', -⟩ := Except.exists_foldlM (Ran.initial textures)
    fun done id rest horder s hran =>
      hran.exists_node hplan horder (hprovided id (by simp [horder])) hroom
        (1 < plan.uses.count id)
  exact ⟨s', hs'⟩

/-! ### Assignments -/

/-- The line writes the value of a route's source to the place of the route. -/
def AssignedBy (s : Emission) (r : Route) (l : Line) : Prop :=
  ∃ value, s.value? r.source = some value ∧ l = .assign (r.output.place r.selector) value.expr

/-- Assignments are written after what was there, one for each route, and change nothing else. -/
theorem assignAll_eq_ok {routes : List Route} (h : s.assignAll routes = .ok s') :
    ∃ lines, List.Forall₂ s.AssignedBy routes lines ∧
      s' = { s with block := { s.block with lines := s.block.lines ++ lines.toArray } } := by
  induction routes generalizing s with
  | nil =>
    cases h
    exact ⟨[], .nil, by simp⟩
  | cons r routes ih =>
    obtain ⟨s₁, hs₁, h⟩ := Except.bind_eq_ok.1 h
    rw [orStop_eq_ok] at hs₁
    unfold assign at hs₁
    split at hs₁
    · cases hs₁
    next value hvalue =>
      cases hs₁
      obtain ⟨lines, hlines, rfl⟩ := ih h
      refine ⟨.assign (r.output.place r.selector) value.expr :: lines,
        .cons ⟨value, hvalue, rfl⟩ hlines, ?_⟩
      simp [Block.push]

theorem exists_assignAll {routes : List Route}
    (h : ∀ r ∈ routes, (s.value? r.source).isSome = true) :
    ∃ s', s.assignAll routes = .ok s' := by
  induction routes generalizing s with
  | nil => exact ⟨s, rfl⟩
  | cons r routes ih =>
    obtain ⟨value, hvalue⟩ := Option.isSome_iff_exists.1 (h r List.mem_cons_self)
    refine Except.exists_bind_eq_ok.2
      ⟨_, orStop_eq_ok.2 (by simp only [assign, hvalue]; rfl), ih fun r' hr' => ?_⟩
    exact h r' (List.mem_cons_of_mem _ hr')

theorem Ran.isSome_source {before : List Texture} {routes : List Route}
    (h : Ran g b before plan.order s) (hplan : plan.Sound g (routes.map (·.source))) :
    ∀ r ∈ routes, (s.value? r.source).isSome = true := by
  intro r hr
  rw [h.known, hplan.mem_iff]
  exact ⟨r.source, List.mem_map_of_mem hr, .refl _⟩

end Emission

end ShaderFlow
