import ShaderFlow.Proofs.Renaming.Schedule
import ShaderFlow.Proofs.Stage.Step

/-!
# Writing renamed nodes

The code of a node depends on the values of its sources, on what the backend has, and on how often
the node is used. None of these mentions an identifier. So two stages, one with nodes of a graph
and one with their copies, write the same code, use the same resources and give textures the same
places; what differs is under which identifiers the values are kept (`Emission.Renamed`).
-/

namespace ShaderFlow

variable {φ : NodeId → NodeId} {S : Set NodeId} {g g' : Graph} {o : Options} {b : Backend}

/-! ### What a backend answers -/

theorem Backend.resolve_renamed (b : Backend) (c : Capability) :
    Except.Rel (Error.Renamed φ) Eq (b.resolve c) (b.resolve c) := by
  unfold resolve
  cases b.resolve? c with
  | none => exact .error rfl
  | some resolution => exact .ok rfl

theorem Backend.accessor_renamed (b : Backend) (v : Builtin) :
    Except.Rel (Error.Renamed φ) Eq (b.accessor v) (b.accessor v) := by
  unfold accessor
  cases b.accessors.lookup v with
  | none => exact .error rfl
  | some text => exact .ok rfl

theorem Backend.capacity_renamed (b : Backend) (h : Handle) :
    Except.Rel (Error.Renamed φ) Eq (b.capacity h) (b.capacity h) := by
  unfold capacity
  cases (b.descriptor? h).bind Descriptor.capacity? with
  | none => exact .error rfl
  | some count => exact .ok rfl

theorem TextureArray.assign_renamed (s : TextureArray) (t : Texture) (binding : String)
    (capacity : Nat) :
    Except.Rel (Error.Renamed φ) Eq (s.assign t binding capacity)
      (s.assign t binding capacity) := by
  unfold assign
  split
  · exact .ok rfl
  · split
    · exact .ok rfl
    · exact .error rfl

theorem Requirement.check_renamed (b : Backend) (r : Requirement) :
    Except.Rel (Error.Renamed φ) Eq (r.check b).result (r.check b).result := by
  simp only [Requirement.check, Backend.resolveTraced, Traced.result_bind, Traced.result_lift,
    Traced.result_report, Traced.result_pure]
  refine Except.Rel.bind (R := Eq) ?_ ?_
  · refine (b.resolve_renamed r.needs).bind ?_
    rintro resolution _ rfl
    exact .ok rfl
  · rintro resolution _ rfl
    cases r with
    | capability c => exact .ok rfl
    | builtin v => exact (b.accessor_renamed v).map fun _ _ _ => rfl
    | texture t => exact (b.capacity_renamed _).map fun _ _ _ => rfl

theorem Schedule.checkNodes_renamed (hg : Graph.Copies φ S g g') {ids : List NodeId}
    (hids : ∀ id ∈ ids, id ∈ S) :
    Except.Rel (Error.Renamed φ) Eq (checkNodes g b ids).result
      (checkNodes g' b (ids.map φ)).result := by
  induction ids with
  | nil => exact .ok rfl
  | cons id ids ih =>
    rw [List.map_cons, checkNodes, checkNodes, Traced.result_bind, Traced.result_bind]
    refine Except.Rel.bind (R := Eq) ?_ fun _ _ _ =>
      ih fun a ha => hids a (List.mem_cons_of_mem _ ha)
    obtain ⟨n, hn, hn'⟩ := hg.node id (hids id List.mem_cons_self)
    unfold checkNode
    simp only [hn, hn', Node.rename]
    cases n.function.requirement with
    | none => exact .ok rfl
    | some r => exact r.check_renamed b

/-- Two stages stopped for the same reason, up to the names of nodes. -/
def Stopped.Renamed (φ : NodeId → NodeId) (t t' : Stopped) : Prop := t.error.Renamed φ t'.error

namespace Emission

/-! ### States -/

/-- The same code was written and the same resources are used, and each copy has the value of its
node. -/
structure Renamed (φ : NodeId → NodeId) (S : Set NodeId) (s s' : Emission) : Prop where
  /-- Textures have the same places. -/
  textures : s'.textures = s.textures
  /-- The code is the same. -/
  block : s'.block = s.block
  /-- The same resources are used. -/
  used : s'.used = s.used
  /-- Each copy has the value of its node. -/
  values : ∀ id ∈ S, s'.value? (φ id) = s.value? id

variable {s s' : Emission}

theorem Renamed.initial (textures : TextureArray) : Renamed φ S { textures } { textures } :=
  ⟨rfl, rfl, rfl, fun _ _ => rfl⟩

theorem orStop_renamed {α β : Type} {R : α → β → Prop} {x : Except Error α} {y : Except Error β}
    (h : Except.Rel (Error.Renamed φ) R x y) :
    Except.Rel (Stopped.Renamed φ) R (s.orStop x) (s'.orStop y) :=
  h.mapError fun _ _ he => he

/-! ### Nodes -/

theorem Renamed.use (h : Renamed φ S s s') (c : Capability) (r : Resolution) :
    Renamed φ S (s.use c r) (s'.use c r) :=
  ⟨h.textures, h.block, by simp [Emission.use, report, h.used], h.values⟩

theorem Renamed.place (h : Renamed φ S s s') (textures : TextureArray) (t : Texture)
    (path : String) (slot : Nat) :
    Renamed φ S (s.place textures t path slot) (s'.place textures t path slot) :=
  ⟨rfl, h.block, h.used, h.values⟩

theorem Renamed.accessThrough (h : Renamed φ S s s') (resolution : Resolution) (r : Requirement) :
    Except.Rel (Stopped.Renamed φ) (fun p p' => Renamed φ S p.1 p'.1 ∧ p'.2 = p.2)
      (s.accessThrough b resolution r) (s'.accessThrough b resolution r) := by
  cases r with
  | capability c => exact .ok ⟨h, rfl⟩
  | builtin v =>
    refine Except.Rel.bind (orStop_renamed (b.accessor_renamed v)) ?_
    rintro accessor _ rfl
    exact .ok ⟨h, rfl⟩
  | texture t =>
    refine Except.Rel.bind (orStop_renamed (b.capacity_renamed _)) ?_
    rintro capacity _ rfl
    rw [h.textures]
    refine Except.Rel.bind (orStop_renamed (s.textures.assign_renamed t _ capacity)) ?_
    rintro ⟨textures, slot⟩ _ rfl
    exact .ok ⟨h.place textures t _ slot, rfl⟩

/-- What a node requires is read through the same expression in both stages. -/
theorem Renamed.access (h : Renamed φ S s s') (r : Option Requirement) :
    Except.Rel (Stopped.Renamed φ) (fun p p' => Renamed φ S p.1 p'.1 ∧ p'.2 = p.2)
      (s.access b r) (s'.access b r) := by
  cases r with
  | none => exact .ok ⟨h, rfl⟩
  | some r =>
    refine Except.Rel.bind (orStop_renamed (b.resolve_renamed r.needs)) ?_
    rintro resolution _ rfl
    refine Except.Rel.bind ((h.use r.needs resolution).accessThrough resolution r) ?_
    rintro ⟨s₁, path⟩ ⟨s₁', _⟩ ⟨h₁, rfl⟩
    exact .ok ⟨h₁, rfl⟩

/-- The copy of a node has the same arguments. -/
theorem Renamed.arguments (h : Renamed φ S s s') {label : Label} {slot : Nat}
    {inputs : List (Option NodeId)} (hinputs : ∀ source, some source ∈ inputs → source ∈ S) :
    Except.Rel (Error.Renamed φ) Eq (s.arguments label slot inputs)
      (s'.arguments (label.rename φ) slot (inputs.map (Option.map φ))) := by
  induction inputs generalizing slot with
  | nil => exact .ok rfl
  | cons input inputs ih =>
    have hvalue : (input.map φ).bind s'.value? = input.bind s.value? := by
      cases input with
      | none => rfl
      | some source => exact h.values source (hinputs source List.mem_cons_self)
    rw [List.map_cons, Emission.arguments, Emission.arguments, hvalue]
    cases input.bind s.value? with
    | none => exact .error rfl
    | some value =>
      refine (ih fun source hs => hinputs source (List.mem_cons_of_mem _ hs)).map ?_
      rintro args _ rfl
      rfl

theorem Renamed.store (h : Renamed φ S s s') (hg : Graph.Copies φ S g g') {id : NodeId}
    (hid : id ∈ S) (code : Block × Operand) :
    Renamed φ S (s.store o g id code) (s'.store o g' (φ id) code) where
  textures := h.textures
  block := rfl
  used := h.used
  values x hx := by
    simp only [value?, Emission.store, report, lookup_cons_ite, hg.eq_iff hx hid]
    split_ifs with heq
    · rfl
    · exact h.values x hx

/-- A node is written as its copy is. -/
theorem Renamed.node (h : Renamed φ S s s') (hg : Graph.Copies φ S g g') (shared : Bool)
    {id : NodeId} (hid : id ∈ S) :
    Except.Rel (Stopped.Renamed φ) (Renamed φ S) (s.node o g b shared id)
      (s'.node o g' b shared (φ id)) := by
  obtain ⟨n, hn, hn'⟩ := hg.node id hid
  have hinputs : ∀ source, some source ∈ n.inputs → source ∈ S := by
    intro source hs
    refine hg.closed id hid source ?_
    rw [g.sources_of_node? hn]
    exact List.mem_filterMap.2 ⟨_, hs, rfl⟩
  unfold Emission.node
  rw [hn, hn', hg.label_eq hid]
  refine Except.Rel.bind (orStop_renamed (h.arguments hinputs)) ?_
  rintro args _ rfl
  refine Except.Rel.bind (h.access n.function.requirement) ?_
  rintro ⟨s₁, access⟩ ⟨s₁', _⟩ ⟨h₁ : Renamed φ S s₁ s₁', rfl⟩
  simp only [h₁.block]
  exact .ok (h₁.store hg hid _)

/-- A schedule is written as its copy is. -/
theorem Renamed.schedule (h : Renamed φ S s s') (hg : Graph.Copies φ S g g')
    {plan plan' : Schedule} (hplan : plan.Renamed φ S plan') :
    Except.Rel (Stopped.Renamed φ) (Renamed φ S) (s.schedule o g b plan)
      (s'.schedule o g' b plan') := by
  unfold Emission.schedule
  rw [hplan.order]
  refine Except.Rel.foldlM h fun id hid s s' hs => ?_
  have hmem := hplan.listed id hid
  rw [hplan.uses.count id hmem]
  exact hs.node hg _ hmem

/-! ### Assignments and texts -/

theorem Renamed.assignAll (h : Renamed φ S s s') {routes : List Route}
    (hroutes : ∀ r ∈ routes, r.source ∈ S) :
    Except.Rel (Stopped.Renamed φ) (Renamed φ S) (s.assignAll routes)
      (s'.assignAll (routes.map (Route.rename φ))) := by
  refine Except.Rel.foldlM h fun r hr s s' hs => orStop_renamed ?_
  unfold assign Route.rename
  simp only [hs.values r.source (hroutes r hr)]
  cases s.value? r.source with
  | none => exact .error rfl
  | some value => exact .ok ⟨hs.textures, by rw [hs.block], hs.used, hs.values⟩

/-- The text of a stage names no node. -/
theorem Renamed.text_eq (h : Renamed φ S s s') (outputs : List Output) :
    s'.text o b outputs = s.text o b outputs := by
  rw [text, text, h.used, h.block]

theorem traced_renamed {x y : Except Stopped Emission}
    (h : Except.Rel (Stopped.Renamed φ) (Renamed φ S) x y) :
    Except.Rel (Error.Renamed φ) (Renamed φ S) (traced x).result (traced y).result := by
  cases h with
  | ok h => exact .ok h
  | error h => exact .error h

end Emission

end ShaderFlow
