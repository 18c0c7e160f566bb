import ShaderFlow.Proofs.Stage.Run

/-!
# Resources in order

The resources that a stage uses are kept in the order of handles, without repetition. Inserting
one more keeps the list strictly increasing (`Handle.pairwise_insertAll`), so the list is
determined by its members, and these are the resources of what the nodes of the stage require
(`Emission.used_of_schedule`).
-/

namespace ShaderFlow

/-! ### Handles -/

namespace Handle

variable {a b c : Handle} {used more : List Handle}

theorem lt_iff : a.lt b = true ↔
    a.kind.rank < b.kind.rank ∨ a.kind.rank = b.kind.rank ∧ a.index < b.index := by
  simp [lt, ResourceKind.rank_inj]

theorem lt_trans (h : a.lt b = true) (h' : b.lt c = true) : a.lt c = true := by
  rw [lt_iff] at h h' ⊢
  omega

theorem lt_of_not_lt (hne : a ≠ b) (h : ¬ a.lt b = true) : b.lt a = true := by
  have hfields : ¬ (a.kind.rank = b.kind.rank ∧ a.index = b.index) := by
    rw [ResourceKind.rank_inj]
    exact fun ⟨hkind, hindex⟩ => hne (Handle.ext hkind hindex)
  rw [lt_iff] at h ⊢
  omega

theorem pairwise_insert (h : used.Pairwise fun a b => a.lt b = true) :
    (insert a used).Pairwise fun a b => a.lt b = true := by
  induction used with
  | nil => simp [insert]
  | cons b used ih =>
    obtain ⟨hb, hused⟩ := List.pairwise_cons.1 h
    unfold insert
    split_ifs with heq hlt
    · exact h
    · refine List.pairwise_cons.2 ⟨fun c hc => ?_, h⟩
      rcases List.mem_cons.1 hc with rfl | hc
      · exact hlt
      · exact lt_trans hlt (hb c hc)
    · refine List.pairwise_cons.2 ⟨fun c hc => ?_, ih hused⟩
      rcases mem_insert.1 hc with rfl | hc
      · exact lt_of_not_lt heq hlt
      · exact hb c hc

theorem mem_insertAll : a ∈ insertAll used more ↔ a ∈ used ∨ a ∈ more := by
  induction more generalizing used with
  | nil => simp [insertAll]
  | cons b more ih =>
    rw [insertAll, List.foldl_cons, ← insertAll, ih, mem_insert, List.mem_cons, or_assoc,
      or_left_comm]

theorem insertAll_append (used more later : List Handle) :
    insertAll used (more ++ later) = insertAll (insertAll used more) later :=
  List.foldl_append

theorem pairwise_insertAll (h : used.Pairwise fun a b => a.lt b = true) :
    (insertAll used more).Pairwise fun a b => a.lt b = true := by
  induction more generalizing used with
  | nil => exact h
  | cons a more ih => exact ih (pairwise_insert h)

end Handle

/-! ### Resources of nodes -/

/-- The resource that is used for what a node requires. -/
def Graph.handle? (g : Graph) (b : Backend) (id : NodeId) : Option Handle :=
  (g.node? id).bind fun n => n.function.requirement.bind b.handle?

theorem Graph.handle?_of_node? {g : Graph} {b : Backend} {id : NodeId} {n : Node}
    (h : g.node? id = some n) : g.handle? b id = n.function.requirement.bind b.handle? := by
  simp [handle?, h]

theorem Backend.exists_resource {b : Backend} {r : Requirement} {h : Handle}
    (hr : b.handle? r = some h) : ∃ resource, b.resource? h = some resource := by
  obtain ⟨resolution, hres, rfl⟩ := Option.map_eq_some_iff.1 hr
  obtain ⟨handle, -, hres⟩ := Option.bind_eq_some_iff.1 hres
  obtain ⟨resource, hresource, hres⟩ := Option.bind_eq_some_iff.1 hres
  cases hres
  exact ⟨resource, hresource⟩

/-- A schedule uses the resources of its nodes. -/
theorem Emission.used_of_schedule {o : Options} {g : Graph} {b : Backend} {roots : List NodeId}
    {plan : Schedule} {textures : TextureArray} {s : Emission} (hplan : plan.Sound g roots)
    (h : schedule o g b { textures } plan = .ok s) :
    s.used = Handle.insertAll [] (plan.order.filterMap (g.handle? b)) :=
  schedule_induction
    (P := fun done s => s.used = Handle.insertAll [] (done.filterMap (g.handle? b))) hplan h rfl
    fun done id _ s s' n _ _ _ hused _ hwrites => by
      rw [hwrites.used, hused, ← g.handle?_of_node? hwrites.node, List.filterMap_append,
        Handle.insertAll_append]
      cases hid : g.handle? b id <;> simp [hid]

end ShaderFlow
