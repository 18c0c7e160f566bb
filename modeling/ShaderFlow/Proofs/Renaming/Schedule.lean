import ShaderFlow.Proofs.Renaming.Basic
import ShaderFlow.Proofs.Schedule.Walk

/-!
# Schedules of renamed nodes

Two walks, one over nodes of a graph and one over their copies in another, do the same tasks in
the same order. What the first has not visited, the second has not visited either, though it may
have other nodes left that the first graph does not have (`Schedule.Progress.Renamed`). So the
schedules are copies of each other, with the same counts (`Schedule.ofRoots_renamed`), and so are
the errors.
-/

namespace ShaderFlow

variable {φ : NodeId → NodeId} {S : Set NodeId} {g g' : Graph}

/-! ### Counts -/

/-- Nodes are used as often as their copies. -/
structure Uses.Renamed (φ : NodeId → NodeId) (S : Set NodeId) (u u' : Uses) : Prop where
  /-- The counts are the same. -/
  count : ∀ id ∈ S, u'.count (φ id) = u.count id
  /-- The counts are of nodes of the first generation. -/
  generation : u.FirstGeneration
  /-- So are those of the copies. -/
  generation' : u'.FirstGeneration

theorem Uses.Renamed.foldl_bump {u u' : Uses} (h : Renamed φ S u u') (hg : Graph.Copies φ S g g')
    {ids : List NodeId} (hids : ∀ id ∈ ids, id ∈ S) :
    Renamed φ S (ids.foldl bump u) ((ids.map φ).foldl bump u') := by
  have hgen : ∀ id ∈ ids, id.generation = 1 := fun id hid => (hg.generation (hids id hid)).1
  have hgen' : ∀ id ∈ ids.map φ, id.generation = 1 := by
    intro id hid
    obtain ⟨a, ha, rfl⟩ := List.mem_map.1 hid
    exact (hg.generation (hids a ha)).2
  refine ⟨fun x hx => ?_, h.generation.foldl_bump hgen, h.generation'.foldl_bump hgen'⟩
  rw [count_foldl_bump h.generation' hgen', count_foldl_bump h.generation hgen, h.count x hx,
    hg.count_map hids hx]

namespace Schedule

/-! ### The walk -/

/-- The second schedule lists the copies of the nodes that the first lists, with the same counts. -/
structure Renamed (φ : NodeId → NodeId) (S : Set NodeId) (s s' : Schedule) : Prop where
  /-- All nodes that are listed are in the set. -/
  listed : ∀ id ∈ s.order, id ∈ S
  /-- The copies are listed in the same order. -/
  order : s'.order = s.order.map φ
  /-- The counts are the same. -/
  uses : Uses.Renamed φ S s.uses s'.uses

/-- The same is left to visit and the same is scheduled, among the nodes of the set. -/
structure Progress.Renamed (φ : NodeId → NodeId) (S : Set NodeId) (p p' : Progress) : Prop where
  /-- The same nodes are not yet visited. -/
  unseen : ∀ id ∈ S, φ id ∈ p'.unseen ↔ id ∈ p.unseen
  /-- No node is left to visit twice. -/
  nodup : p.unseen.Nodup
  /-- Neither is a copy. -/
  nodup' : p'.unseen.Nodup
  /-- The same nodes are scheduled. -/
  schedule : p.schedule.Renamed φ S p'.schedule

/-- The task for the renamed node. -/
def Task.rename (φ : NodeId → NodeId) : Task → Task
  | visit id => visit (φ id)
  | list id => list (φ id)

namespace Progress.Renamed

variable {unseen unseen' : List NodeId} {s s' : Schedule} {id : NodeId}

theorem list (h : Renamed φ S ⟨unseen, s⟩ ⟨unseen', s'⟩) (hid : id ∈ S) :
    Renamed φ S ⟨unseen, { s with order := s.order ++ [id] }⟩
      ⟨unseen', { s' with order := s'.order ++ [φ id] }⟩ where
  unseen := h.unseen
  nodup := h.nodup
  nodup' := h.nodup'
  schedule :=
    { listed := by simpa [or_imp, forall_and] using ⟨h.schedule.listed, hid⟩
      order := by simpa using h.schedule.order
      uses := h.schedule.uses }

theorem visit (h : Renamed φ S ⟨unseen, s⟩ ⟨unseen', s'⟩) (hg : Graph.Copies φ S g g')
    (hid : id ∈ S) {sources : List NodeId} (hsources : ∀ source ∈ sources, source ∈ S) :
    Renamed φ S ⟨unseen.erase id, { s with uses := sources.foldl .bump s.uses }⟩
      ⟨unseen'.erase (φ id), { s' with uses := (sources.map φ).foldl .bump s'.uses }⟩ where
  unseen x hx := by
    rw [h.nodup'.mem_erase_iff, h.nodup.mem_erase_iff, ne_eq, ne_eq, hg.eq_iff hx hid,
      h.unseen x hx]
  nodup := h.nodup.erase id
  nodup' := h.nodup'.erase (φ id)
  schedule :=
    { listed := h.schedule.listed
      order := h.schedule.order
      uses := h.schedule.uses.foldl_bump hg hsources }

end Progress.Renamed

/-- Two walks with the same tasks end alike. -/
theorem walk_renamed (hg : Graph.Copies φ S g g') {unseen unseen' : List NodeId} {stack : List Task}
    {s s' : Schedule} (hstack : ∀ t ∈ stack, t.node ∈ S)
    (h : Progress.Renamed φ S ⟨unseen, s⟩ ⟨unseen', s'⟩) :
    Except.Rel (Error.Renamed φ) (Progress.Renamed φ S) (walk g unseen stack s)
      (walk g' unseen' (stack.map (Task.rename φ)) s') := by
  fun_induction walk g unseen stack s generalizing unseen' s' with
  | case1 unseen s =>
    rw [List.map_nil, walk]
    exact .ok h
  | case2 unseen s id rest ih =>
    rw [List.map_cons, Task.rename, walk]
    have hid : id ∈ S := hstack (.list id) List.mem_cons_self
    exact ih (fun t ht => hstack t (List.mem_cons_of_mem _ ht)) (h.list hid)
  | case3 unseen s id rest hnone =>
    obtain ⟨n, hn, -⟩ := hg.node id (hstack (.visit id) List.mem_cons_self)
    simp [hn] at hnone
  | case4 unseen s id rest n hn hmem slot hslot =>
    have hid : id ∈ S := hstack (.visit id) List.mem_cons_self
    obtain ⟨m, hm, hn'⟩ := hg.node id hid
    cases hn.symm.trans hm
    rw [List.map_cons, Task.rename, walk_visit_unwired hn' ((h.unseen id hid).2 hmem)
      (Node.lastUnwired?_rename.trans hslot)]
    exact .error (by rw [hg.label_eq hid, Error.Renamed, Error.rename])
  | case5 unseen s id rest n hn hmem hwired ih =>
    have hid : id ∈ S := hstack (.visit id) List.mem_cons_self
    obtain ⟨m, hm, hn'⟩ := hg.node id hid
    cases hn.symm.trans hm
    have hsources : ∀ source ∈ n.sources, source ∈ S := by
      intro source hs
      exact hg.closed id hid source (by rwa [g.sources_of_node? hn])
    rw [List.map_cons, Task.rename, walk_visit_wired hn' ((h.unseen id hid).2 hmem)
      (Node.lastUnwired?_rename.trans hwired), Node.sources_rename]
    have hnext := ih (fun t ht => ?_) (h.visit hg hid hsources)
    · simpa [Function.comp_def, Task.rename] using hnext
    · rcases List.mem_append.1 ht with ht | ht
      · obtain ⟨source, hs, rfl⟩ := List.mem_map.1 ht
        exact hsources source hs
      · rcases List.mem_cons.1 ht with rfl | ht
        · exact hid
        · exact hstack t (List.mem_cons_of_mem _ ht)
  | case6 unseen s id rest n hn hseen ih =>
    have hid : id ∈ S := hstack (.visit id) List.mem_cons_self
    obtain ⟨m, hm, hn'⟩ := hg.node id hid
    have hseen' : φ id ∉ unseen' := fun hmem => hseen ((h.unseen id hid).1 hmem)
    rw [List.map_cons, Task.rename, walk_visit_seen hn' hseen']
    exact ih (fun t ht => hstack t (List.mem_cons_of_mem _ ht)) h

/-- The schedule of copies is a copy of the schedule. -/
theorem ofRoots_renamed (hg : Graph.Copies φ S g g') {roots : List NodeId}
    (hroots : ∀ r ∈ roots, r ∈ S) :
    Except.Rel (Error.Renamed φ) (Renamed φ S) (ofRoots g roots)
      (ofRoots g' (roots.map φ)) := by
  have hinit : Progress.Renamed φ S ⟨g.ids, {}⟩ ⟨g'.ids, {}⟩ :=
    { unseen := fun id hid => hg.mem_ids hid
      nodup := g.nodup_ids
      nodup' := g'.nodup_ids
      schedule := ⟨by simp, rfl, ⟨fun _ _ => rfl, Uses.firstGeneration_empty,
        Uses.firstGeneration_empty⟩⟩ }
  refine Except.Rel.map (R := Progress.Renamed φ S) (Except.Rel.foldlM hinit ?_)
    fun _ _ h => h.schedule
  intro root hroot p p' hp
  have hroot := hroots root hroot
  have hvisit : ∀ t ∈ [Task.visit root], t.node ∈ S := by simpa [Task.node] using hroot
  have hcount : ∀ id ∈ [root], id ∈ S := by simpa using hroot
  exact walk_renamed hg hvisit ⟨hp.unseen, hp.nodup, hp.nodup', hp.schedule.listed,
    hp.schedule.order, hp.schedule.uses.foldl_bump hg hcount⟩

end Schedule

end ShaderFlow
