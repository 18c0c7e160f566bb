import ShaderFlow.Proofs.Schedule.Uses

/-!
# What a schedule lists and counts

The walk takes tasks off a stack. While it runs, every node of the graph is not yet visited,
listed, or waits on the stack to be listed, and it is exactly one of the three. A node that waits
depends on all that is above it, so in a graph without cycles a visited node met again is listed
already. That makes each node come after its sources (`Walking.sorted`).

* `Schedule.Sound` says what a schedule of given roots is: what they need and no more, in order,
  with exact counts;
* `Walking` is the invariant of the walk, with one lemma for each kind of step;
* `Schedule.sound_of_ofRoots` and `Schedule.exists_ofRoots_iff` say that the schedule of roots is
  sound, and that there is one exactly if all that the roots need is there and wired.
-/

namespace ShaderFlow

open Relation

/-- All inputs of the node have a source. -/
def Node.Wired (n : Node) : Prop := ∀ input ∈ n.inputs, input.isSome = true

instance (n : Node) : Decidable n.Wired :=
  inferInstanceAs (Decidable (∀ input ∈ n.inputs, input.isSome = true))

/-- The node exists, and all its inputs have a source. -/
def Graph.IsWired (g : Graph) (id : NodeId) : Prop := ∃ n, g.node? id = some n ∧ n.Wired

theorem Graph.IsWired.contains {g : Graph} {id : NodeId} (h : g.IsWired id) :
    g.contains id = true := by
  obtain ⟨n, hn, -⟩ := h
  simp [Graph.contains, hn]

theorem Node.Wired.inputs_eq {n : Node} (h : n.Wired) : n.inputs = n.sources.map some := by
  unfold Wired at h
  unfold sources
  generalize n.inputs = inputs at h
  induction inputs with
  | nil => rfl
  | cons input inputs ih =>
    obtain ⟨source, rfl⟩ := Option.isSome_iff_exists.1 (h input List.mem_cons_self)
    simpa using ih fun i hi => h i (List.mem_cons_of_mem _ hi)

theorem Node.lastUnwired?_eq_none_iff {n : Node} : n.lastUnwired? = none ↔ n.Wired := by
  simp only [lastUnwired?, List.find?_eq_none, List.mem_reverse, List.mem_range, input?, Wired]
  constructor
  · intro h input hinput
    obtain ⟨i, hi, rfl⟩ := List.getElem_of_mem hinput
    simpa [List.getElem?_eq_getElem hi, Option.isSome_iff_ne_none] using h i hi
  · intro h i hi
    have := h n.inputs[i] (List.getElem_mem hi)
    simpa [List.getElem?_eq_getElem hi, Option.isSome_iff_ne_none] using this

theorem find?_reverse_range {p : Nat → Bool} {m i : Nat}
    (h : (List.range m).reverse.find? p = some i) :
    i < m ∧ p i = true ∧ ∀ j, i < j → j < m → p j = false := by
  induction m with
  | zero => cases h
  | succ m ih =>
    rw [List.range_succ, List.reverse_append, List.reverse_singleton, List.singleton_append,
      List.find?_cons] at h
    cases hm : p m with
    | true =>
      simp only [hm, Option.some.injEq] at h
      subst h
      exact ⟨Nat.lt_succ_self _, hm, fun j hj hj' => by omega⟩
    | false =>
      simp only [hm] at h
      obtain ⟨hi, hp, hlater⟩ := ih h
      refine ⟨Nat.lt_succ_of_lt hi, hp, fun j hj hj' => ?_⟩
      rcases Nat.lt_succ_iff_lt_or_eq.1 hj' with hj' | rfl
      · exact hlater j hj hj'
      · exact hm

theorem Node.lastUnwired?_eq_some {n : Node} {slot : Nat} (h : n.lastUnwired? = some slot) :
    n.inputs[slot]? = some none ∧ ∀ later, slot < later → n.inputs[later]? ≠ some none := by
  obtain ⟨hslot, hnone, hlater⟩ := find?_reverse_range h
  have hinput : ∀ i, i < n.inputs.length → ((n.input? i).isNone = true ↔
      n.inputs[i]? = some none) := by
    intro i hi
    simp [input?, List.getElem?_eq_getElem hi]
  refine ⟨(hinput slot hslot).1 hnone, fun later hlt heq => ?_⟩
  have hlen := (List.getElem?_eq_some_iff.1 heq).1
  have := hlater later hlt hlen
  simp [(hinput later hlen).2 heq] at this

namespace Schedule

/-- The schedule lists all that the roots need and no more, each node once and after its sources,
and counts a use for each mention as a root and for each input of a listed node. -/
structure Sound (g : Graph) (roots : List NodeId) (s : Schedule) : Prop where
  /-- No node is listed twice. -/
  nodup : s.order.Nodup
  /-- The nodes that the roots reach are listed. -/
  mem_iff : ∀ id, id ∈ s.order ↔ ∃ r ∈ roots, g.Reaches r id
  /-- Listed nodes have all their inputs wired. -/
  wired : ∀ id ∈ s.order, g.IsWired id
  /-- The sources of a node are listed before it. -/
  sorted : ∀ done id rest, s.order = done ++ id :: rest → g.sources id ⊆ done
  /-- The counts are exact. -/
  uses : ∀ id, s.uses.count id = roots.count id + (s.order.flatMap g.sources).count id

namespace Task

/-- The node that a task is about. -/
def node : Task → NodeId
  | visit id | list id => id

/-- The node that a task will list. -/
def pending? : Task → Option NodeId
  | visit _ => none
  | list id => some id

end Task

/-- The nodes that wait on a stack to be listed. -/
def pending (stack : List Task) : List NodeId := stack.filterMap Task.pending?

@[simp]
theorem pending_nil : pending [] = [] := rfl

@[simp]
theorem pending_list (id : NodeId) (rest : List Task) :
    pending (.list id :: rest) = id :: pending rest := rfl

@[simp]
theorem pending_visit (id : NodeId) (rest : List Task) :
    pending (.visit id :: rest) = pending rest := rfl

@[simp]
theorem pending_visits (ids : List NodeId) (rest : List Task) :
    pending (ids.map .visit ++ rest) = pending rest := by
  induction ids with
  | nil => rfl
  | cons id ids ih => exact ih

theorem mem_pending {id : NodeId} {stack : List Task} : id ∈ pending stack ↔ .list id ∈ stack := by
  simp only [pending, List.mem_filterMap]
  constructor
  · rintro ⟨t, ht, hid⟩
    cases t with
    | visit a => cases hid
    | list a => rwa [← Option.some.inj hid]
  · exact fun h => ⟨_, h, rfl⟩

/-- A schedule in the making, with the nodes not visited and the tasks on the stack. -/
structure Walking (g : Graph) (roots unseen : List NodeId) (stack : List Task) (s : Schedule) :
    Prop where
  /-- A node is not visited, or listed, or waits to be listed. -/
  partition : (unseen ++ (s.order ++ pending stack)).Perm g.ids
  /-- Visited nodes have all their inputs wired. -/
  wired : ∀ id ∈ s.order ++ pending stack, g.IsWired id
  /-- Only what the roots need is dealt with. -/
  reached : ∀ id ∈ s.order ++ stack.map Task.node, ∃ r ∈ roots, g.Reaches r id
  /-- The roots are dealt with. -/
  rooted : ∀ r ∈ roots, r ∈ s.order ++ stack.map Task.node
  /-- A node that waits depends on everything above it. -/
  nested : stack.Pairwise fun above below => ∀ id, below = .list id → g.DependsOn id above.node
  /-- The sources of a node are listed before it. -/
  sorted : ∀ done id rest, s.order = done ++ id :: rest → g.sources id ⊆ done
  /-- The sources of a node that waits are listed, or are dealt with before it. -/
  ready : ∀ above id below, stack = above ++ .list id :: below →
    g.sources id ⊆ s.order ++ above.map Task.node
  /-- Counts are of nodes of the first generation. -/
  generation : s.uses.FirstGeneration
  /-- The mentions as roots and the inputs of visited nodes are counted. -/
  counted : ∀ id, s.uses.count id =
    roots.count id + ((s.order ++ pending stack).flatMap g.sources).count id

variable {g : Graph} {roots unseen : List NodeId} {rest : List Task} {s : Schedule} {id : NodeId}

namespace Walking

/-- A visited node that is met again is listed: if it still waited, it would depend on itself. -/
theorem mem_order (h : Walking g roots unseen (.visit id :: rest) s) (hg : g.Acyclic)
    (hid : id ∈ g.ids) (hseen : id ∉ unseen) : id ∈ s.order := by
  have hmem := h.partition.mem_iff.2 hid
  simp only [List.mem_append, hseen, false_or, pending_visit] at hmem
  refine hmem.resolve_right fun hpending => ?_
  exact hg id ((List.pairwise_cons.1 h.nested).1 _ (mem_pending.1 hpending) id rfl)

theorem skip (h : Walking g roots unseen (.visit id :: rest) s) (hg : g.Acyclic)
    (hid : id ∈ g.ids) (hseen : id ∉ unseen) : Walking g roots unseen rest s where
  partition := h.partition
  wired := h.wired
  reached a ha := h.reached a (by
    simp only [List.map_cons, List.mem_append, List.mem_cons] at ha ⊢
    exact ha.imp_right Or.inr)
  rooted r hr := by
    have hlisted := h.mem_order hg hid hseen
    have := h.rooted r hr
    simp only [List.map_cons, List.mem_append, List.mem_cons, Task.node] at this ⊢
    rcases this with hr | rfl | hr
    · exact Or.inl hr
    · exact Or.inl hlisted
    · exact Or.inr hr
  nested := (List.pairwise_cons.1 h.nested).2
  sorted := h.sorted
  ready above a below hstack source hsource := by
    have hlisted := h.mem_order hg hid hseen
    have := h.ready (.visit id :: above) a below (by simp [hstack]) hsource
    simp only [List.map_cons, List.mem_append, List.mem_cons, Task.node] at this ⊢
    rcases this with hs | rfl | hs
    · exact Or.inl hs
    · exact Or.inl hlisted
    · exact Or.inr hs
  generation := h.generation
  counted := h.counted

theorem list (h : Walking g roots unseen (.list id :: rest) s) :
    Walking g roots unseen rest { s with order := s.order ++ [id] } where
  partition := by simpa using h.partition
  wired := by simpa using h.wired
  reached := by simpa [Task.node] using h.reached
  rooted := by simpa [Task.node] using h.rooted
  nested := (List.pairwise_cons.1 h.nested).2
  sorted done a tail horder := by
    have hready : g.sources id ⊆ s.order := by simpa using h.ready [] id rest rfl
    rcases List.eq_nil_or_concat tail with rfl | ⟨tail, b, rfl⟩
    · obtain ⟨hdone, ha⟩ := List.append_inj' horder rfl
      cases ha
      rwa [← hdone]
    · rw [List.concat_eq_append, ← List.cons_append, ← List.append_assoc] at horder
      exact h.sorted done a tail (List.append_inj' horder rfl).1
  ready above a below hstack := by
    have := h.ready (.list id :: above) a below (by simp [hstack])
    simpa [Task.node] using this
  generation := h.generation
  counted := by simpa using h.counted

/-- The sources of a visited node are put above it, so all nodes that wait are ready. -/
theorem ready_visit (h : Walking g roots unseen (.visit id :: rest) s) {above below : List Task}
    {a : NodeId}
    (hstack : (g.sources id).map .visit ++ .list id :: rest = above ++ .list a :: below) :
    g.sources a ⊆ s.order ++ above.map Task.node := by
  rcases List.append_eq_append_iff.1 hstack with ⟨mid, rfl, hmid⟩ | ⟨mid, hvisits, hmid⟩
  · rcases List.cons_eq_append_iff.1 hmid with ⟨rfl, hcons⟩ | ⟨mid, rfl, hrest⟩
    · -- the node itself: nothing but its sources is above it
      cases hcons
      simp [Function.comp_def, Task.node]
    · -- a node below: it was ready before, when the visit was in the place of all that is new
      intro source hs
      have hready := h.ready (.visit id :: mid) a below (by simp [hrest]) hs
      simp only [List.map_cons, List.map_append, List.mem_append, List.mem_cons, Task.node]
        at hready ⊢
      tauto
  · rcases List.cons_eq_append_iff.1 hmid with ⟨rfl, hcons⟩ | ⟨mid, rfl, -⟩
    · cases hcons
      rw [List.append_nil] at hvisits
      simp [← hvisits, Function.comp_def, Task.node]
    · -- what is above the node are visits, and those list nothing
      have hmem : Task.list a ∈ (g.sources id).map .visit := by simp [hvisits]
      simp at hmem

theorem visit (h : Walking g roots unseen (.visit id :: rest) s) (hg : g.WellFormed) {n : Node}
    (hn : g.node? id = some n) (hwired : n.Wired) (hmem : id ∈ unseen) :
    Walking g roots (unseen.erase id) (n.sources.map .visit ++ .list id :: rest)
      { s with uses := n.sources.foldl .bump s.uses } := by
  have hsources : g.sources id = n.sources := g.sources_of_node? hn
  have hwire : ∀ source ∈ n.sources, g.Wire id source := fun _ hs => g.wire_iff.2 ⟨n, hn, hs⟩
  have hgen : ∀ source ∈ n.sources, source.generation = 1 := by
    intro source hs
    obtain ⟨m, hm⟩ := Option.isSome_iff_exists.1 (hg.contains_source (hwire source hs))
    exact g.generation_of_node? hm
  obtain ⟨habove, hnested⟩ := List.pairwise_cons.1 h.nested
  obtain ⟨r, hr, hpath⟩ := h.reached id (by simp [Task.node])
  refine ⟨?_, ?_, ?_, ?_, ?_, h.sorted, ?_, h.generation.foldl_bump hgen, ?_⟩
  · -- the node leaves those not visited and joins those that wait
    have hperm : (unseen.erase id ++ (s.order ++ id :: pending rest)).Perm
        (id :: unseen.erase id ++ (s.order ++ pending rest)) :=
      ((List.perm_middle.append_left _).trans List.perm_middle)
    simpa using hperm.trans (((List.perm_cons_erase hmem).symm.append_right _).trans h.partition)
  · intro a ha
    simp only [pending_visits, pending_list, List.mem_append, List.mem_cons] at ha
    rcases ha with ha | rfl | ha
    · exact h.wired a (List.mem_append_left _ ha)
    · exact ⟨n, hn, hwired⟩
    · exact h.wired a (List.mem_append_right _ ha)
  · intro a ha
    simp only [List.map_append, List.map_map, List.map_cons, List.mem_append, List.mem_map,
      List.mem_cons, Function.comp_apply, Task.node] at ha
    rcases ha with ha | ⟨source, hs, rfl⟩ | rfl | ha
    · exact h.reached a (List.mem_append_left _ ha)
    · exact ⟨r, hr, hpath.tail (hwire source hs)⟩
    · exact ⟨r, hr, hpath⟩
    · exact h.reached a (List.mem_append_right _ (List.mem_cons_of_mem _ (List.mem_map.2 ha)))
  · intro a ha
    have hrooted := h.rooted a ha
    simp only [List.map_cons, List.map_append, List.mem_append, List.mem_cons, Task.node]
      at hrooted ⊢
    tauto
  · rw [List.pairwise_append, List.pairwise_cons, List.pairwise_map]
    refine ⟨List.pairwise_of_forall (fun _ _ a ha => nomatch ha), ⟨habove, hnested⟩, ?_⟩
    -- whatever waits below depends on the node, and so on its sources
    intro t ht below hbelow a ha
    obtain ⟨source, hs, rfl⟩ := List.mem_map.1 ht
    rcases List.mem_cons.1 hbelow with rfl | hbelow
    · cases ha
      exact .single (hwire source hs)
    · exact .tail (habove below hbelow a ha) (hwire source hs)
  · intro above a below hstack
    rw [← hsources] at hstack
    exact h.ready_visit hstack
  · intro a
    rw [Uses.count_foldl_bump h.generation hgen, h.counted]
    simp only [pending_visit, pending_visits, pending_list, List.flatMap_append,
      List.flatMap_cons, List.count_append, hsources]
    omega

theorem initial : Walking g [] g.ids [] {} where
  partition := by simp
  wired := by simp
  reached := by simp
  rooted := by simp
  nested := .nil
  sorted := by simp
  ready := by simp
  generation := Uses.firstGeneration_empty
  counted := by simp [Uses.count]

theorem addRoot {root : NodeId} (h : Walking g roots unseen [] s)
    (hroot : g.contains root = true) :
    Walking g (roots ++ [root]) unseen [.visit root] { s with uses := s.uses.bump root } := by
  obtain ⟨n, hn⟩ := Option.isSome_iff_exists.1 hroot
  have hgen := g.generation_of_node? hn
  refine ⟨h.partition, h.wired, fun a ha => ?_, fun r hr => ?_, by simp, h.sorted, ?_,
    h.generation.bump hgen, fun a => ?_⟩
  · simp only [List.map_cons, List.map_nil, List.mem_append, List.mem_singleton, Task.node] at ha
    rcases ha with ha | rfl
    · obtain ⟨r, hr, hpath⟩ := h.reached a (List.mem_append_left _ ha)
      exact ⟨r, List.mem_append_left _ hr, hpath⟩
    · exact ⟨a, by simp, .refl _⟩
  · rcases List.mem_append.1 hr with hr | hr
    · have := h.rooted r hr
      simp only [List.map_nil, List.append_nil] at this
      exact List.mem_append_left _ this
    · exact List.mem_append_right _ (by simpa [Task.node] using hr)
  · intro above a below hstack
    rcases List.cons_eq_append_iff.1 hstack with ⟨rfl, hcons⟩ | ⟨above, rfl, hnil⟩
    · cases hcons
    · simp at hnil
  · rw [Uses.count_bump h.generation hgen, h.counted]
    simp only [pending_nil, pending_visit, List.count_append]
    omega

/-- A walk that is done leaves a sound schedule. -/
theorem sound (h : Walking g roots unseen [] s) : s.Sound g roots where
  nodup := by
    have hnd := h.partition.nodup_iff.2 g.nodup_ids
    simpa using (List.nodup_append.1 hnd).2.1
  mem_iff id := by
    refine ⟨fun hid => h.reached id (List.mem_append_left _ hid), ?_⟩
    rintro ⟨r, hr, hpath⟩
    refine hpath.mem_of_closed (fun a ha source hs => ?_) (by simpa using h.rooted r hr)
    obtain ⟨done, rest, horder⟩ := List.append_of_mem ha
    rw [horder]
    exact List.mem_append_left _ (h.sorted done a rest horder hs)
  wired id hid := h.wired id (List.mem_append_left _ hid)
  sorted := h.sorted
  uses := by simpa using h.counted

end Walking

theorem Sound.uses_pos (h : s.Sound g roots) (hid : id ∈ s.order) : 1 ≤ s.uses.count id := by
  rw [h.uses]
  obtain ⟨r, hr, hpath⟩ := (h.mem_iff id).1 hid
  rcases ReflTransGen.cases_tail hpath with rfl | ⟨user, huser, hwire⟩
  · exact Nat.le_add_right_of_le (List.count_pos_iff.2 hr)
  · have hmem : id ∈ s.order.flatMap g.sources :=
      List.mem_flatMap.2 ⟨user, (h.mem_iff user).2 ⟨r, hr, huser⟩, hwire⟩
    exact Nat.le_add_left_of_le (List.count_pos_iff.2 hmem)

/-- The node `id` is missing or has an input without a wire, and the error says so. -/
def Blocks (g : Graph) (id : NodeId) (e : Error) : Prop :=
  g.node? id = none ∧ e = .unknownNode id ∨
    ∃ n slot, g.node? id = some n ∧ n.lastUnwired? = some slot ∧
      e = .unboundInput (g.label id) slot

theorem Blocks.not_isWired {e : Error} (h : Blocks g id e) : ¬ g.IsWired id := by
  rintro ⟨n, hn, hwired⟩
  rcases h with ⟨hnone, -⟩ | ⟨m, slot, hm, hslot, -⟩
  · simp [hn] at hnone
  · cases hn.symm.trans hm
    rw [Node.lastUnwired?_eq_none_iff.2 hwired] at hslot
    cases hslot

/-- A walk does all its tasks, or it stops at a node that the roots need and that blocks it. -/
theorem Walking.walk_result (hg : g.WellFormed) {stack : List Task}
    (h : Walking g roots unseen stack s) :
    (∀ p, walk g unseen stack s = .ok p → Walking g roots p.unseen [] p.schedule) ∧
      ∀ e, walk g unseen stack s = .error e →
        ∃ r ∈ roots, ∃ id, g.Reaches r id ∧ Blocks g id e := by
  fun_induction walk g unseen stack s with
  | case1 unseen s =>
    refine ⟨fun p hp => ?_, fun _ he => nomatch he⟩
    cases hp
    exact h
  | case2 unseen s id rest ih => exact ih h.list
  | case3 unseen s id rest hnone =>
    obtain ⟨r, hr, hpath⟩ := h.reached id (by simp [Task.node])
    refine ⟨nofun, fun e he => ?_⟩
    cases he
    exact ⟨r, hr, id, hpath, .inl ⟨hnone, rfl⟩⟩
  | case4 unseen s id rest n hn hmem slot hslot =>
    obtain ⟨r, hr, hpath⟩ := h.reached id (by simp [Task.node])
    refine ⟨nofun, fun e he => ?_⟩
    cases he
    exact ⟨r, hr, id, hpath, .inr ⟨n, slot, hn, hslot, rfl⟩⟩
  | case5 unseen s id rest n hn hmem hwired ih =>
    exact ih (h.visit hg hn (Node.lastUnwired?_eq_none_iff.1 hwired) hmem)
  | case6 unseen s id rest n hn hseen ih =>
    exact ih (h.skip hg.acyclic (g.mem_ids.2 (by simp [Graph.contains, hn])) hseen)

theorem Walking.addRoot_result (hg : g.WellFormed) {p : Progress}
    (h : Walking g roots p.unseen [] p.schedule) (root : NodeId) :
    (∀ p', Schedule.addRoot g p root = .ok p' →
        Walking g (roots ++ [root]) p'.unseen [] p'.schedule) ∧
      ∀ e, Schedule.addRoot g p root = .error e →
        ∃ r ∈ roots ++ [root], ∃ id, g.Reaches r id ∧ Blocks g id e := by
  unfold Schedule.addRoot
  cases hn : g.node? root with
  | none =>
    rw [walk_visit_missing hn]
    refine ⟨nofun, fun e he => ?_⟩
    cases he
    exact ⟨root, by simp, root, .refl _, .inl ⟨hn, rfl⟩⟩
  | some n => exact (h.addRoot (by simp [Graph.contains, hn])).walk_result hg

/-- The schedule of roots is sound. -/
theorem sound_of_ofRoots (hg : g.WellFormed) (h : ofRoots g roots = .ok s) : s.Sound g roots := by
  obtain ⟨p, hp, rfl⟩ := Except.map_eq_ok.1 h
  refine (Except.foldlM_induction (P := fun done p => Walking g done p.unseen [] p.schedule) hp
    .initial fun done root _ _ p p' hdone hroot => ?_).sound
  exact (hdone.addRoot_result hg root).1 p' hroot

/-- Roots without a schedule need a node that blocks it. -/
theorem exists_blocks_of_ofRoots (hg : g.WellFormed) {e : Error} (h : ofRoots g roots = .error e) :
    ∃ r ∈ roots, ∃ id, g.Reaches r id ∧ Blocks g id e := by
  obtain ⟨done, root, rest, p, hroots, hdone, hroot⟩ := Except.exists_step_of_foldlM_error
    (P := fun done p => Walking g done p.unseen [] p.schedule) (Except.map_eq_error.1 h) .initial
    fun done root _ _ p p' hdone => (hdone.addRoot_result hg root).1 p'
  obtain ⟨r, hr, id, hpath, hblocks⟩ := (hdone.addRoot_result hg root).2 e hroot
  refine ⟨r, ?_, id, hpath, hblocks⟩
  rw [hroots]
  simp only [List.mem_append, List.mem_cons, List.not_mem_nil, or_false] at hr ⊢
  tauto

/-- Roots have a schedule exactly if all that they need is there and wired. -/
theorem exists_ofRoots_iff (hg : g.WellFormed) :
    (∃ s, ofRoots g roots = .ok s) ↔ ∀ r ∈ roots, ∀ id, g.Reaches r id → g.IsWired id := by
  constructor
  · rintro ⟨s, hs⟩ r hr id hpath
    have hsound := sound_of_ofRoots hg hs
    exact hsound.wired id ((hsound.mem_iff id).2 ⟨r, hr, hpath⟩)
  · intro h
    cases hres : ofRoots g roots with
    | ok s => exact ⟨s, rfl⟩
    | error e =>
      obtain ⟨r, hr, id, hpath, hblocks⟩ := exists_blocks_of_ofRoots hg hres
      exact absurd (h r hr id hpath) hblocks.not_isWired

end Schedule

end ShaderFlow
