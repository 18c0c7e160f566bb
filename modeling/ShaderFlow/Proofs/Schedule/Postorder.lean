import ShaderFlow.Proofs.Schedule.Walk

/-!
# The order of a schedule as a recursion

A schedule is made with a stack of tasks, on which visits of one node may wait many times. The order
that comes out is the one of a plain recursion: visit the roots one after the other, and at a node
that was not met before, visit its sources from the first slot on and then list the node
(`Trail.visit`, `postorder`). The recursion needs no stack, but its end is not plain: a call starts
from what the calls before it have marked. It ends because no call has more unmarked nodes at its
end than at its start, and the type of its result says so.

* `Trail.Agrees` relates what the recursion has done to a state of the walk with the stack, and
  `Simulates` says that visits on top of a stack are dealt with as the recursion deals with them;
* `ofRoots_order` says that the two give the same order or the same error.
-/

namespace ShaderFlow

namespace Node

/-- The inputs that are not wired, by slot. -/
def unwiredSlots (n : Node) : List Nat :=
  (List.range n.inputs.length).filter fun slot => n.inputs[slot]? = some none

theorem mem_unwiredSlots {n : Node} {slot : Nat} :
    slot ∈ n.unwiredSlots ↔ n.inputs[slot]? = some none := by
  simp only [unwiredSlots, List.mem_filter, List.mem_range, decide_eq_true_eq,
    and_iff_right_iff_imp]
  exact fun h => (List.getElem?_eq_some_iff.1 h).1

theorem lastUnwired?_eq_max? (n : Node) : n.lastUnwired? = n.unwiredSlots.max? := by
  cases h : n.lastUnwired? with
  | none =>
    have hnone : n.unwiredSlots = [] := by
      refine List.eq_nil_iff_forall_not_mem.2 fun slot hslot => ?_
      have hmem := List.mem_of_getElem? (mem_unwiredSlots.1 hslot)
      exact Bool.false_ne_true (lastUnwired?_eq_none_iff.1 h none hmem)
    rw [hnone, List.max?_nil]
  | some slot =>
    obtain ⟨hslot, hlater⟩ := lastUnwired?_eq_some h
    refine (List.max?_eq_some_iff.2 ⟨mem_unwiredSlots.2 hslot, fun other hother => ?_⟩).symm
    by_contra hlt
    exact hlater other (Nat.lt_of_not_le hlt) (mem_unwiredSlots.1 hother)

end Node

namespace Schedule

/-! ### The recursion -/

/-- What the recursion has done. -/
structure Trail where
  /-- The nodes that have been visited. -/
  marked : List NodeId := []
  /-- The nodes that have been listed, in order. -/
  order : List NodeId := []

namespace Trail

variable (g : Graph) (t : Trail)

/-- Marks a node as visited. -/
def mark (id : NodeId) : Trail := { t with marked := id :: t.marked }

/-- Lists a node. -/
def list (id : NodeId) : Trail := { t with order := t.order ++ [id] }

/-- The number of nodes of the graph that are not marked. -/
def left : Nat := g.ids.countP (· ∉ t.marked)

variable {g t} in
theorem left_mark_lt {id : NodeId} (hid : id ∈ g.ids) (hmarked : id ∉ t.marked) :
    (t.mark id).left g < t.left g := by
  have hle : ∀ ids : List NodeId,
      ids.countP (· ∉ (t.mark id).marked) ≤ ids.countP (· ∉ t.marked) := by
    refine fun ids => List.countP_mono_left fun a _ ha => ?_
    simp only [mark, List.mem_cons, not_or, Bool.decide_and, Bool.and_eq_true] at ha
    exact ha.2
  obtain ⟨before, after, hids⟩ := List.append_of_mem hid
  have hself : id ∈ (t.mark id).marked := List.mem_cons_self
  have hbefore := hle before
  have hafter := hle after
  simp only [left, hids, List.countP_append, List.countP_cons, hself, hmarked, not_true_eq_false,
    not_false_eq_true, decide_true, decide_false, Bool.false_eq_true, ↓reduceIte]
  omega

mutual

/-- Visits a node. If it is not marked, it is marked, its sources are visited from the first slot
on, and it is listed. A node that is missing or that has an input without a source is an error. -/
def visit (t : Trail) (id : NodeId) : Except Error { t' : Trail // t'.left g ≤ t.left g } :=
  if hmarked : id ∈ t.marked then .ok ⟨t, Nat.le_refl _⟩
  else
    match hn : g.node? id with
    | none => .error (.unknownNode id)
    | some n =>
      match n.unwiredSlots.max? with
      | some slot => .error (.unboundInput (g.label id) slot)
      | none =>
        have hlt : (t.mark id).left g < t.left g :=
          left_mark_lt (g.mem_ids.2 (by simp [Graph.contains, hn])) hmarked
        (visitAll (t.mark id) n.sources).map fun t' =>
          ⟨t'.1.list id, Nat.le_of_lt (Nat.lt_of_le_of_lt t'.2 hlt)⟩
termination_by (t.left g, 0)

/-- Visits nodes one after the other. -/
def visitAll (t : Trail) (ids : List NodeId) :
    Except Error { t' : Trail // t'.left g ≤ t.left g } :=
  match ids with
  | [] => .ok ⟨t, Nat.le_refl _⟩
  | id :: rest =>
    (visit t id).bind fun t₁ =>
      (visitAll t₁.1 rest).map fun t₂ => ⟨t₂.1, Nat.le_trans t₂.2 t₁.2⟩
termination_by (t.left g, ids.length + 1)
decreasing_by
  · exact Prod.Lex.right _ (Nat.succ_pos _)
  · exact Prod.Lex.right' _ t₁.2 (Nat.lt_succ_self _)

end

/-! What a call does to the trail, without what its type says of the nodes that are left. -/

variable {g t}

theorem visit_of_marked {id : NodeId} (hid : id ∈ t.marked) :
    (visit g t id).map (·.1) = .ok t := by
  rw [visit, dif_pos hid]
  rfl

theorem visit_of_missing {id : NodeId} (hid : id ∉ t.marked) (hn : g.node? id = none) :
    (visit g t id).map (·.1) = .error (.unknownNode id) := by
  rw [visit, dif_neg hid]
  split
  next => rfl
  next n hn' => cases hn.symm.trans hn'

theorem visit_of_unwired {id : NodeId} {n : Node} {slot : Nat} (hid : id ∉ t.marked)
    (hn : g.node? id = some n) (hslot : n.unwiredSlots.max? = some slot) :
    (visit g t id).map (·.1) = .error (.unboundInput (g.label id) slot) := by
  rw [visit, dif_neg hid]
  split
  next hn' => cases hn.symm.trans hn'
  next n' hn' =>
    cases hn.symm.trans hn'
    simp only [hslot]
    rfl

theorem visit_of_wired {id : NodeId} {n : Node} (hid : id ∉ t.marked)
    (hn : g.node? id = some n) (hwired : n.unwiredSlots.max? = none) :
    (visit g t id).map (·.1) =
      ((visitAll g (t.mark id) n.sources).map (·.1)).map (·.list id) := by
  rw [visit, dif_neg hid]
  split
  next hn' => cases hn.symm.trans hn'
  next n' hn' =>
    cases hn.symm.trans hn'
    simp only [hwired]
    cases visitAll g (t.mark id) n.sources <;> rfl

theorem visitAll_nil : (visitAll g t []).map (·.1) = .ok t := by
  rw [visitAll]
  rfl

theorem visitAll_cons {id : NodeId} {ids : List NodeId} :
    (visitAll g t (id :: ids)).map (·.1) =
      ((visit g t id).map (·.1)).bind fun t₁ => (visitAll g t₁ ids).map (·.1) := by
  rw [visitAll]
  cases visit g t id with
  | error e => rfl
  | ok t₁ =>
    simp only [Except.bind, Except.map]
    cases visitAll g t₁.1 ids <;> rfl

end Trail

/-- The order of the nodes that the roots need, or why there is none, by recursion. -/
def postorder (g : Graph) (roots : List NodeId) : Except Error (List NodeId) :=
  (Trail.visitAll g {} roots).map (·.1.order)

/-! ### The walk with a stack -/

variable {g : Graph} {t t' : Trail} {unseen : List NodeId} {rest : List Task} {s : Schedule}
  {id : NodeId} {n : Node}

/-- A state of the walk with a stack in which the same nodes are visited and listed. -/
structure Trail.Agrees (g : Graph) (t : Trail) (unseen : List NodeId) (s : Schedule) : Prop where
  /-- No node is left to visit twice. -/
  nodup : unseen.Nodup
  /-- The nodes that are left to visit are those of the graph that are not marked. -/
  unseen : ∀ id, id ∈ unseen ↔ id ∈ g.ids ∧ id ∉ t.marked
  /-- The nodes that are marked are in the graph. -/
  marked : ∀ id ∈ t.marked, id ∈ g.ids
  /-- The same nodes are listed. -/
  order : s.order = t.order

namespace Trail.Agrees

theorem initial : Agrees g {} g.ids {} where
  nodup := g.nodup_ids
  unseen := by simp
  marked := by simp
  order := rfl

theorem of_uses (h : t.Agrees g unseen s) (uses : Uses) : t.Agrees g unseen { s with uses } :=
  ⟨h.nodup, h.unseen, h.marked, h.order⟩

theorem list (h : t.Agrees g unseen s) (id : NodeId) :
    (t.list id).Agrees g unseen { s with order := s.order ++ [id] } :=
  ⟨h.nodup, h.unseen, h.marked, congrArg (· ++ [id]) h.order⟩

theorem mark (h : t.Agrees g unseen s) (hid : id ∈ g.ids) :
    (t.mark id).Agrees g (unseen.erase id) s where
  nodup := h.nodup.erase id
  unseen a := by
    rw [h.nodup.mem_erase_iff, h.unseen, Trail.mark, List.mem_cons, not_or]
    tauto
  marked := List.forall_mem_cons.2 ⟨hid, h.marked⟩
  order := h.order

end Trail.Agrees

theorem mem_ids_of_node? (hn : g.node? id = some n) : id ∈ g.ids :=
  g.mem_ids.2 (by simp [Graph.contains, hn])

/-- From a state that agrees with a trail, the walk deals with visits on top of its stack as the
result says: it stops with the error, or it comes to the tasks below in a state that agrees with the
new trail. -/
def Simulates (g : Graph) (t : Trail) (visits : List NodeId) (result : Except Error Trail) : Prop :=
  ∀ unseen rest s, t.Agrees g unseen s →
    (∀ e, result = .error e → walk g unseen (visits.map .visit ++ rest) s = .error e) ∧
      ∀ t', result = .ok t' → ∃ unseen' s', t'.Agrees g unseen' s' ∧
        walk g unseen (visits.map .visit ++ rest) s = walk g unseen' rest s'

namespace Simulates

theorem nil (t : Trail) : Simulates g t [] (.ok t) := by
  refine fun unseen rest s h => ⟨fun _ he => (nomatch he), fun t' ht' => ?_⟩
  cases ht'
  exact ⟨unseen, s, h, rfl⟩

theorem marked (hid : id ∈ t.marked) : Simulates g t [id] (.ok t) := by
  refine fun unseen rest s h => ⟨fun _ he => (nomatch he), fun t' ht' => ?_⟩
  cases ht'
  refine ⟨unseen, s, h, ?_⟩
  obtain ⟨n, hn⟩ := Option.isSome_iff_exists.1 (g.mem_ids.1 (h.marked id hid))
  have hseen : id ∉ unseen := fun hmem => ((h.unseen id).1 hmem).2 hid
  rw [List.map_singleton, List.singleton_append, walk_visit_seen hn hseen]

theorem missing (hn : g.node? id = none) : Simulates g t [id] (.error (.unknownNode id)) := by
  refine fun unseen rest s h => ⟨fun e he => ?_, nofun⟩
  cases he
  rw [List.map_singleton, List.singleton_append, walk_visit_missing hn]

theorem unwired (hid : id ∉ t.marked) (hn : g.node? id = some n) {slot : Nat}
    (hslot : n.unwiredSlots.max? = some slot) :
    Simulates g t [id] (.error (.unboundInput (g.label id) slot)) := by
  refine fun unseen rest s h => ⟨fun e he => ?_, nofun⟩
  cases he
  have hunseen : id ∈ unseen := (h.unseen id).2 ⟨mem_ids_of_node? hn, hid⟩
  rw [List.map_singleton, List.singleton_append,
    walk_visit_unwired hn hunseen (n.lastUnwired?_eq_max?.trans hslot)]

/-- A node that is visited for the first time: its sources are put on the stack, and below them the
task to list it, where the recursion has the rest of its call. -/
theorem expand {result : Except Error Trail} (hid : id ∉ t.marked) (hn : g.node? id = some n)
    (hwired : n.unwiredSlots.max? = none) (h : Simulates g (t.mark id) n.sources result) :
    Simulates g t [id] (result.map (·.list id)) := by
  intro unseen rest s hagrees
  have hunseen : id ∈ unseen := (hagrees.unseen id).2 ⟨mem_ids_of_node? hn, hid⟩
  obtain ⟨herror, hok⟩ := h (unseen.erase id) (.list id :: rest) _
    ((hagrees.mark (mem_ids_of_node? hn)).of_uses (n.sources.foldl .bump s.uses))
  rw [List.map_singleton, List.singleton_append,
    walk_visit_wired hn hunseen (n.lastUnwired?_eq_max?.trans hwired)]
  refine ⟨fun e he => herror e (Except.map_eq_error.1 he), fun t' ht' => ?_⟩
  obtain ⟨t₁, ht₁, rfl⟩ := Except.map_eq_ok.1 ht'
  obtain ⟨unseen', s', hagrees', heq⟩ := hok t₁ ht₁
  refine ⟨unseen', _, hagrees'.list id, ?_⟩
  rw [heq, walk]

/-- Visits are dealt with one after the other. -/
theorem cons {ids : List NodeId} {first : Except Error Trail} {later : Trail → Except Error Trail}
    (h : Simulates g t [id] first)
    (hlater : ∀ t₁, first = .ok t₁ → Simulates g t₁ ids (later t₁)) :
    Simulates g t (id :: ids) (first.bind later) := by
  intro unseen rest s hagrees
  obtain ⟨herror, hok⟩ := h unseen (ids.map .visit ++ rest) s hagrees
  cases first with
  | error e =>
    refine ⟨fun e' he' => ?_, nofun⟩
    cases he'
    exact herror e rfl
  | ok t₁ =>
    obtain ⟨unseen₁, s₁, hagrees₁, heq⟩ := hok t₁ rfl
    rw [show walk g unseen ((id :: ids).map .visit ++ rest) s =
      walk g unseen₁ (ids.map .visit ++ rest) s₁ from heq]
    exact hlater t₁ rfl unseen₁ rest s₁ hagrees₁

end Simulates

/-- The walk deals with visits as the recursion does. -/
theorem simulates_visit_and_visitAll (g : Graph) :
    (∀ t id, Simulates g t [id] ((Trail.visit g t id).map (·.1))) ∧
      ∀ t ids, Simulates g t ids ((Trail.visitAll g t ids).map (·.1)) := by
  -- by induction along the calls of the recursion, which ends
  refine Trail.visit.mutual_induct g
    (fun t id => Simulates g t [id] ((Trail.visit g t id).map (·.1)))
    (fun t ids => Simulates g t ids ((Trail.visitAll g t ids).map (·.1))) ?_ ?_ ?_ ?_ ?_ ?_
  · intro t id hid
    rw [Trail.visit_of_marked hid]
    exact .marked hid
  · intro t id hid hn
    rw [Trail.visit_of_missing hid hn]
    exact .missing hn
  · intro t id hid n hn slot hslot
    rw [Trail.visit_of_unwired hid hn hslot]
    exact .unwired hid hn hslot
  · intro t id hid n hn hwired _ ih
    rw [Trail.visit_of_wired hid hn hwired]
    exact .expand hid hn hwired ih
  · intro t
    rw [Trail.visitAll_nil]
    exact .nil t
  · intro t id ids ihvisit ihrest
    rw [Trail.visitAll_cons]
    refine .cons ihvisit fun t₁ ht₁ => ?_
    obtain ⟨t₂, -, rfl⟩ := Except.map_eq_ok.1 ht₁
    exact ihrest t₂

/-- One more root is scheduled as the recursion visits it. -/
theorem addRoot_eq_visit {p : Progress} (h : t.Agrees g p.unseen p.schedule) (root : NodeId) :
    (∀ e, (Trail.visit g t root).map (·.1) = .error e → addRoot g p root = .error e) ∧
      ∀ t', (Trail.visit g t root).map (·.1) = .ok t' →
        ∃ p', addRoot g p root = .ok p' ∧ t'.Agrees g p'.unseen p'.schedule := by
  obtain ⟨herror, hok⟩ := (simulates_visit_and_visitAll g).1 t root p.unseen [] _
    (h.of_uses (p.schedule.uses.bump root))
  refine ⟨herror, fun t' ht' => ?_⟩
  obtain ⟨unseen', s', hagrees, heq⟩ := hok t' ht'
  refine ⟨⟨unseen', s'⟩, ?_, hagrees⟩
  rw [addRoot]
  refine heq.trans ?_
  rw [walk]

theorem foldlM_addRoot_order {p : Progress} (h : t.Agrees g p.unseen p.schedule)
    (roots : List NodeId) :
    (roots.foldlM (addRoot g) p).map (·.schedule.order) =
      ((Trail.visitAll g t roots).map (·.1)).map (·.order) := by
  induction roots generalizing t p with
  | nil =>
    rw [Trail.visitAll_nil]
    exact congrArg Except.ok h.order
  | cons root roots ih =>
    obtain ⟨herror, hok⟩ := addRoot_eq_visit h root
    rw [Trail.visitAll_cons, List.foldlM_cons]
    cases hvisit : (Trail.visit g t root).map (·.1) with
    | error e =>
      rw [herror e hvisit]
      rfl
    | ok t₁ =>
      obtain ⟨p₁, hp₁, hagrees⟩ := hok t₁ hvisit
      rw [hp₁]
      exact ih hagrees

/-- **The order is that of a recursion.** The walk with a stack gives the same order, or the same
error, as visiting the roots one after the other and each node's sources before the node. -/
theorem ofRoots_order (g : Graph) (roots : List NodeId) :
    (ofRoots g roots).map (·.order) = postorder g roots := by
  calc (ofRoots g roots).map (·.order)
      = (roots.foldlM (addRoot g) ⟨g.ids, {}⟩).map (·.schedule.order) := by
        rw [ofRoots]
        cases roots.foldlM (addRoot g) ⟨g.ids, {}⟩ <;> rfl
    _ = ((Trail.visitAll g {} roots).map (·.1)).map (·.order) :=
        foldlM_addRoot_order (p := ⟨g.ids, {}⟩) .initial roots
    _ = postorder g roots := by
        rw [postorder]
        cases Trail.visitAll g {} roots <;> rfl

end Schedule

end ShaderFlow
