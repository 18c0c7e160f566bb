import Mathlib.Data.Set.Card
import ShaderFlow.Proofs.Schedule.Order

/-!
# Uses and the slots that they are for

A use is counted when a root is scheduled or when a source is put on the stack, while nodes are
listed when they come off it. In the end the two agree: exactly the listed nodes have an entry, and
it is the number of mentions as a root plus the number of slots of listed nodes that are wired to
the node (`Schedule.uses_exact`). A slot is known by its node and its number, so a node that many
paths lead to is counted once.

No entry is ever zero (`Schedule.positive_of_ofRoots`), so a node has one exactly if its count says
that it is used.
-/

namespace ShaderFlow

/-- The entry of a node, if it has one. -/
def Uses.entry? (u : Uses) (id : NodeId) : Option Nat := u.entries.lookup id

/-- The slots of some nodes that are wired to a node, each with the node that it belongs to. -/
def Graph.readers (g : Graph) (nodes : List NodeId) (id : NodeId) : Set (NodeId × Nat) :=
  { p | p.1 ∈ nodes ∧ g.input? p.1 p.2 = some id }

/-! ### Slots as a set -/

/-- An element occurs in a list as often as there are places for it. -/
theorem encard_places {α : Type} [BEq α] [LawfulBEq α] (l : List α) (a : α) :
    { i : Nat | l[i]? = some a }.encard = l.count a := by
  induction l with
  | nil => simp
  | cons b l ih =>
    have hplaces : { i : Nat | (b :: l)[i]? = some a } =
        { i : Nat | i = 0 ∧ b = a } ∪ Nat.succ '' { i : Nat | l[i]? = some a } := by
      ext i
      cases i <;> simp
    have hdisjoint : Disjoint { i : Nat | i = 0 ∧ b = a }
        (Nat.succ '' { i : Nat | l[i]? = some a }) := by
      rw [Set.disjoint_left]
      rintro _ ⟨rfl, -⟩ ⟨i, -, hi⟩
      exact Nat.succ_ne_zero i hi
    rw [hplaces, Set.encard_union_eq hdisjoint, Nat.succ_injective.encard_image, ih]
    by_cases hb : b = a
    · simp [hb, add_comm]
    · simp [hb]

theorem Node.count_sources (n : Node) (id : NodeId) :
    { slot | n.input? slot = some id }.encard = n.sources.count id := by
  have hslots : { slot | n.input? slot = some id } = { i | n.inputs[i]? = some (some id) } := by
    ext i
    simp [Node.input?, Option.join_eq_some_iff]
  have hcount : n.sources.count id = n.inputs.count (some id) := by
    rw [Node.sources, List.count_filterMap]
    exact List.countP_congr (by simp)
  rw [hslots, encard_places, hcount]

namespace Graph

variable {g : Graph}

theorem count_sources (a id : NodeId) :
    { slot | g.input? a slot = some id }.encard = (g.sources a).count id := by
  cases hn : g.node? a with
  | none => simp [input?, sources, hn]
  | some n => simpa [input?, sources, hn] using n.count_sources id

/-- The sources of different nodes name a node as often as slots of these are wired to it. -/
theorem encard_readers {nodes : List NodeId} (h : nodes.Nodup) (id : NodeId) :
    (g.readers nodes id).encard = (nodes.flatMap g.sources).count id := by
  induction nodes with
  | nil => simp [readers]
  | cons a nodes ih =>
    obtain ⟨ha, hnodes⟩ := List.nodup_cons.1 h
    have hreaders : g.readers (a :: nodes) id =
        Prod.mk a '' { slot | g.input? a slot = some id } ∪ g.readers nodes id := by
      ext ⟨b, slot⟩
      simp only [readers, List.mem_cons, Set.mem_ofPred_eq, Set.mem_union, Set.mem_image,
        Prod.mk.injEq]
      constructor
      · rintro ⟨rfl | hb, hslot⟩
        · exact .inl ⟨slot, hslot, rfl, rfl⟩
        · exact .inr ⟨hb, hslot⟩
      · rintro (⟨_, hslot, rfl, rfl⟩ | ⟨hb, hslot⟩)
        · exact ⟨.inl rfl, hslot⟩
        · exact ⟨.inr hb, hslot⟩
    have hdisjoint : Disjoint (Prod.mk a '' { slot | g.input? a slot = some id })
        (g.readers nodes id) := by
      rw [Set.disjoint_left]
      rintro _ ⟨slot, -, rfl⟩ ⟨hmem, -⟩
      exact ha hmem
    rw [hreaders, Set.encard_union_eq hdisjoint, (Prod.mk_right_injective a).encard_image,
      count_sources, ih hnodes, List.flatMap_cons, List.count_append, Nat.cast_add]

end Graph

/-! ### Entries -/

namespace Uses

variable {u : Uses} {id : NodeId}

/-- No entry is zero. -/
def Positive (u : Uses) : Prop := ∀ e ∈ u.entries, 0 < e.2

theorem Positive.bump (h : u.Positive) (id : NodeId) : (u.bump id).Positive := by
  intro e he
  rcases mem_insertEntry he with rfl | he
  · exact Nat.succ_pos _
  · exact h e he

theorem Positive.foldl_bump (h : u.Positive) (ids : List NodeId) :
    (ids.foldl Uses.bump u).Positive := by
  induction ids generalizing u with
  | nil => exact h
  | cons id ids ih => exact ih (h.bump id)

theorem Positive.entry?_eq_some_iff (h : u.Positive) {n : Nat} :
    u.entry? id = some n ↔ 0 < n ∧ u.count id = n := by
  unfold entry? count
  cases hentry : u.entries.lookup id with
  | none => simp; omega
  | some m =>
    obtain ⟨before, after, hsplit, -⟩ := List.lookup_eq_some_iff.1 hentry
    have hpos : 0 < m := h (id, m) (by simp [hsplit])
    simp only [Option.some.injEq, Option.getD_some]
    exact ⟨fun heq => ⟨heq ▸ hpos, heq⟩, And.right⟩

end Uses

namespace Schedule

variable {g : Graph} {roots : List NodeId} {s : Schedule}

theorem positive_of_walk {unseen : List NodeId} {stack : List Task} {p : Progress}
    (h : walk g unseen stack s = .ok p) (hs : s.uses.Positive) : p.schedule.uses.Positive := by
  fun_induction walk g unseen stack s with
  | case1 unseen s =>
    cases h
    exact hs
  | case2 unseen s id rest ih => exact ih h hs
  | case3 | case4 => cases h
  | case5 unseen s id rest n hn hmem hwired ih => exact ih h (hs.foldl_bump n.sources)
  | case6 unseen s id rest n hn hseen ih => exact ih h hs

theorem positive_of_ofRoots (h : ofRoots g roots = .ok s) : s.uses.Positive := by
  obtain ⟨p, hp, rfl⟩ := Except.map_eq_ok.1 h
  refine Except.foldlM_induction (P := fun _ p => p.schedule.uses.Positive) hp
    (by simp [Uses.Positive]) fun _ root _ _ p p' hpos hroot => ?_
  exact positive_of_walk hroot (hpos.bump root)

/-- Exactly the scheduled nodes are used. -/
theorem Sound.uses_pos_iff (h : s.Sound g roots) {id : NodeId} :
    0 < s.uses.count id ↔ id ∈ s.order := by
  refine ⟨fun hpos => ?_, fun hid => h.uses_pos hid⟩
  rw [h.uses] at hpos
  rw [h.mem_iff]
  rcases Nat.add_pos_iff_pos_or_pos.1 hpos with hroot | hsource
  · exact ⟨id, List.count_pos_iff.1 hroot, .refl id⟩
  · obtain ⟨user, huser, hwire⟩ := List.mem_flatMap.1 (List.count_pos_iff.1 hsource)
    obtain ⟨r, hr, hpath⟩ := (h.mem_iff user).1 huser
    exact ⟨r, hr, hpath.tail hwire⟩

/-- **Uses are counted exactly.** In the schedule of roots in a graph that was built, a node has an
entry exactly if it is listed. The entry is the number of its mentions as a root plus the number of
slots of listed nodes that are wired to it. -/
theorem uses_exact (hg : g.Built) (h : ofRoots g roots = .ok s) (id : NodeId) :
    ((s.uses.entry? id).isSome = true ↔ id ∈ s.order) ∧
      ∀ n, s.uses.entry? id = some n →
        (n : ℕ∞) = roots.count id + (g.readers s.order id).encard := by
  have hsound := sound_of_ofRoots hg.wellFormed h
  have hpos := positive_of_ofRoots h
  constructor
  · rw [Option.isSome_iff_exists, ← hsound.uses_pos_iff]
    simp only [hpos.entry?_eq_some_iff, exists_eq_right']
  · intro n hn
    obtain ⟨-, rfl⟩ := hpos.entry?_eq_some_iff.1 hn
    rw [hsound.uses, Graph.encard_readers hsound.nodup, Nat.cast_add]

/-- The sums that are wired, in their order and with their uses. -/
def Ladder.plan : Schedule :=
  ⟨[.ofIndex 0, .ofIndex 1, .ofIndex 2], ⟨[(.ofIndex 0, 3), (.ofIndex 1, 2), (.ofIndex 2, 2)]⟩⟩

theorem Ladder.ofRoots_eq : ofRoots graph [.ofIndex 2, .ofIndex 1, .ofIndex 2] = .ok plan := by
  decide +kernel

/-- Three slots are wired to the number, two of them of one sum. The first sum is a root and is
wired to one slot. The sum that is not wired has no entry. -/
theorem uses_exact_ladder :
    (Ladder.graph.readers Ladder.plan.order (.ofIndex 0)).encard = 3 ∧
      1 + (Ladder.graph.readers Ladder.plan.order (.ofIndex 1)).encard = 2 ∧
      NodeId.ofIndex 3 ∉ Ladder.plan.order := by
  have h := uses_exact (g := Ladder.graph) (Graph.built_build _) Ladder.ofRoots_eq
  refine ⟨?_, ?_, ?_⟩
  · simpa using ((h (.ofIndex 0)).2 3 rfl).symm
  · exact ((h (.ofIndex 1)).2 2 rfl).symm
  · rw [← (h (.ofIndex 3)).1]
    decide

end Schedule

end ShaderFlow
