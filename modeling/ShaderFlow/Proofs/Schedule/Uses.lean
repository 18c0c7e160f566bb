import ShaderFlow.Proofs.Graph.WellFormed
import ShaderFlow.Schedule

/-!
# Counting uses

Entries are kept by slot, and an entry of an older generation would be dropped. All nodes of a
graph are of the first generation, so for them each count goes up by one for each use
(`Uses.count_foldl_bump`).
-/

namespace ShaderFlow

namespace Uses

variable {u : Uses} {id : NodeId}

/-- All counts are of nodes of the first generation. -/
def FirstGeneration (u : Uses) : Prop := ∀ e ∈ u.entries, e.1.generation = 1

theorem firstGeneration_empty : FirstGeneration {} := by
  simp [FirstGeneration]

theorem olderThan_eq_false {a b : NodeId} (ha : a.generation = 1) (hb : b.generation = 1) :
    a.olderThan b = false := by
  simp [NodeId.olderThan, ha, hb]

theorem lookup_insertEntry {entries : List (NodeId × Nat)} {count : Nat}
    (hgen : ∀ e ∈ entries, e.1.generation = 1) (hid : id.generation = 1) (x : NodeId) :
    (insertEntry id count entries).lookup x =
      if x = id then some count else entries.lookup x := by
  induction entries with
  | nil => simp [insertEntry, lookup_cons_ite]
  | cons e rest ih =>
    obtain ⟨a, n⟩ := e
    have ha : a.generation = 1 := hgen (a, n) List.mem_cons_self
    unfold insertEntry
    split
    · simp only [lookup_cons_ite]
    · split
      next heq =>
        -- one slot and one generation: the new entry takes the place of the old one
        have hida : id = a := NodeId.ext heq (hid.trans ha.symm)
        subst hida
        simp only [olderThan_eq_false hid hid, Bool.false_eq_true, ↓reduceIte, lookup_cons_ite]
        split_ifs <;> rfl
      next hne =>
        have hida : id ≠ a := fun h => hne (h ▸ rfl)
        simp only [lookup_cons_ite, ih fun e he => hgen e (List.mem_cons_of_mem _ he)]
        split_ifs with hxa hxid
        · exact absurd (hxid.symm.trans hxa) hida
        all_goals rfl

theorem mem_insertEntry {entries : List (NodeId × Nat)} {count : Nat} {e : NodeId × Nat}
    (h : e ∈ insertEntry id count entries) : e = (id, count) ∨ e ∈ entries := by
  induction entries with
  | nil => simpa [insertEntry] using h
  | cons a rest ih =>
    unfold insertEntry at h
    split at h
    · simpa using h
    · split at h
      · split at h <;> rcases List.mem_cons.1 h with rfl | h <;> simp_all
      · rcases List.mem_cons.1 h with rfl | h
        · exact Or.inr List.mem_cons_self
        · exact (ih h).imp_right (List.mem_cons_of_mem _)

theorem FirstGeneration.bump (hu : u.FirstGeneration) (hid : id.generation = 1) :
    (u.bump id).FirstGeneration := by
  intro e he
  rcases mem_insertEntry he with rfl | he
  · exact hid
  · exact hu e he

theorem count_bump (hu : u.FirstGeneration) (hid : id.generation = 1) (x : NodeId) :
    (u.bump id).count x = u.count x + [id].count x := by
  simp only [bump, insert, count, lookup_insertEntry hu hid, List.count_singleton, beq_iff_eq]
  split_ifs with hx hx' hx'
  · rw [hx, Option.getD_some]
  · exact absurd hx.symm hx'
  · exact absurd hx'.symm hx
  · rfl

theorem FirstGeneration.foldl_bump (hu : u.FirstGeneration) {ids : List NodeId}
    (hids : ∀ id ∈ ids, id.generation = 1) : (ids.foldl Uses.bump u).FirstGeneration := by
  induction ids generalizing u with
  | nil => exact hu
  | cons id ids ih =>
    exact ih (hu.bump (hids id List.mem_cons_self)) fun a ha => hids a (List.mem_cons_of_mem _ ha)

theorem count_foldl_bump (hu : u.FirstGeneration) {ids : List NodeId}
    (hids : ∀ id ∈ ids, id.generation = 1) (x : NodeId) :
    (ids.foldl bump u).count x = u.count x + ids.count x := by
  induction ids generalizing u with
  | nil => simp
  | cons id ids ih =>
    have hid := hids id List.mem_cons_self
    rw [List.foldl_cons, ih (hu.bump hid) fun a ha => hids a (List.mem_cons_of_mem _ ha),
      count_bump hu hid, Nat.add_assoc, ← List.count_append, List.singleton_append]

end Uses

theorem Graph.generation_of_node? {g : Graph} {id : NodeId} {n : Node}
    (h : g.node? id = some n) : id.generation = 1 := by
  obtain ⟨i, -, rfl, -⟩ := g.eq_ofIndex_of_node? h
  rfl

end ShaderFlow
