import Mathlib.Data.List.Nodup
import Mathlib.Logic.Relation
import ShaderFlow.Graph.Reach

/-!
# Paths over wires

A wire leads from a node to a node it takes a value from. `Graph.Reaches` follows any number of
wires, `Graph.DependsOn` at least one, and a graph is `Graph.Acyclic` if no node depends on
itself. None of the three asks for anything about the graph: wires may lead to missing nodes.

* `Graph.reaches_iff` says that the search with a stack finds exactly the paths;
* `Graph.DependsOn.split` cuts a path that may use one new wire at its uses of that wire.
-/

namespace ShaderFlow

open Relation

theorem Node.mem_sources {n : Node} {id : NodeId} :
    id ∈ n.sources ↔ ∃ slot, n.input? slot = some id := by
  simp only [sources, input?, List.mem_filterMap, id_eq, exists_eq_right, Option.join_eq_some_iff]
  exact List.mem_iff_getElem?

namespace Graph

variable (g : Graph)

/-- A wire leads from `a` to a node that `a` takes a value from. -/
def Wire (a b : NodeId) : Prop := b ∈ g.sources a

/-- `b` is `a` or a node that `a` takes values from, directly or not. -/
def Reaches (a b : NodeId) : Prop := ReflTransGen g.Wire a b

/-- `b` is a node that `a` takes values from, directly or not. -/
def DependsOn (a b : NodeId) : Prop := TransGen g.Wire a b

/-- No node takes values from itself. -/
def Acyclic : Prop := ∀ id, ¬ g.DependsOn id id

variable {g}

theorem sources_of_node? {id : NodeId} {n : Node} (h : g.node? id = some n) :
    g.sources id = n.sources := by
  simp [sources, h]

theorem mem_nodes_of_node? {id : NodeId} {n : Node} (h : g.node? id = some n) :
    n ∈ g.nodes.toList := by
  obtain ⟨i, -, -, hn⟩ := g.eq_ofIndex_of_node? h
  exact Array.mem_toList_iff.2 (Array.mem_of_getElem? hn)

theorem forall_node? {P : Node → Prop} (h : ∀ n ∈ g.nodes.toList, P n) :
    ∀ id n, g.node? id = some n → P n :=
  fun _ n hn => h n (mem_nodes_of_node? hn)

theorem sources_of_not_mem_ids {id : NodeId} (h : id ∉ g.ids) : g.sources id = [] := by
  have hnone : g.node? id = none := by simpa [mem_ids, contains] using h
  simp [sources, hnone]

theorem nodup_ids : g.ids.Nodup :=
  List.Nodup.map (fun _ _ h => NodeId.ofIndex_inj.1 h) List.nodup_range

theorem wire_iff {a b : NodeId} : g.Wire a b ↔ ∃ n, g.node? a = some n ∧ b ∈ n.sources := by
  cases h : g.node? a <;> simp [Wire, sources, h]

namespace Reaches

theorem refl (id : NodeId) : g.Reaches id id := ReflTransGen.refl

theorem head {a b c : NodeId} (h : g.Wire a b) (h' : g.Reaches b c) : g.Reaches a c :=
  ReflTransGen.head h h'

theorem tail {a b c : NodeId} (h : g.Reaches a b) (h' : g.Wire b c) : g.Reaches a c :=
  ReflTransGen.tail h h'

/-- A set of nodes with all the sources of its nodes has everything they reach. -/
theorem mem_of_closed {S : List NodeId} (hS : ∀ id ∈ S, g.sources id ⊆ S) {a b : NodeId}
    (h : g.Reaches a b) (ha : a ∈ S) : b ∈ S := by
  induction h with
  | refl => exact ha
  | tail _ hw ih => exact hS _ ih hw

end Reaches

/-! ### The search -/

/-- What the search may have skipped: a node that is not left to look at has been compared with
the target, and each of its sources is on the stack, or is neither left nor the target. -/
def Explored (g : Graph) (target : NodeId) (unseen stack : List NodeId) : Prop :=
  ∀ id, id ∉ unseen → ∀ source ∈ g.sources id,
    source ∈ stack ∨ source ∉ unseen ∧ source ≠ target

theorem Explored.initial (target source : NodeId) : g.Explored target g.ids [source] := by
  intro id hid
  simp [sources_of_not_mem_ids hid]

theorem Explored.visit {target id : NodeId} {unseen rest : List NodeId}
    (h : g.Explored target unseen (id :: rest)) (hnd : unseen.Nodup) (hne : id ≠ target) :
    g.Explored target (unseen.erase id) (g.sources id ++ rest) := by
  intro a ha source hsource
  by_cases hid : a = id
  · subst hid
    exact Or.inl (List.mem_append_left _ hsource)
  · have ha' : a ∉ unseen := fun hmem => ha ((List.mem_erase_of_ne hid).2 hmem)
    rcases h a ha' source hsource with hs | ⟨hs, hs'⟩
    · rcases List.mem_cons.1 hs with rfl | hs
      · exact Or.inr ⟨fun hmem => (hnd.mem_erase_iff.1 hmem).1 rfl, hne⟩
      · exact Or.inl (List.mem_append_right _ hs)
    · exact Or.inr ⟨fun hmem => hs (List.mem_of_mem_erase hmem), hs'⟩

/-- A path to the target from a node that is done with leaves through the rest of the stack. -/
theorem Explored.exists_mem {target id : NodeId} {unseen rest : List NodeId}
    (h : g.Explored target unseen (id :: rest)) (hid : id ∉ unseen) (hne : id ≠ target)
    (hpath : g.Reaches id target) : ∃ a ∈ rest, g.Reaches a target := by
  -- the path goes from one node that is done with to the next until it meets the stack
  have key : ∀ a, g.Reaches a target → a ∉ unseen → a ≠ target →
      ∃ x ∈ rest, g.Reaches x target := by
    intro a ha
    induction ha using ReflTransGen.head_induction_on with
    | refl => exact fun _ hne => absurd rfl hne
    | @head a b hab hbt ih =>
      intro hunseen _
      rcases h a hunseen b hab with hb | ⟨hb, hb'⟩
      · rcases List.mem_cons.1 hb with rfl | hb
        · -- the path comes back to where it started
          exact ih hid hne
        · exact ⟨b, hb, hbt⟩
      · exact ih hb hb'
  exact key id hpath hid hne

theorem Explored.skip {target id : NodeId} {unseen rest : List NodeId}
    (h : g.Explored target unseen (id :: rest)) (hid : id ∉ unseen) (hne : id ≠ target) :
    g.Explored target unseen rest := by
  intro a ha source hsource
  rcases h a ha source hsource with hs | hs
  · rcases List.mem_cons.1 hs with rfl | hs
    · exact Or.inr ⟨hid, hne⟩
    · exact Or.inl hs
  · exact Or.inr hs

theorem exists_reaches_of_searchFor {target : NodeId} {unseen stack : List NodeId}
    (h : g.searchFor target unseen stack = true) : ∃ a ∈ stack, g.Reaches a target := by
  fun_induction searchFor g target unseen stack with
  | case1 => simp at h
  | case2 unseen rest => exact ⟨target, List.mem_cons_self, .refl _⟩
  | case3 unseen id rest _ _ ih =>
    obtain ⟨a, ha, hpath⟩ := ih h
    rcases List.mem_append.1 ha with ha | ha
    · exact ⟨id, List.mem_cons_self, .head ha hpath⟩
    · exact ⟨a, List.mem_cons_of_mem _ ha, hpath⟩
  | case4 unseen id rest _ _ ih =>
    obtain ⟨a, ha, hpath⟩ := ih h
    exact ⟨a, List.mem_cons_of_mem _ ha, hpath⟩

theorem searchFor_of_exists_reaches {target : NodeId} {unseen stack : List NodeId}
    (hnd : unseen.Nodup) (hexp : g.Explored target unseen stack)
    (h : ∃ a ∈ stack, g.Reaches a target) : g.searchFor target unseen stack = true := by
  fun_induction searchFor g target unseen stack with
  | case1 => simp at h
  | case2 => rfl
  | case3 unseen id rest hne _ ih =>
    refine ih (hnd.erase id) (hexp.visit hnd hne) ?_
    obtain ⟨a, ha, hpath⟩ := h
    rcases List.mem_cons.1 ha with rfl | ha
    · -- the path is not empty, so it starts with a wire to one of the sources
      rcases hpath.cases_head with heq | ⟨b, hab, hbt⟩
      · exact absurd heq hne
      · exact ⟨b, List.mem_append_left _ hab, hbt⟩
    · exact ⟨a, List.mem_append_right _ ha, hpath⟩
  | case4 unseen id rest hne hid ih =>
    refine ih hnd (hexp.skip hid hne) ?_
    obtain ⟨a, ha, hpath⟩ := h
    rcases List.mem_cons.1 ha with rfl | ha
    · exact hexp.exists_mem hid hne hpath
    · exact ⟨a, ha, hpath⟩

/-- The search finds exactly the nodes that a path leads to. -/
theorem reaches_iff {source target : NodeId} :
    g.reaches source target = true ↔ g.Reaches source target := by
  constructor
  · intro h
    obtain ⟨a, ha, hpath⟩ := exists_reaches_of_searchFor h
    rwa [List.mem_singleton.1 ha] at hpath
  · intro h
    exact searchFor_of_exists_reaches nodup_ids (Explored.initial target source)
      ⟨source, List.mem_singleton_self _, h⟩

/-! ### Paths and new wires -/

/-- A path that may use a new wire from `u` to `v` needs no new wire, or it first goes to `u`
and last comes from `v` over old ones. -/
theorem DependsOn.split {g' : Graph} {u v : NodeId}
    (hwire : ∀ a b, g'.Wire a b → g.Wire a b ∨ a = u ∧ b = v) {a b : NodeId}
    (h : g'.DependsOn a b) : g.DependsOn a b ∨ g.Reaches a u ∧ g.Reaches v b := by
  induction h with
  | single hab =>
    rcases hwire _ _ hab with hold | ⟨rfl, rfl⟩
    · exact Or.inl (.single hold)
    · exact Or.inr ⟨.refl _, .refl _⟩
  | @tail b c _ hbc ih =>
    rcases hwire _ _ hbc with hold | ⟨rfl, rfl⟩
    · rcases ih with hab | ⟨hau, hvb⟩
      · exact Or.inl (hab.tail hold)
      · exact Or.inr ⟨hau, hvb.tail hold⟩
    · rcases ih with hab | ⟨hau, -⟩
      · exact Or.inr ⟨hab.to_reflTransGen, .refl _⟩
      · exact Or.inr ⟨hau, .refl _⟩

/-- A new wire closes no cycle if its end does not reach its start. -/
theorem Acyclic.of_wire {g' : Graph} {u v : NodeId} (hg : g.Acyclic)
    (hwire : ∀ a b, g'.Wire a b → g.Wire a b ∨ a = u ∧ b = v) (hvu : ¬ g.Reaches v u) :
    g'.Acyclic := by
  intro id hcycle
  rcases hcycle.split hwire with hold | ⟨hiu, hvi⟩
  · exact hg id hold
  · exact hvu (hvi.trans hiu)

theorem Acyclic.mono {g' : Graph} (hg : g.Acyclic) (hwire : ∀ a b, g'.Wire a b → g.Wire a b) :
    g'.Acyclic :=
  fun id hcycle => hg id (TransGen.mono hwire _ _ hcycle)

end Graph

end ShaderFlow
