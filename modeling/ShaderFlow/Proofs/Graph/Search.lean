import Mathlib.Algebra.BigOperators.Group.Finset.Basic
import ShaderFlow.Proofs.Graph.Reachable

/-!
# The search, turn by turn

`Graph.reaches` looks through the nodes that it has not seen yet. Here the same search is a loop
that remembers the identifiers it has marked. A turn takes the top off the stack; an identifier that
is neither the target nor marked is marked, and the sources of its node go on the stack. So the
stack can grow at a turn and can hold an identifier more than once, and a wire may close a cycle or
lead to a missing node.

* `Search.pending` counts the entries of the stack and the wires of the nodes that are not marked.
  Each turn that goes on takes one away (`Search.pending_turn`): an entry is gone, and the wires of
  a node that gets marked turn into entries.
* `Search.Tracks` is the invariant of the loop: what is marked has its sources marked or on the
  stack, so a path that leaves the marked nodes does so over an entry of the stack. Once the stack
  is empty no path leaves them.
* `Graph.search_ends_exactly` says that the loop ends, after how many turns at the most, and
  that its answer is the one of `Graph.reaches`: whether a path of wires leads to the target.
-/

namespace ShaderFlow.Graph

open Relation

/-- The number of wires, those to missing nodes included. -/
def wireCount (g : Graph) : Nat := ∑ id ∈ g.ids.toFinset, (g.sources id).length

/-- What the search keeps between two turns. -/
structure Search where
  /-- The identifiers that it has taken off the stack. -/
  marked : Finset NodeId
  /-- The identifiers that it has to look at, the next one first. -/
  stack : List NodeId

namespace Search

/-- The search from one node, before its first turn. -/
def start (source : NodeId) : Search := ⟨∅, [source]⟩

/-- One turn, which gives the answer or goes on. The sources are put on the stack slot by slot, so
the one in the last slot is the next to be looked at. -/
def turn (g : Graph) (target : NodeId) (s : Search) : Bool ⊕ Search :=
  match s.stack with
  | [] => .inl false
  | id :: rest =>
    if id = target then .inl true
    else if id ∈ s.marked then .inr { s with stack := rest }
    else .inr ⟨insert id s.marked, (g.sources id).reverse ++ rest⟩

/-- The answer, if the search gives one within a number of turns. -/
def run (g : Graph) (target : NodeId) : Nat → Search → Option Bool
  | 0, _ => none
  | turns + 1, s =>
    match s.turn g target with
    | .inl answer => some answer
    | .inr s' => run g target turns s'

variable {g : Graph} {source target : NodeId} {s s' : Search} {answer : Bool}

/-! ### What a turn does -/

theorem turn_eq_inl (h : s.turn g target = .inl answer) :
    s.stack = [] ∧ answer = false ∨ target ∈ s.stack ∧ answer = true := by
  unfold turn at h
  split at h
  next hstack =>
    cases h
    exact Or.inl ⟨hstack, rfl⟩
  next id rest hstack =>
    split_ifs at h with hid hmarked
    cases h
    exact Or.inr ⟨by simp [hstack, hid], rfl⟩

theorem turn_eq_inr (h : s.turn g target = .inr s') :
    ∃ id rest, s.stack = id :: rest ∧ id ≠ target ∧
      (id ∈ s.marked ∧ s' = ⟨s.marked, rest⟩ ∨
        id ∉ s.marked ∧ s' = ⟨insert id s.marked, (g.sources id).reverse ++ rest⟩) := by
  unfold turn at h
  split at h
  next => cases h
  next id rest hstack =>
    split_ifs at h with hid hmarked
    · cases h
      exact ⟨id, rest, hstack, hid, Or.inl ⟨hmarked, rfl⟩⟩
    · cases h
      exact ⟨id, rest, hstack, hid, Or.inr ⟨hmarked, rfl⟩⟩

/-! ### How many turns are left -/

/-- The entries of the stack, and the wires of the nodes that are not marked. -/
def pending (g : Graph) (s : Search) : Nat :=
  s.stack.length + ∑ id ∈ g.ids.toFinset \ s.marked, (g.sources id).length

theorem pending_start (source : NodeId) : (start source).pending g = g.wireCount + 1 := by
  simp [start, pending, wireCount, Nat.add_comm]

/-- The wires of a node are no longer counted once the node is marked. A missing node has none. -/
theorem sum_sources_insert {id : NodeId} {marked : Finset NodeId} (hid : id ∉ marked) :
    (g.sources id).length + ∑ a ∈ g.ids.toFinset \ insert id marked, (g.sources a).length =
      ∑ a ∈ g.ids.toFinset \ marked, (g.sources a).length := by
  rw [Finset.sdiff_insert]
  by_cases hids : id ∈ g.ids
  · have hmem : id ∈ g.ids.toFinset \ marked := by simp [hids, hid]
    exact Finset.add_sum_erase _ (fun a => (g.sources a).length) hmem
  · have hmem : id ∉ g.ids.toFinset \ marked := by simp [hids]
    rw [Finset.erase_eq_of_notMem hmem, sources_of_not_mem_ids hids, List.length_nil, Nat.zero_add]

theorem pending_turn (h : s.turn g target = .inr s') : s'.pending g + 1 = s.pending g := by
  obtain ⟨id, rest, hstack, -, ⟨-, rfl⟩ | ⟨hid, rfl⟩⟩ := turn_eq_inr h
  · simp only [pending, hstack, List.length_cons]
    omega
  · -- the wires of the node that is marked are entries now
    have hsum := sum_sources_insert (g := g) hid
    simp only [pending, hstack, List.length_cons, List.length_append, List.length_reverse]
    omega

/-! ### What the search knows -/

/-- The identifier is marked or on the stack. -/
def Known (s : Search) (id : NodeId) : Prop := id ∈ s.marked ∨ id ∈ s.stack

/-- The invariant of a search from `source` that has not met the target. -/
structure Tracks (g : Graph) (source target : NodeId) (s : Search) : Prop where
  /-- A path leads to each entry of the stack. -/
  reached : ∀ id ∈ s.stack, g.Reaches source id
  /-- The node that the search started from is not forgotten. -/
  known : s.Known source
  /-- Nor is any source of a marked node. -/
  closed : ∀ id ∈ s.marked, ∀ id' ∈ g.sources id, s.Known id'
  /-- No marked identifier is the target. -/
  unmet : target ∉ s.marked

theorem tracks_start (g : Graph) (source target : NodeId) :
    Tracks g source target (start source) where
  reached id hid := by
    rw [List.mem_singleton.1 hid]
    exact .refl source
  known := Or.inr (List.mem_singleton_self source)
  closed := by simp [start]
  unmet := by simp [start]

/-- What is known stays known: the entry that a turn takes is marked afterwards. -/
theorem Known.turn {id : NodeId} (h : s.Known id) (hs : s.turn g target = .inr s') :
    s'.Known id := by
  obtain ⟨top, rest, hstack, -, hnext⟩ := turn_eq_inr hs
  have hid : id = top ∨ id ∈ s.marked ∨ id ∈ rest := by
    rcases h with hid | hid
    · exact Or.inr (Or.inl hid)
    · rw [hstack] at hid
      exact (List.mem_cons.1 hid).imp_right Or.inr
  rcases hnext with ⟨htop, rfl⟩ | ⟨-, rfl⟩
  · rcases hid with rfl | hid
    · exact Or.inl htop
    · exact hid
  · rcases hid with rfl | hid | hid
    · exact Or.inl (Finset.mem_insert_self _ _)
    · exact Or.inl (Finset.mem_insert_of_mem hid)
    · exact Or.inr (List.mem_append_right _ hid)

theorem Tracks.turn (h : Tracks g source target s) (hs : s.turn g target = .inr s') :
    Tracks g source target s' := by
  have hknown : ∀ id ∈ s.marked, ∀ id' ∈ g.sources id, s'.Known id' :=
    fun id hid id' hid' => (h.closed id hid id' hid').turn hs
  have hsource : s'.Known source := h.known.turn hs
  obtain ⟨top, rest, hstack, hne, ⟨-, rfl⟩ | ⟨-, rfl⟩⟩ := turn_eq_inr hs
  · refine ⟨fun id hid => ?_, hsource, hknown, h.unmet⟩
    exact h.reached id (hstack ▸ List.mem_cons_of_mem _ hid)
  · refine ⟨fun id hid => ?_, hsource, fun id hid id' hid' => ?_, ?_⟩
    · rcases List.mem_append.1 hid with hid | hid
      · have htop : g.Reaches source top := h.reached top (hstack ▸ List.mem_cons_self)
        exact htop.tail (List.mem_reverse.1 hid)
      · exact h.reached id (hstack ▸ List.mem_cons_of_mem _ hid)
    · rcases Finset.mem_insert.1 hid with rfl | hid
      · exact Or.inr (List.mem_append_left _ (List.mem_reverse.2 hid'))
      · exact hknown id hid id' hid'
    · rw [Finset.mem_insert, not_or]
      exact ⟨hne.symm, h.unmet⟩

/-- With an empty stack, the marked nodes have all their sources among them, and so all that can be
reached. -/
theorem Tracks.not_reaches (h : Tracks g source target s) (hstack : s.stack = []) :
    ¬ g.Reaches source target := by
  intro hpath
  have hmarked : ∀ {id}, s.Known id → id ∈ s.marked.toList := by
    rintro id (hid | hid)
    · exact Finset.mem_toList.2 hid
    · simp [hstack] at hid
  have htarget : target ∈ s.marked.toList :=
    hpath.mem_of_closed
      (fun id hid id' hid' => hmarked (h.closed id (Finset.mem_toList.1 hid) id' hid'))
      (hmarked h.known)
  exact h.unmet (Finset.mem_toList.1 htarget)

theorem Tracks.answer_eq (h : Tracks g source target s) (hs : s.turn g target = .inl answer) :
    answer = g.reaches source target := by
  rw [Bool.eq_iff_iff, reaches_iff]
  rcases turn_eq_inl hs with ⟨hstack, rfl⟩ | ⟨hmem, rfl⟩
  · simpa using h.not_reaches hstack
  · simpa using h.reached target hmem

/-- A search that tracks its target ends, and not before it has the answer. -/
theorem Tracks.run_eq (h : Tracks g source target s) :
    ∃ needed ≤ s.pending g + 1, ∀ turns, s.run g target turns =
      if turns < needed then none else some (g.reaches source target) := by
  -- the number of pending entries and wires goes down with each turn
  induction hm : s.pending g using Nat.strong_induction_on generalizing s with
  | _ m ih =>
    cases hs : s.turn g target with
    | inl answer =>
      refine ⟨1, Nat.le_add_left 1 m, fun turns => ?_⟩
      cases turns with
      | zero => rfl
      | succ turns => simp [run, hs, h.answer_eq hs]
    | inr s' =>
      have hpending := pending_turn hs
      obtain ⟨needed, hle, hrun⟩ := ih (s'.pending g) (by omega) (h.turn hs) rfl
      refine ⟨needed + 1, by omega, fun turns => ?_⟩
      cases turns with
      | zero => rfl
      | succ turns => simp [run, hs, hrun]

end Search

theorem wire_eq_slots (g : Graph) :
    g.Wire = fun a b => ∃ n slot, g.node? a = some n ∧ n.input? slot = some b := by
  funext a b
  simp only [wire_iff, Node.mem_sources, exists_and_left]

/-- **The search ends and finds what can be reached.** In every arena of nodes, wired in cycles or
to missing nodes as it may be, the loop ends after a number of turns, at most two more than there
are wires, and its answer is the one of `Graph.reaches`. The answer is yes exactly if the target is
the node to start from, or a path of one or more filled slots of existing nodes leads from there to
the target. -/
theorem search_ends_exactly (g : Graph) (source target : NodeId) :
    (∃ needed ≤ g.wireCount + 2, ∀ turns, (Search.start source).run g target turns =
      if turns < needed then none else some (g.reaches source target)) ∧
    (g.reaches source target = true ↔ target = source ∨
      TransGen (fun a b => ∃ n slot, g.node? a = some n ∧ n.input? slot = some b)
        source target) := by
  constructor
  · have hrun := (Search.tracks_start g source target).run_eq
    rwa [Search.pending_start] at hrun
  · rw [reaches_iff, Reaches, reflTransGen_iff_eq_or_transGen, wire_eq_slots]

/-- Two nodes that take each other's value. The second one takes a value from a missing node too,
and has a slot without a source. -/
def Ring.graph : Graph :=
  ⟨#[⟨.builtin .time, [some (.ofIndex 1)]⟩,
    ⟨.builtin .time, [some (.ofIndex 0), none, some (.ofIndex 2)]⟩]⟩

-- the missing node is found before the ring closes, and a search in vain takes all five turns
example : Ring.graph.wireCount = 3 ∧
    (Search.start (.ofIndex 0)).run Ring.graph (.ofIndex 2) 3 = some true ∧
    (Search.start (.ofIndex 0)).run Ring.graph .null 4 = none ∧
    (Search.start (.ofIndex 0)).run Ring.graph .null 5 = some false := by
  decide

end ShaderFlow.Graph
