import ShaderFlow.Graph.Reach

/-!
# Schedules

A schedule lists the nodes that some roots need, each after the nodes it takes values from, and
counts how often each value is used. Every mention as a root counts as one use, and so does every
input of a scheduled node.

The walk keeps a stack of tasks. Visiting a node for the first time puts its sources on the stack,
the one of the first slot on top, and below them the task to list the node itself. Each step takes
something away from the stack and what the nodes not yet visited can put on it, so the walk ends.
-/

namespace ShaderFlow

/-- How often the values of nodes are used: one entry for each slot, in the order of slots. -/
structure Uses where
  /-- The entries. -/
  entries : List (NodeId × Nat) := []
  deriving DecidableEq, Repr

namespace Uses

/-- Puts an entry among others. In a slot that is taken, an entry of an older generation is
dropped, and one of the same or a newer generation replaces what was there. -/
def insertEntry (id : NodeId) (count : Nat) : List (NodeId × Nat) → List (NodeId × Nat)
  | [] => [(id, count)]
  | (a, n) :: rest =>
    if id.slot < a.slot then (id, count) :: (a, n) :: rest
    else if id.slot = a.slot then
      (if id.olderThan a then (a, n) else (id, count)) :: rest
    else (a, n) :: insertEntry id count rest

/-- Sets the count of a node. -/
def insert (u : Uses) (id : NodeId) (count : Nat) : Uses := ⟨insertEntry id count u.entries⟩

/-- The number of uses of a node's value. -/
def count (u : Uses) (id : NodeId) : Nat := (u.entries.lookup id).getD 0

/-- Counts one more use. -/
def bump (u : Uses) (id : NodeId) : Uses := u.insert id (u.count id + 1)

end Uses

/-- Nodes in the order in which they are computed, with their uses. -/
structure Schedule where
  /-- The nodes, each after those it takes values from. -/
  order : List NodeId := []
  /-- The number of uses of each node's value. -/
  uses : Uses := {}
  deriving DecidableEq, Repr

namespace Node

/-- The last input that is not wired. -/
def lastUnwired? (n : Node) : Option Nat :=
  (List.range n.inputs.length).reverse.find? fun slot => (n.input? slot).isNone

end Node

namespace Schedule

/-- What the walk still has to do. -/
inductive Task where
  /-- Look at a node and what it needs. -/
  | visit (id : NodeId)
  /-- List a node whose sources are all listed. -/
  | list (id : NodeId)
  deriving DecidableEq, Repr

/-- A schedule in the making, with the nodes not yet visited. -/
structure Progress where
  /-- The nodes not yet visited. -/
  unseen : List NodeId
  /-- What is scheduled so far. -/
  schedule : Schedule
  deriving DecidableEq, Repr

variable (g : Graph)

/-- Does all the tasks of a stack. -/
def walk (unseen : List NodeId) (stack : List Task) (s : Schedule) : Except Error Progress :=
  match stack with
  | [] => .ok ⟨unseen, s⟩
  | .list id :: rest => walk unseen rest { s with order := s.order ++ [id] }
  | .visit id :: rest =>
    match _ : g.node? id with
    | none => .error (.unknownNode id)
    | some n =>
      if id ∈ unseen then
        match n.lastUnwired? with
        | some slot => .error (.unboundInput (g.label id) slot)
        | none =>
          walk (unseen.erase id) (n.sources.map .visit ++ .list id :: rest)
            { s with uses := n.sources.foldl .bump s.uses }
      else walk unseen rest s
termination_by stack.length + g.unseenWork unseen
decreasing_by
  · exact Nat.add_lt_add_right (Nat.lt_succ_self _) _
  · rename_i hnode hmem
    have hsources : g.sources id = n.sources := by simp [Graph.sources, hnode]
    rw [g.unseenWork_erase hmem, hsources, List.length_append, List.length_map, List.length_cons,
      List.length_cons]
    omega
  · exact Nat.add_lt_add_right (Nat.lt_succ_self _) _

section

variable {g} {id : NodeId} {n : Node} {unseen : List NodeId} {rest : List Task} {s : Schedule}

theorem walk_visit_missing (hn : g.node? id = none) :
    walk g unseen (.visit id :: rest) s = .error (.unknownNode id) := by
  rw [walk]
  split <;> simp_all

theorem walk_visit_unwired (hn : g.node? id = some n) (hid : id ∈ unseen) {slot : Nat}
    (hslot : n.lastUnwired? = some slot) :
    walk g unseen (.visit id :: rest) s = .error (.unboundInput (g.label id) slot) := by
  rw [walk]
  split <;> simp_all

theorem walk_visit_wired (hn : g.node? id = some n) (hid : id ∈ unseen)
    (hwired : n.lastUnwired? = none) :
    walk g unseen (.visit id :: rest) s =
      walk g (unseen.erase id) (n.sources.map .visit ++ .list id :: rest)
        { s with uses := n.sources.foldl .bump s.uses } := by
  rw [walk]
  split <;> simp_all

theorem walk_visit_seen (hn : g.node? id = some n) (hid : id ∉ unseen) :
    walk g unseen (.visit id :: rest) s = walk g unseen rest s := by
  rw [walk]
  split <;> simp_all

end

/-- Schedules one more root. -/
def addRoot (p : Progress) (root : NodeId) : Except Error Progress :=
  walk g p.unseen [.visit root]
    { p.schedule with uses := p.schedule.uses.bump root }

/-- The schedule of everything that the roots need. -/
def ofRoots (roots : List NodeId) : Except Error Schedule :=
  (roots.foldlM (addRoot g) ⟨g.ids, {}⟩).map (·.schedule)

end Schedule

end ShaderFlow
