import ShaderFlow.Graph.Basic

/-!
# Reachability

A node reaches the nodes it takes values from, directly or through others, and itself. The search
keeps a stack of nodes to look at and the list of nodes it has not looked at yet. What is left to
do is the stack and what the unseen nodes can put on it (`Graph.unseenWork`). Each step takes
something of it away, so the search ends on every arena, wired in cycles or to missing nodes as it
may be.
-/

namespace ShaderFlow.Graph

variable (g : Graph)

/-- What unseen nodes can put on a stack: their sources and themselves. -/
def unseenWork : List NodeId → Nat
  | [] => 0
  | id :: rest => (g.sources id).length + 1 + unseenWork rest

theorem unseenWork_erase {unseen : List NodeId} {id : NodeId} (h : id ∈ unseen) :
    g.unseenWork unseen = (g.sources id).length + 1 + g.unseenWork (unseen.erase id) := by
  induction unseen with
  | nil => cases h
  | cons a rest ih =>
    by_cases ha : a = id
    · rw [ha, List.erase_cons_head, unseenWork]
    · have hrest := ih ((List.mem_cons.1 h).resolve_left (Ne.symm ha))
      rw [List.erase_cons_tail (by simpa using ha), unseenWork, unseenWork, hrest]
      omega

/-- Whether the search meets `target`, given the nodes it has not looked at and the stack. -/
def searchFor (target : NodeId) (unseen stack : List NodeId) : Bool :=
  match stack with
  | [] => false
  | id :: rest =>
    if id = target then true
    else if id ∈ unseen then searchFor target (unseen.erase id) (g.sources id ++ rest)
    else searchFor target unseen rest
termination_by stack.length + g.unseenWork unseen
decreasing_by
  · rename_i hmem
    rw [g.unseenWork_erase hmem, List.length_append, List.length_cons]
    omega
  · exact Nat.add_lt_add_right (Nat.lt_succ_self _) _

/-- Whether `target` is `source` or one of the nodes it takes values from, directly or not. -/
def reaches (source target : NodeId) : Bool := g.searchFor target g.ids [source]

end ShaderFlow.Graph
