import Mathlib.Data.Set.Function
import ShaderFlow.Compile
import ShaderFlow.Proofs.Basic
import ShaderFlow.Proofs.Schedule.Uses

/-!
# Renaming nodes

A renaming is a function `φ` on identifiers. It acts on all that mentions nodes: on the inputs of
a node, on the sources of a sink, and on the labels in an error. Whether `φ` can be undone is only
asked where it matters: `Graph.Copies` says that it is one-to-one on a set of nodes of one graph,
that the set has the sources of its nodes, and that another graph has a copy of each node. Nothing
is said about other nodes of either graph.

Two computations are compared by `Except.Rel`: both succeed with results that are related, or both
fail with errors that are. The relation passes through composition (`Except.Rel.bind`) and through
folds (`Except.Rel.foldlM`), so a two-run argument needs to look at single steps alone.
-/

namespace ShaderFlow

/-! ### Two results side by side -/

/-- Both results are values that are related, or both are errors that are. -/
inductive Except.Rel {ε ε' α β : Type} (E : ε → ε' → Prop) (R : α → β → Prop) :
    Except ε α → Except ε' β → Prop
  | ok {a : α} {b : β} (h : R a b) : Except.Rel E R (.ok a) (.ok b)
  | error {e : ε} {e' : ε'} (h : E e e') : Except.Rel E R (.error e) (.error e')

namespace Except.Rel

variable {ε ε' δ δ' α β γ α' β' : Type} {E : ε → ε' → Prop} {D : δ → δ' → Prop}
  {R : α → β → Prop} {R' : α' → β' → Prop} {x : Except ε α} {y : Except ε' β}

theorem bind (h : Rel E R x y) {f : α → Except ε α'} {f' : β → Except ε' β'}
    (hf : ∀ a b, R a b → Rel E R' (f a) (f' b)) : Rel E R' (x.bind f) (y.bind f') := by
  cases h with
  | ok h => exact hf _ _ h
  | error h => exact .error h

theorem map (h : Rel E R x y) {f : α → α'} {f' : β → β'}
    (hf : ∀ a b, R a b → R' (f a) (f' b)) : Rel E R' (x.map f) (y.map f') := by
  cases h with
  | ok h => exact .ok (hf _ _ h)
  | error h => exact .error h

theorem mapError (h : Rel E R x y) {f : ε → δ} {f' : ε' → δ'}
    (hf : ∀ e e', E e e' → D (f e) (f' e')) : Rel D R (x.mapError f) (y.mapError f') := by
  cases h with
  | ok h => exact .ok h
  | error h => exact .error (hf _ _ h)

/-- Folds over a list and over its image are related if all their steps are. -/
theorem foldlM {l : List γ} {φ : γ → γ} {f : α → γ → Except ε α} {f' : β → γ → Except ε' β} {a : α}
    {b : β} (hinit : R a b)
    (hstep : ∀ c ∈ l, ∀ a b, R a b → Rel E R (f a c) (f' b (φ c))) :
    Rel E R (l.foldlM f a) ((l.map φ).foldlM f' b) := by
  induction l generalizing a b with
  | nil => exact .ok hinit
  | cons c l ih =>
    refine Rel.bind (hstep c List.mem_cons_self a b hinit) fun a b hab => ?_
    exact ih hab fun c hc => hstep c (List.mem_cons_of_mem _ hc)

/-- Equal values and errors that a function relates: one result is the other with its error
mapped. -/
theorem eq_mapError {f : ε → ε'} {y : Except ε' α}
    (h : Rel (fun e e' => e' = f e) Eq x y) : y = x.mapError f := by
  cases h with
  | ok h => rw [h, Except.mapError]
  | error h => rw [h, Except.mapError]

end Except.Rel

/-! ### Renaming -/

variable (φ : NodeId → NodeId)

/-- The label of the renamed node. -/
def Label.rename (l : Label) : Label := { l with id := φ l.id }

/-- The place with its node renamed. -/
def Site.rename : Site → Site
  | node label => node (label.rename φ)
  | site => site

/-- The error with all nodes in it renamed. -/
def Error.rename : Error → Error
  | typeMismatch site slot expected found => typeMismatch (site.rename φ) slot expected found
  | cyclicGraph target source => cyclicGraph (target.rename φ) (source.rename φ)
  | unboundInput node slot => unboundInput (node.rename φ) slot
  | unknownNode id => unknownNode (φ id)
  | e => e

/-- The second error is the first with its nodes renamed. -/
def Error.Renamed (e e' : Error) : Prop := e' = e.rename φ

/-- The node with the same function and its sources renamed; what is not wired stays so. -/
def Node.rename (n : Node) : Node := { n with inputs := n.inputs.map (Option.map φ) }

/-- The parameter with its source renamed. -/
def Parameter.rename (p : Parameter) : Parameter := { p with source := p.source.map φ }

/-- The sink with the sources of all parameters renamed. -/
def Sink.rename (k : Sink) : Sink := { k with parameters := k.parameters.map (Parameter.rename φ) }

/-- The route from the renamed node. -/
def Route.rename (r : Route) : Route := { r with source := φ r.source }

variable {φ}

theorem Error.rename_id (e : Error) : e.rename (fun id => id) = e := by
  cases e with
  | typeMismatch site slot expected found => cases site <;> rfl
  | _ => rfl

theorem Sink.rename_id (k : Sink) : k.rename (fun id => id) = k := by
  have hsame : (Parameter.rename fun id => id) = id := by
    funext p
    simp [Parameter.rename]
  simp [rename, hsame]

namespace Node

variable {n : Node}

theorem rename_id : n.rename (fun id => id) = n := by
  have hsame : (Option.map fun id : NodeId => id) = id := by
    funext input
    exact Option.map_id'
  simp [rename, hsame]

theorem sources_rename : (n.rename φ).sources = n.sources.map φ := by
  simp only [sources, rename, List.filterMap_map, List.map_filterMap]
  rfl

theorem input?_rename (slot : Nat) : (n.rename φ).input? slot = (n.input? slot).map φ := by
  rw [input?, input?, rename, List.getElem?_map]
  cases n.inputs[slot]? <;> rfl

theorem lastUnwired?_rename : (n.rename φ).lastUnwired? = n.lastUnwired? := by
  have hlength : (n.rename φ).inputs.length = n.inputs.length := List.length_map ..
  simp only [lastUnwired?, hlength, input?_rename, Option.isNone_map]

end Node

/-! ### Copies of nodes -/

/-- `φ` takes the nodes of a set, which has the sources of its nodes, one-to-one to copies in
another graph. -/
structure Graph.Copies (φ : NodeId → NodeId) (S : Set NodeId) (g g' : Graph) : Prop where
  /-- Different nodes of the set have different copies. -/
  injOn : Set.InjOn φ S
  /-- The nodes of the set and their copies are there. -/
  node : ∀ id ∈ S, ∃ n, g.node? id = some n ∧ g'.node? (φ id) = some (n.rename φ)
  /-- The sources of the nodes are in the set. -/
  closed : ∀ id ∈ S, ∀ source ∈ g.sources id, source ∈ S

namespace Graph.Copies

variable {S : Set NodeId} {g g' : Graph}

theorem eq_iff (h : Copies φ S g g') {a b : NodeId} (ha : a ∈ S) (hb : b ∈ S) :
    φ a = φ b ↔ a = b :=
  h.injOn.eq_iff ha hb

theorem label_eq (h : Copies φ S g g') {id : NodeId} (hid : id ∈ S) :
    g'.label (φ id) = (g.label id).rename φ := by
  obtain ⟨n, hn, hn'⟩ := h.node id hid
  simp [Graph.label, Label.rename, hn, hn', Node.rename]

theorem sources_eq (h : Copies φ S g g') {id : NodeId} (hid : id ∈ S) :
    g'.sources (φ id) = (g.sources id).map φ := by
  obtain ⟨n, hn, hn'⟩ := h.node id hid
  rw [Graph.sources_of_node? hn, Graph.sources_of_node? hn', Node.sources_rename]

theorem mem_ids (h : Copies φ S g g') {id : NodeId} (hid : id ∈ S) :
    φ id ∈ g'.ids ↔ id ∈ g.ids := by
  obtain ⟨n, hn, hn'⟩ := h.node id hid
  simp [Graph.mem_ids, Graph.contains, hn, hn']

theorem generation (h : Copies φ S g g') {id : NodeId} (hid : id ∈ S) :
    id.generation = 1 ∧ (φ id).generation = 1 := by
  obtain ⟨n, hn, hn'⟩ := h.node id hid
  exact ⟨g.generation_of_node? hn, g'.generation_of_node? hn'⟩

theorem count_map (h : Copies φ S g g') {ids : List NodeId} (hids : ∀ id ∈ ids, id ∈ S)
    {x : NodeId} (hx : x ∈ S) : (ids.map φ).count (φ x) = ids.count x := by
  induction ids with
  | nil => rfl
  | cons id ids ih =>
    rw [List.map_cons, List.count_cons, List.count_cons,
      ih fun a ha => hids a (List.mem_cons_of_mem _ ha)]
    simp only [beq_iff_eq, h.eq_iff (hids id List.mem_cons_self) hx]

end Graph.Copies

end ShaderFlow
