import ShaderFlow.Proofs.Compile.Course
import ShaderFlow.Proofs.Function.Run

/-!
# What is known of all expressions of a stage

A property of expressions goes through a stage if every function hands it on: from the values of
its arguments to its own value and to what it declares on the way. `Emission.Composed` is the
invariant, `Emission.Composed.write` its step, and `Compile.exists_composed` what comes out for the
text of every stage: all declarations and assignments in it have the property.

There are two properties: one of everything that is declared, and one of the value of each node,
which may say more and depend on the node.
-/

namespace ShaderFlow

/-! ### Blocks -/

namespace Block

variable {W : Expr → Prop} {b : Block}

/-- All lines declare temporaries, by expressions with a property. -/
def Declaring (W : Expr → Prop) (b : Block) : Prop :=
  ∀ l ∈ b.lines.toList, ∃ ty i e, l = .declare ty i e ∧ W e

theorem declaring_empty : Declaring W {} := nofun

theorem Declaring.declare (h : b.Declaring W) {e : Expr} (he : W e) (ty : Ty) :
    (b.declare ty e).Declaring W := by
  intro l hl
  simp only [Block.declare, Array.toList_push, List.mem_append, List.mem_singleton] at hl
  rcases hl with hl | rfl
  · exact h l hl
  · exact ⟨ty, b.next, e, rfl, he⟩

/-- What an operand and all temporaries have in common, the shared operand has too. -/
theorem Declaring.share (h : b.Declaring W) {v : Operand} (hv : W v.expr) {P : Expr → Prop}
    (hP : P v.expr) (htemporary : ∀ i, P (.temporary i)) (stem : String) :
    (b.share stem v).1.Declaring W ∧ P (b.share stem v).2.expr := by
  unfold Block.share
  split
  · exact ⟨h, hP⟩
  · exact ⟨h.declare hv v.ty, htemporary b.next⟩

end Block

/-! ### Names -/

/-- The names that nodes call, and the paths and the accessors that they resolve to, have
properties of their own. -/
structure Graph.Named (g : Graph) (b : Backend) (C P S : String → Prop) : Prop where
  /-- The names of called functions. -/
  called : ∀ id n function, g.node? id = some n → n.function.calls? = some function → C function
  /-- The paths of resources. -/
  path : ∀ id n r resolution, g.node? id = some n → n.function.requirement = some r →
    b.resolve r.needs = .ok resolution → P resolution.path
  /-- The accessors of builtins. -/
  accessor : ∀ id n v text, g.node? id = some n → n.function.requirement = some (.builtin v) →
    b.accessor v = .ok text → S text

theorem Graph.Named.of_nodes {g : Graph} {b : Backend} {C P S : String → Prop}
    (hcalled : ∀ n ∈ g.nodes.toList, ∀ function ∈ n.function.calls?, C function)
    (hpath : ∀ n ∈ g.nodes.toList, ∀ r ∈ n.function.requirement,
      ∀ resolution ∈ b.resolve? r.needs, P resolution.path)
    (haccessor : ∀ entry ∈ b.accessors, S entry.2) : g.Named b C P S where
  called _ n function hn hf := hcalled n (mem_nodes_of_node? hn) function hf
  path _ n r resolution hn hr hresolve :=
    hpath n (mem_nodes_of_node? hn) r hr resolution (Backend.resolve_eq_ok.1 hresolve)
  accessor _ n v text hn hr htext := by
    obtain ⟨before, after, hsplit, -⟩ :=
      List.lookup_eq_some_iff.1 (Backend.accessor_eq_ok.1 htext)
    exact haccessor (v, text) (by simp [hsplit])

/-- What is known of access expressions by the paths and the accessors in them. -/
theorem Graph.Named.access {g : Graph} {b : Backend} {C P S Q : String → Prop}
    (h : g.Named b C P S) (hpath : ∀ p, P p → Q p) (hbuiltin : ∀ p a, P p → S a → Q (p ++ a))
    (htexture : ∀ p slot, P p → Q (p ++ "[" ++ Nat.repr slot ++ "]")) {id : NodeId} {n : Node}
    (hn : g.node? id = some n) (textures : List Texture) :
    ∀ p ∈ n.function.requirement.bind (b.access? textures), Q p := by
  intro p hp
  obtain ⟨r, hr, hp⟩ := Option.bind_eq_some_iff.1 hp
  have hresolved := fun resolution hresolve =>
    h.path id n r resolution hn hr (Backend.resolve_eq_ok.2 hresolve)
  cases r with
  | capability c =>
    obtain ⟨resolution, hresolve, rfl⟩ := Option.map_eq_some_iff.1 hp
    exact hpath _ (hresolved resolution hresolve)
  | builtin v =>
    obtain ⟨resolution, hresolve, hp⟩ := Option.bind_eq_some_iff.1 hp
    obtain ⟨text, htext, hp⟩ := Option.bind_eq_some_iff.1 hp
    cases hp
    exact hbuiltin _ _ (hresolved resolution hresolve)
      (h.accessor id n v text hn hr (Backend.accessor_eq_ok.2 htext))
  | texture t =>
    obtain ⟨resolution, hresolve, hp⟩ := Option.bind_eq_some_iff.1 hp
    obtain ⟨slot, -, hp⟩ := Option.bind_eq_some_iff.1 hp
    cases hp
    exact htexture _ _ (hresolved resolution hresolve)

/-! ### Nodes -/

/-- The code of a function, written after declarations with a property, declares by expressions
with the property and answers a value with another one. -/
def Function.Composes (f : Function) (stem : String) (path : Option String) (args : List Operand)
    (W V : Expr → Prop) : Prop :=
  ∀ b : Block, b.Declaring W → ((f.script path args).run stem b).1.Declaring W ∧
    V ((f.script path args).run stem b).2.expr

namespace Emission

variable {o : Options} {g : Graph} {b : Backend} {s s' : Emission} {W : Expr → Prop}
  {V : NodeId → Expr → Prop}

/-- The declarations have one property, and the value of each node has another. -/
structure Composed (W : Expr → Prop) (V : NodeId → Expr → Prop) (s : Emission) : Prop where
  /-- What temporaries are declared as. -/
  lines : s.block.Declaring W
  /-- The values of nodes. -/
  values : ∀ id v, s.value? id = some v → V id v.expr

theorem Composed.initial (textures : TextureArray) : Composed W V { textures } :=
  ⟨Block.declaring_empty, nofun⟩

/-- The functions of a graph hand a property on, whatever places the textures have. -/
structure Hands (o : Options) (g : Graph) (b : Backend) (W : Expr → Prop)
    (V : NodeId → Expr → Prop) : Prop where
  /-- The value of a node may be declared. -/
  declare : ∀ id e, V id e → W e
  /-- A temporary may be the value of any node. -/
  temporary : ∀ id i, V id (.temporary i)
  /-- The code of a node makes what has the property from what has it. -/
  code : ∀ id n args textures, g.node? id = some n → n.Wired →
    args.length = n.function.signature.arity →
    List.Forall₂ (fun source v => V source v.expr) n.sources args →
      n.function.Composes o.stem (n.function.requirement.bind (b.access? textures)) args W (V id)

/-- Putting a value into a temporary of its own keeps what is known. -/
theorem Hands.settle (h : Hands o g b W V) {id : NodeId} {code : Block × Operand}
    (shared trivial : Bool) (hlines : code.1.Declaring W) (hvalue : V id code.2.expr) :
    (settle shared trivial code).1.Declaring W ∧ V id (settle shared trivial code).2.expr := by
  unfold Emission.settle
  split
  · exact ⟨hlines.declare (h.declare id _ hvalue) code.2.ty, h.temporary id _⟩
  · exact ⟨hlines, hvalue⟩

/-- Writing a node keeps what is known of all expressions. -/
theorem Composed.write (h : s.Composed W V) (hg : g.WellFormed) (hands : Hands o g b W V)
    {shared : Bool} {id : NodeId} {n : Node} {args : List Operand} {path : Option String}
    (hwrites : Writes o g b s shared id n args path s') (hwired : n.Wired) :
    s'.Composed W V := by
  have hargs : List.Forall₂ (fun source v => V source v.expr) n.sources args :=
    (hwrites.arguments_of_wired hwired).imp fun source v hv => h.values source v hv
  have hlen := hwrites.length_arguments (hg.slots hwrites.node)
  have hcode := hands.code id n args s'.textures.textures hwrites.node hwired hlen hargs
  rw [← hwrites.path_eq] at hcode
  obtain ⟨hlines, hvalue⟩ := hcode s.block h.lines
  obtain ⟨hlines, hvalue⟩ := hands.settle shared n.function.isTrivial hlines hvalue
  rw [← Emission.code] at hlines hvalue
  refine ⟨hwrites.block ▸ hlines, fun x v hv => ?_⟩
  rw [hwrites.value?] at hv
  split_ifs at hv with hx
  · cases hv
    exact hx ▸ hvalue
  · exact h.values x v hv

theorem composed_of_schedule {roots : List NodeId} {plan : Schedule} {textures : TextureArray}
    (hg : g.WellFormed) (hplan : plan.Sound g roots) (hands : Hands o g b W V)
    (h : schedule o g b { textures } plan = .ok s') : s'.Composed W V :=
  schedule_induction (P := fun _ s => s.Composed W V) hplan h (.initial textures)
    fun _ _ _ _ _ _ _ _ _ hcomposed hwired hwrites => hcomposed.write hg hands hwrites hwired

theorem Composed.mem_lines (h : s.Composed W V) {routes : List Route}
    (hassigned : s.assignAll routes = .ok s') {l : Line} (hl : l ∈ s'.block.lines.toList) :
    (∃ ty i e, l = .declare ty i e ∧ W e) ∨
      ∃ r ∈ routes, ∃ e, l = .assign (r.output.place r.selector) e ∧ V r.source e := by
  obtain ⟨lines, hlines, rfl⟩ := assignAll_eq_ok hassigned
  simp only [Array.toList_append, List.mem_append] at hl
  rcases hl with hl | hl
  · exact Or.inl (h.lines l hl)
  · obtain ⟨r, hr, v, hv, rfl⟩ := exists_left_of_forall₂ hlines hl
    exact Or.inr ⟨r, hr, v.expr, rfl, h.values r.source v hv⟩

end Emission

/-! ### Stages -/

namespace Compile

variable {o : Options} {g : Graph} {k : Sink} {b : Backend} {W : Expr → Prop}
  {V : NodeId → Expr → Prop}

/-- What functions hand on holds of all expressions of the stage that a text among the results
comes from. -/
theorem exists_composed {shader : Shader} (hg : g.WellFormed) (hands : Emission.Hands o g b W V)
    (hok : (compile o g k b).result = .ok shader) {stage : Stage} {text : String}
    (htext : (stage, text) ∈ shader.stages) :
    ∃ textures routes plan nodes s, Starts o g k b stage textures routes plan ∧
      StageRun o g k b textures stage routes plan nodes s ∧
      text = s.text o b (k.outputsOf stage) ∧ nodes.Composed W V := by
  obtain ⟨textures, routes, plan, nodes, s, hstarts, hrun, rfl⟩ := exists_starts_of_text hok htext
  exact ⟨textures, routes, plan, nodes, s, hstarts, hrun, rfl,
    Emission.composed_of_schedule hg (hrun.sound hg) hands hrun.nodes_eq⟩

end Compile

end ShaderFlow
