import ShaderFlow.Proofs.Code.Temporaries
import ShaderFlow.Proofs.Compile.Course
import ShaderFlow.Proofs.Compile.Success

/-!
# Temporaries are declared before they are used

All nodes of a stage write into one block and share its counter. A value that is a temporary goes
from node to node as it is, and functions that pass an argument on hand it further. So that every
temporary in use is declared is an invariant of the whole stage (`Emission.Declared`): it ties the
lines, the counter and the values together, and each node that is written keeps it.

`Compile.temporaries_declared` says so of every state that compiling comes through, whether it
succeeds in the end or not, and of the text of each stage when it does.
-/

namespace ShaderFlow

namespace Emission

variable {o : Options} {g : Graph} {b : Backend} {s s' : Emission}

/-- The declarations are counted, and the values of the nodes are at hand. -/
structure Declared (s : Emission) : Prop where
  /-- The declarations are counted. -/
  counted : s.block.Counted
  /-- Values that are temporaries have been declared. -/
  values : ∀ id v, s.value? id = some v → s.block.HasAtHand v

theorem Declared.initial (textures : TextureArray) : Declared { textures } :=
  ⟨Block.counted_empty, nofun⟩

/-- The arguments of a node are values of other nodes, so they are at hand. -/
theorem Declared.arguments (h : s.Declared) {inputs : List (Option NodeId)} {args : List Operand}
    (hargs : List.Forall₂ (fun input v => input.bind s.value? = some v) inputs args) :
    ∀ v ∈ args, s.block.HasAtHand v := by
  intro v hv
  obtain ⟨input, -, hinput⟩ := exists_left_of_forall₂ hargs hv
  obtain ⟨source, -, hsource⟩ := Option.bind_eq_some_iff.1 hinput
  exact h.values source v hsource

theorem settle_continues {block : Block} {code : Block × Operand} (shared trivial : Bool)
    (h : block.Continues code.1) (hv : code.1.HasAtHand code.2) :
    block.Continues (settle shared trivial code).1 ∧
      (settle shared trivial code).1.HasAtHand (settle shared trivial code).2 := by
  unfold settle
  split
  · exact ⟨h.trans (Block.continues_declare h.counted _ _), Block.hasAtHand_fresh _ _ _⟩
  · exact ⟨h, hv⟩

/-- The code of a node comes after what was there, and its value is at hand then. -/
theorem Declared.code (h : s.Declared) (o : Options) (shared : Bool) (n : Node)
    (path : Option String) {args : List Operand} (hargs : ∀ v ∈ args, s.block.HasAtHand v) :
    s.block.Continues (code o shared n args path s.block).1 ∧
      (code o shared n args path s.block).1.HasAtHand (code o shared n args path s.block).2 := by
  obtain ⟨hrun, hanswer⟩ :=
    Script.run_continues o.stem h.counted hargs (n.function.script_honest path args)
  exact settle_continues shared n.function.isTrivial hrun hanswer

/-- A node that is written adds its lines at the end, and all temporaries stay declared. -/
theorem Declared.write (h : s.Declared) {shared : Bool} {id : NodeId} {n : Node}
    {args : List Operand} {path : Option String}
    (hwrites : Writes o g b s shared id n args path s') :
    s'.Declared ∧ s.block.lines.toList <+: s'.block.lines.toList := by
  obtain ⟨hcode, hvalue⟩ := h.code o shared n path (h.arguments hwrites.arguments)
  rw [← hwrites.block] at hcode hvalue
  refine ⟨⟨hcode.counted, fun x v hv => ?_⟩, hcode.lines⟩
  rw [hwrites.value?] at hv
  split_ifs at hv with hx
  · cases hv
    exact hvalue
  · exact (h.values x v hv).mono hcode.lines

theorem Declared.named_assigned (h : s.Declared) {routes : List Route} {lines : List Line}
    (hlines : List.Forall₂ s.AssignedBy routes lines) (stem : String) :
    Block.Named stem { s.block with lines := s.block.lines ++ lines.toArray } := by
  refine Block.Counted.named (h.counted.append fun l hl => ?_) stem
  obtain ⟨r, -, value, -, rfl⟩ := exists_left_of_forall₂ hlines hl
  rfl

end Emission

namespace Compile

variable {o : Options} {g : Graph} {k : Sink} {b : Backend} {stage : Stage}
  {textures : TextureArray} {routes : List Route} {plan : Schedule} {done rest : List NodeId}
  {s : Emission}

/-- Temporaries stay declared in every state that compiling comes through. -/
theorem Underway.declared (h : Underway o g k b stage textures routes plan done rest s)
    (hg : g.WellFormed) : s.Declared :=
  Emission.writeNodes_induction (P := fun _ s => s.Declared) (h.sound hg) h.order h.written
    (.initial textures) fun _ _ _ _ _ _ _ _ _ hdeclared _ hwrites => (hdeclared.write hwrites).1

/-- All temporaries in use are declared in a state of a stage, with these routes and the rest of
its plan to come. -/
structure TemporariesDeclared (o : Options) (g : Graph) (b : Backend) (routes : List Route)
    (plan : Schedule) (rest : List NodeId) (s : Emission) : Prop where
  /-- Temporaries are named by number in the order of their declarations, and counted. -/
  named : s.block.Named o.stem
  /-- The next node finds its arguments, and those that are temporaries have been declared. -/
  arguments : ∀ id later, rest = id :: later → ∃ n args, g.node? id = some n ∧
    s.arguments (g.label id) 0 n.inputs = .ok args ∧
    ∀ v ∈ args, v.isTemporary = true → s.block.Declares o.stem v
  /-- The lines of the next node come after all lines that there are. -/
  appended : ∀ id later s', rest = id :: later →
    s.node o g b (1 < plan.uses.count id) id = .ok s' →
      s.block.lines.toList <+: s'.block.lines.toList
  /-- When all nodes are written, the assignments come after all lines that there are and add no
  declaration, and the values in them that are temporaries have been declared. -/
  assigned : rest = [] → ∃ final lines, s.assignAll routes = .ok final ∧
    final.block.lines.toList = s.block.lines.toList ++ lines ∧ final.block.Named o.stem ∧
    List.Forall₂ (fun r line => ∃ v, s.value? r.source = some v ∧
      line = .assign (r.output.place r.selector) v.expr ∧
      (v.isTemporary = true → s.block.Declares o.stem v)) routes lines

theorem Underway.temporariesDeclared
    (h : Underway o g k b stage textures routes plan done rest s) (hg : g.WellFormed) :
    TemporariesDeclared o g b routes plan rest s := by
  have hdeclared := h.declared hg
  refine ⟨hdeclared.counted.named o.stem, ?_, ?_, ?_⟩
  · rintro id later rfl
    obtain ⟨n, args, hn, hargs⟩ := h.exists_arguments hg
    refine ⟨n, args, hn, hargs, fun v hv htemporary => ?_⟩
    have hvalues := hdeclared.arguments (Emission.arguments_eq_ok.1 hargs)
    exact (hvalues v hv).declares htemporary o.stem
  · rintro id later s' rfl hs'
    obtain ⟨n, args, path, hwrites⟩ := Emission.writes_of_node hs'
    exact (hdeclared.write hwrites).2
  · rintro rfl
    obtain ⟨final, hfinal⟩ := Emission.exists_assignAll (h.isSome_value? hg)
    obtain ⟨lines, hlines, rfl⟩ := Emission.assignAll_eq_ok hfinal
    refine ⟨_, lines, hfinal, by simp, hdeclared.named_assigned hlines o.stem, ?_⟩
    refine hlines.imp fun r line hline => ?_
    obtain ⟨v, hv, rfl⟩ := hline
    exact ⟨v, hv, rfl, fun htemporary =>
      (hdeclared.values r.source v hv).declares htemporary o.stem⟩

/-- A text among the results is that of a state in which all nodes of the stage are written, with
the assignments after it. -/
theorem exists_underway_of_text {shader : Shader}
    (hok : (compile o g k b).result = .ok shader) {text : String}
    (htext : (stage, text) ∈ shader.stages) :
    ∃ textures routes plan s final, Underway o g k b stage textures routes plan plan.order [] s ∧
      s.assignAll routes = .ok final ∧ text = final.text o b (k.outputsOf stage) := by
  obtain ⟨textures, routes, plan, nodes, s, hstarts, hrun, rfl⟩ := exists_starts_of_text hok htext
  exact ⟨textures, routes, plan, nodes, s,
    ⟨hstarts, (List.append_nil _).symm, hrun.nodes_eq⟩, hrun.assigned, rfl⟩

/-- **Temporaries are declared before they are used.** In every state that compiling comes through,
the temporaries of the stage are named by the stem and the numbers from zero on, in the order of
their declarations, and the counter is how many there are. A temporary that a node is given or that
is assigned has been declared with its type by a line before all lines of that node or assignment.
The text of each stage of a result comes from such a state. -/
theorem temporaries_declared (hg : g.Built) :
    (∀ stage textures routes plan done rest s,
      Underway o g k b stage textures routes plan done rest s →
        TemporariesDeclared o g b routes plan rest s) ∧
      ∀ shader, (compile o g k b).result = .ok shader → ∀ stage text,
        (stage, text) ∈ shader.stages → ∃ textures routes plan s final,
          Underway o g k b stage textures routes plan plan.order [] s ∧
            s.assignAll routes = .ok final ∧ text = final.text o b (k.outputsOf stage) :=
  ⟨fun _ _ _ _ _ _ _ h => h.temporariesDeclared hg.wellFormed,
    fun _ hok _ _ => exists_underway_of_text hok⟩

end Compile

/-! ### A sample -/

namespace Sample

/-- The plan of the sample's only stage. -/
def plan : Schedule :=
  ⟨[.ofIndex 0, .ofIndex 1, .ofIndex 2], ⟨[(.ofIndex 0, 1), (.ofIndex 1, 2), (.ofIndex 2, 1)]⟩⟩

/-- The route of the sample's only link. -/
def route : Route := ⟨⟨"color", .fragment, 0, ty⟩, .whole, .ofIndex 2⟩

theorem starts : Compile.Starts {} graph sink {} .fragment {} [route] plan where
  checked := ⟨[], rfl, rfl⟩
  earlier := ⟨[], [], {}, rfl, rfl, rfl⟩
  routes_eq := rfl
  plan_eq := by decide +kernel

/-- The value of the call is used twice, so the sum is given a temporary for it. -/
theorem exists_shared : ∃ s, Compile.Underway {} graph sink {} .fragment {} [route] plan
    [.ofIndex 0, .ofIndex 1] [.ofIndex 2] s ∧
      s.arguments (graph.label (.ofIndex 2)) 0 [some (.ofIndex 1), some (.ofIndex 1)] =
        .ok [.temporary ty 0, .temporary ty 0] :=
  ⟨_, ⟨starts, rfl, rfl⟩, rfl⟩

end Sample

/-- The temporary that the sum of the sample is given is declared, and it is the first one. -/
theorem Compile.temporaries_declared_sample :
    ∃ s, Compile.Underway {} Sample.graph Sample.sink {} .fragment {} [Sample.route] Sample.plan
        [.ofIndex 0, .ofIndex 1] [.ofIndex 2] s ∧
      TemporariesDeclared {} Sample.graph {} [Sample.route] Sample.plan [.ofIndex 2] s ∧
      s.block.Declares "_" (.temporary Sample.ty 0) := by
  obtain ⟨s, hway, hshared⟩ := Sample.exists_shared
  have h := (temporaries_declared (g := Sample.graph) (Graph.built_build _)).1 _ _ _ _ _ _ s hway
  refine ⟨s, hway, h, ?_⟩
  obtain ⟨n, args, hn, hargs, hdeclares⟩ := h.arguments _ _ rfl
  cases hn
  cases hargs.symm.trans hshared
  exact hdeclares (.temporary Sample.ty 0) List.mem_cons_self rfl

end ShaderFlow
