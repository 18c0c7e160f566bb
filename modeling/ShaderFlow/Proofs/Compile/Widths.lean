import ShaderFlow.Proofs.Compile.Course
import ShaderFlow.Proofs.Compile.Success
import ShaderFlow.Proofs.Function.Widths
import ShaderFlow.Proofs.Sink.Material

/-!
# Widths hold to the end

Widths are checked when a wire is made, when a parameter is bound and when it is linked. Nothing
is checked when code is written, and nothing needs to be: in every state that compiling a material
comes through, the next node gets the arguments that its signature asks for, every value is as wide
as the output of its node, and every assignment writes a value that is as wide as its place
(`Material.widths_right`).

The argument is the same for widths and for whole types. Whatever is seen of types (`look`), if the
ends of each wire look the same and each function keeps what is seen, then each value looks like
the output of its node (`Emission.Typed`).
-/

namespace ShaderFlow

namespace Graph

variable {α : Type} {look : Ty → α} {g : Graph}

/-- Each wire leads to a node whose value looks like the input. -/
def Joins (look : Ty → α) (g : Graph) : Prop :=
  ∀ id n slot source, g.node? id = some n → n.input? slot = some source →
    ∃ input ty, n.signature.input? slot = some input ∧ g.outputType? source = some ty ∧
      look ty = look input.ty

theorem WellFormed.joins_channels (h : g.WellFormed) : g.Joins Ty.channels := by
  intro id n slot source hn hslot
  obtain ⟨input, m, hi, hm, hc⟩ := h.wires hn hslot
  exact ⟨input, m.output, hi, by simp [outputType?, hm], hc⟩

end Graph

namespace Emission

variable {α : Type} {look : Ty → α} {o : Options} {g : Graph} {b : Backend} {s s' : Emission}

theorem settle_ty (shared trivial : Bool) (code : Block × Operand) :
    (settle shared trivial code).2.ty = code.2.ty := by
  unfold settle
  split <;> rfl

/-- Each value looks like the output of its node. -/
def Typed (look : Ty → α) (g : Graph) (s : Emission) : Prop :=
  ∀ id v, s.value? id = some v → ∃ ty, g.outputType? id = some ty ∧ look v.ty = look ty

theorem typed_initial (textures : TextureArray) : Typed look g { textures } := nofun

/-- The values of a node's sources look like its inputs. -/
theorem Typed.look_arguments (h : Typed look g s) (hjoins : g.Joins look) {id : NodeId} {n : Node}
    {args : List Operand} (hn : g.node? id = some n)
    (hslots : n.inputs.length = n.signature.arity)
    (hargs : List.Forall₂ (fun input v => input.bind s.value? = some v) n.inputs args) :
    args.map (fun v => look v.ty) = n.signature.inputs.map (fun i => look i.ty) := by
  have hlen : args.length = n.signature.inputs.length := hargs.length_eq ▸ hslots
  refine List.ext_getElem (by simpa using hlen) fun slot h₁ h₂ => ?_
  simp only [List.length_map] at h₁ h₂
  have hslot : slot < n.inputs.length := by
    rw [hargs.length_eq]
    exact h₁
  have hvalue : n.inputs[slot].bind s.value? = some args[slot] :=
    (List.forall₂_iff_get.1 hargs).2 slot hslot h₁
  obtain ⟨source, hsource, hvalue⟩ := Option.bind_eq_some_iff.1 hvalue
  have hinput : n.input? slot = some source := by
    simp [Node.input?, List.getElem?_eq_getElem hslot, hsource]
  obtain ⟨input, ty, hi, hty, hlook⟩ := hjoins id n slot source hn hinput
  obtain ⟨ty', hty', hlook'⟩ := h source _ hvalue
  cases hty.symm.trans hty'
  have hi' : n.signature.inputs[slot] = input := (List.getElem?_eq_some_iff.1 hi).2
  rw [List.getElem_map, List.getElem_map, hlook', hlook, hi']

/-- Writing a node whose function keeps what is seen of types gives a value that looks right. -/
theorem Typed.write (h : Typed look g s) (hg : g.WellFormed) (hjoins : g.Joins look)
    {shared : Bool} {id : NodeId} {n : Node} {args : List Operand} {path : Option String}
    (hkeeps : n.function.Keeps look) (hwrites : Writes o g b s shared id n args path s') :
    Typed look g s' := by
  intro x v hv
  rw [hwrites.value?] at hv
  split_ifs at hv with hx
  · cases hv
    subst hx
    refine ⟨n.output, by simp [Graph.outputType?, hwrites.node], ?_⟩
    rw [code, settle_ty]
    exact hkeeps path args o.stem s.block
      (h.look_arguments hjoins hwrites.node (hg.slots hwrites.node) hwrites.arguments)
  · exact h x v hv

end Emission

/-- The value is as wide as the place that the route writes: the whole output, or one channel. -/
def Route.Takes (r : Route) (v : Operand) : Prop :=
  match r.selector with
  | .whole => v.ty.channels = r.output.ty.channels
  | .channel _ => v.ty.channels = 1

theorem Route.takes_iff {r : Route} {v : Operand} :
    r.Takes v ↔ v.ty.channels = r.selector.width r.output.ty := by
  unfold Takes Selector.width
  cases r.selector <;> rfl

namespace Compile

variable {α : Type} {look : Ty → α} {o : Options} {g : Graph} {k : Sink} {b : Backend}
  {stage : Stage} {textures : TextureArray} {routes : List Route} {plan : Schedule}
  {done rest : List NodeId} {s : Emission}

/-- Values look right in every state that compiling comes through. -/
theorem Underway.typed (h : Underway o g k b stage textures routes plan done rest s)
    (hg : g.WellFormed) (hjoins : g.Joins look)
    (hkeeps : ∀ id n, g.node? id = some n → n.function.Keeps look) : s.Typed look g :=
  Emission.writeNodes_induction (P := fun _ s => s.Typed look g) (h.sound hg) h.order h.written
    (Emission.typed_initial textures) fun _ id _ _ _ n _ _ _ htyped _ hwrites =>
      htyped.write hg hjoins (hkeeps id n hwrites.node) hwrites

/-- All widths are right in a state of a stage, with these routes and the rest of its plan to
come. -/
structure WidthsRight (g : Graph) (routes : List Route) (rest : List NodeId) (s : Emission) :
    Prop where
  /-- The next node finds its arguments, its signature accepts them, and its code reads none that
  is missing. -/
  accepts : ∀ id later, rest = id :: later → ∃ n args, g.node? id = some n ∧
    s.arguments (g.label id) 0 n.inputs = .ok args ∧
    n.signature.accepts (args.map Operand.ty) = true ∧
    ∀ path, n.function.script? path args = some (n.function.script path args)
  /-- Values are as wide as the outputs of their nodes. -/
  values : ∀ id v, s.value? id = some v →
    ∃ n, g.node? id = some n ∧ v.ty.channels = n.output.channels
  /-- When all nodes are written, each route becomes an assignment of a value that is as wide as
  the place that it is written to. -/
  assigns : rest = [] → ∃ lines,
    s.assignAll routes =
        .ok { s with block := { s.block with lines := s.block.lines ++ lines.toArray } } ∧
      List.Forall₂ (fun r line => ∃ v, s.value? r.source = some v ∧ r.Takes v ∧
        line = .assign (r.output.place r.selector) v.expr) routes lines

end Compile

namespace Material

open Compile

variable {m : Material} {o : Options} {b : Backend} {stage : Stage} {textures : TextureArray}
  {routes : List Route} {plan : Schedule} {done rest : List NodeId} {s : Emission}

/-- The values of the sources of all routes are known when all nodes are written, and each is as
wide as its place. -/
theorem Sound.exists_assignments (hm : m.Sound)
    (h : Underway o m.graph m.sink b stage textures routes plan done [] s)
    (htyped : s.Typed Ty.channels m.graph) :
    ∃ lines,
      s.assignAll routes =
          .ok { s with block := { s.block with lines := s.block.lines ++ lines.toArray } } ∧
        List.Forall₂ (fun r line => ∃ v, s.value? r.source = some v ∧ r.Takes v ∧
          line = .assign (r.output.place r.selector) v.expr) routes lines := by
  obtain ⟨s', hs'⟩ := Emission.exists_assignAll (h.isSome_value? hm.graph)
  obtain ⟨lines, hlines, rfl⟩ := Emission.assignAll_eq_ok hs'
  have hwidth : ∀ r ∈ routes, ∀ v, s.value? r.source = some v → r.Takes v := by
    intro r hr v hv
    obtain ⟨ty, hty, hc⟩ := hm.route_width h.routes_eq hr
    obtain ⟨ty', hty', hc'⟩ := htyped r.source v hv
    cases hty.symm.trans hty'
    rw [Route.takes_iff, hc', hc]
  refine ⟨lines, hs', ?_⟩
  rw [List.forall₂_iff_get] at hlines ⊢
  refine ⟨hlines.1, fun i h₁ h₂ => ?_⟩
  obtain ⟨v, hv, hline⟩ := hlines.2 i h₁ h₂
  exact ⟨v, hv, hwidth _ (List.getElem_mem h₁) v hv, hline⟩

/-- **Widths hold to the end.** Whatever the edits that led to a material, and whatever compiling
it comes to in the end, all widths are right in every state that compiling comes through, if the
functions that users have written answer values as wide as their outputs. Without such functions,
and if each wire joins ends of the same type, each value has the very type of its node's output. -/
theorem widths_right (hm : m.Built)
    (husers : ∀ id n u, m.graph.node? id = some n → n.function = .user u →
      ∀ path args stem block, u.signature.accepts (args.map Operand.ty) = true →
        ((u.script path args).run stem block).2.ty.channels = u.signature.output.channels)
    (h : Underway o m.graph m.sink b stage textures routes plan done rest s) :
    WidthsRight m.graph routes rest s ∧
      ((∀ id n, m.graph.node? id = some n → n.function.IsOwn) →
        m.graph.Joins (fun ty => ty) → ∀ id v, s.value? id = some v →
          ∃ n, m.graph.node? id = some n ∧ v.ty = n.output) := by
  have hg := hm.sound.graph
  have hkeeps : ∀ id n, m.graph.node? id = some n → n.function.Keeps Ty.channels := by
    intro id n hn
    by_cases hown : n.function.IsOwn
    · exact Function.keeps_of_isOwn Ty.channels hown
    · obtain ⟨u, hu⟩ : ∃ u, n.function = .user u := by simpa [Function.IsOwn] using hown
      rw [hu]
      intro path args stem block hargs
      refine husers id n u hn hu path args stem block ((Signature.accepts_iff _).2 ?_)
      simpa [Function.signature, Function.comp_def] using hargs
  have htyped := h.typed hg hg.joins_channels hkeeps
  have hvalues : ∀ {α : Type} {look : Ty → α}, s.Typed look m.graph → ∀ id v,
      s.value? id = some v → ∃ n, m.graph.node? id = some n ∧ look v.ty = look n.output := by
    intro α look htyped id v hv
    obtain ⟨ty, hty, hlook⟩ := htyped id v hv
    obtain ⟨n, hn, rfl⟩ := Option.map_eq_some_iff.1 hty
    exact ⟨n, hn, hlook⟩
  refine ⟨⟨?_, hvalues htyped, ?_⟩, fun hown hjoins => ?_⟩
  · rintro id later rfl
    obtain ⟨n, args, hn, hargs⟩ := h.exists_arguments hg
    have hlook := htyped.look_arguments hg.joins_channels hn (hg.slots hn)
      (Emission.arguments_eq_ok.1 hargs)
    have haccepts : n.signature.accepts (args.map Operand.ty) = true := by
      rw [Signature.accepts_iff, List.map_map]
      exact hlook
    have hlen : args.length = n.signature.arity := by
      simpa using n.signature.length_of_accepts haccepts
    exact ⟨n, args, hn, hargs, haccepts, Function.script?_eq_some hlen⟩
  · rintro rfl
    exact hm.sound.exists_assignments h htyped
  · exact hvalues (h.typed hg hjoins fun id n hn => Function.keeps_of_isOwn _ (hown id n hn))

end Material

/-! ### A sample -/

namespace Sample

/-- The graph and the sink are made in turns. -/
theorem built_material : Material.Built ⟨graph, sink⟩ :=
  ⟨[.graph (.add seven), .output ⟨"color", .fragment, 0, ty⟩,
    .graph (.addWired call [.ofIndex 0]), .parameter "value" ty,
    .graph (.addWired sum [.ofIndex 1, .ofIndex 1]), .bind 0 (.ofIndex 2), .link 0 0 .whole], rfl⟩

theorem joins_same : graph.Joins fun ty => ty := by
  intro id n slot source hn hslot
  have hall : ∀ n ∈ graph.nodes.toList,
      n.output = ty ∧ ∀ input ∈ n.signature.inputs, input.ty = ty := by decide
  have hwf : graph.WellFormed := (Graph.built_build _).wellFormed
  obtain ⟨input, m, hinput, hm, -⟩ := hwf.wires hn hslot
  refine ⟨input, m.output, hinput, by simp [Graph.outputType?, hm], ?_⟩
  exact (hall m (Graph.mem_nodes_of_node? hm)).1.trans
    ((hall n (Graph.mem_nodes_of_node? hn)).2 input (List.mem_of_getElem? hinput)).symm

end Sample

/-- Compiling the sample comes to the sum with the value of the call known, and all types are
right. -/
theorem Material.widths_right_sample :
    ∃ textures routes plan done rest s,
      Compile.Underway {} Sample.graph Sample.sink {} .fragment textures routes plan done
          (.ofIndex 2 :: rest) s ∧
        Compile.WidthsRight Sample.graph routes (.ofIndex 2 :: rest) s ∧
        ∀ id v, s.value? id = some v → ∃ n, Sample.graph.node? id = some n ∧ v.ty = n.output := by
  have hown : ∀ id n, Sample.graph.node? id = some n → n.function.IsOwn :=
    Graph.forall_node? (by decide)
  obtain ⟨shader, hok⟩ := Sample.exists_compile
  obtain ⟨textures, routes, plan, done, rest, s, hway⟩ :=
    Compile.exists_underway (Graph.built_build _).wellFormed hok (by decide) Sample.feeds (.refl _)
  obtain ⟨hwidths, htypes⟩ := widths_right Sample.built_material
    (fun id n u hn hu => absurd hu (hown id n hn u)) hway
  refine ⟨textures, routes, plan, done, rest, s, hway, hwidths, ?_⟩
  exact htypes hown Sample.joins_same

end ShaderFlow
