import ShaderFlow.Proofs.Compile.Success
import ShaderFlow.Proofs.Sharing.Balance

/-!
# Every call is written once

A character that stands in the name of one called function only is a trace of the node that calls
it. In a stage that needs the node the character is written once, and in the others not at all
(`Compile.called_name_written_once`).

The text of a stage has no character beyond the first 128 but those of names and of the lines
(`Emission.count_text`), and the lines have as much of it as their mass says.
-/

namespace ShaderFlow

variable {c : Char}

/-! ### The text of a stage -/

/-- The place that a line writes to. -/
def Line.place? : Line → Option Place
  | assign place _ => some place
  | _ => none

/-- No line of the block writes to an output. -/
def Block.Inner (b : Block) : Prop := ∀ l ∈ b.lines.toList, l.place? = none

theorem Block.Inner.push {b : Block} (h : b.Inner) {l : Line} (hl : l.place? = none) :
    ∀ l' ∈ (b.lines.push l).toList, l'.place? = none := by
  intro l' hl'
  rw [Array.toList_push, List.mem_append, List.mem_singleton] at hl'
  rcases hl' with hl' | rfl
  · exact h l' hl'
  · exact hl

theorem Script.inner_run (stem : String) (script : Script) {b : Block} (h : b.Inner) :
    (script.run stem b).1.Inner := by
  induction script generalizing b with
  | declare ty e next ih => exact ih _ (h.push rfl)
  | share v next ih =>
    rw [run]
    split
    · exact ih _ h
    · exact ih _ (h.push rfl)
  | statement e next ih => exact ih (h.push rfl)
  | answer v => exact h

theorem Emission.inner_of_schedule {o : Options} {g : Graph} {b : Backend} {roots : List NodeId}
    {plan : Schedule} {textures : TextureArray} {nodes : Emission} (hplan : plan.Sound g roots)
    (h : schedule o g b { textures } plan = .ok nodes) : nodes.block.Inner := by
  refine schedule_induction (P := fun _ s => s.block.Inner) hplan h (by simp [Block.Inner]) ?_
  intro done id rest s s' n args path _ hinner _ hwrites
  have hrun := (n.function.script path args).inner_run o.stem hinner
  rw [hwrites.block]
  unfold code settle
  split
  · exact hrun.push rfl
  · exact hrun

theorem not_mem_append {s t : String} :
    c ∉ (s ++ t).toList ↔ c ∉ s.toList ∧ c ∉ t.toList := by
  rw [String.toList_append, List.mem_append, not_or]

theorem not_mem_join {l : List String} :
    c ∉ (String.join l).toList ↔ ∀ s ∈ l, c ∉ s.toList := by
  simp [String.toList_join]

theorem not_mem_repr (hc : 128 ≤ c.toNat) (n : Nat) : c ∉ (Nat.repr n).toList :=
  (isAscii_repr n).not_mem hc

theorem Ty.not_mem_name (hc : 128 ≤ c.toNat) (t : Ty) : c ∉ t.name.toList :=
  t.isAscii_name.not_mem hc

theorem Place.not_mem_render (hc : 128 ≤ c.toNat) {output : Output}
    (hname : c ∉ output.name.toList) (selector : Selector) :
    c ∉ (output.place selector).render.toList := by
  have hletter := fun channel => (isAscii_componentLetter channel).not_mem hc
  unfold Output.place
  split
  · exact hname
  · split <;>
      simp (disch := first | assumption | decide) only [render, not_mem_append, IsAscii.not_mem,
        not_mem_repr, hname, hletter, not_false_eq_true, and_self]

theorem Line.count_render (hc : 128 ≤ c.toNat) {stem : String} (hstem : c ∉ stem.toList) {l : Line}
    (hplace : ∀ place, l.place? = some place → c ∉ place.render.toList) :
    (l.render stem).toList.count c = l.mass c := by
  cases l with
  | declare ty i e =>
    simp (disch := first | assumption | decide) only [render, body, mass, String.toList_append,
      List.count_append, IsAscii.count_eq_zero, ty.isAscii_name.count_eq_zero hc,
      List.count_eq_zero_of_not_mem (Expr.not_mem_name hc hstem i), Expr.count_render,
      Nat.zero_add, Nat.add_zero]
  | statement e =>
    simp (disch := first | assumption | decide) only [render, body, mass, String.toList_append,
      List.count_append, IsAscii.count_eq_zero, Expr.count_render, Nat.zero_add, Nat.add_zero]
  | assign place e =>
    simp (disch := first | assumption | decide) only [render, body, mass, String.toList_append,
      List.count_append, IsAscii.count_eq_zero, List.count_eq_zero_of_not_mem (hplace place rfl),
      Expr.count_render, Nat.zero_add, Nat.add_zero]

theorem Block.count_render (hc : 128 ≤ c.toNat) {stem : String} (hstem : c ∉ stem.toList)
    {b : Block}
    (hplaces : ∀ l ∈ b.lines.toList, ∀ place, l.place? = some place → c ∉ place.render.toList) :
    (b.render stem).toList.count c = b.mass c := by
  rw [render, String.toList_join, List.flatMap_map, List.count_flatMap, mass]
  exact congrArg List.sum (List.map_congr_left fun l hl =>
    Line.count_render hc hstem (hplaces l hl))

theorem Resource.not_mem_declareInputs (hc : 128 ≤ c.toNat) {fields : List Field}
    (h : ∀ f ∈ fields, c ∉ f.name.toList) (location : Nat) :
    ∀ s ∈ declareInputs location fields, c ∉ s.toList := by
  induction fields generalizing location with
  | nil => exact nofun
  | cons f fields ih =>
    refine List.forall_mem_cons.2 ⟨?_, ih (fun f hf => h f (List.mem_cons_of_mem _ hf)) _⟩
    simp (disch := first | assumption | decide) only [not_mem_append, IsAscii.not_mem,
      not_mem_repr, Ty.not_mem_name, h f List.mem_cons_self, not_false_eq_true, and_self]

/-- A declaration has no characters but plain ones and those of its names. -/
theorem Resource.not_mem_declaration (hc : 128 ≤ c.toNat) {r : Resource}
    (h : ∀ s ∈ r.descriptor.names, c ∉ s.toList) : c ∉ r.declaration.toList := by
  unfold declaration
  split
  next set name block fields hd =>
    rw [hd] at h
    simp only [Descriptor.names, List.forall_mem_cons, List.forall_mem_map] at h
    obtain ⟨hname, hblock, hfields⟩ := h
    have hlines : c ∉ (String.join (fields.map fun f =>
        "    " ++ f.ty.name ++ " " ++ f.name ++ ";\n")).toList := by
      rw [not_mem_join, List.forall_mem_map]
      intro f hf
      simp (disch := first | assumption | decide) only [not_mem_append, IsAscii.not_mem,
        Ty.not_mem_name, hfields f hf, not_false_eq_true, and_self]
    unfold declareBinding
    simp (disch := first | assumption | decide) only [not_mem_append, IsAscii.not_mem,
      not_mem_repr, hname, hblock, hlines, not_false_eq_true, and_self]
  next set name count hd =>
    rw [hd] at h
    have hname := h name (by simp [Descriptor.names])
    unfold declareBinding
    simp (disch := first | assumption | decide) only [not_mem_append, IsAscii.not_mem,
      not_mem_repr, hname, not_false_eq_true, and_self]
  next name fields hd =>
    rw [hd] at h
    refine not_mem_join.2 (not_mem_declareInputs hc (fun f hf => h f.name ?_) r.slot)
    exact List.mem_cons_of_mem _ (List.mem_map_of_mem hf)

theorem Output.not_mem_declaration (hc : 128 ≤ c.toNat) {output : Output}
    (hname : c ∉ output.name.toList) : c ∉ output.declaration.toList := by
  unfold declaration
  split
  · simp
  · simp (disch := first | assumption | decide) only [not_mem_append, IsAscii.not_mem,
      not_mem_repr, Ty.not_mem_name, hname, not_false_eq_true, and_self]

theorem not_mem_versionHeader (hc : 128 ≤ c.toNat) (version : Nat) :
    c ∉ (versionHeader version).toList := by
  unfold versionHeader
  split <;>
    simp (disch := first | assumption | decide +kernel) only [not_mem_append, IsAscii.not_mem,
      not_mem_repr, not_false_eq_true, and_self]

/-- In the text of a stage, a character that no name has is written as often as it stands in the
lines. -/
theorem Emission.count_text {o : Options} {b : Backend} {s : Emission} {outputs : List Output}
    (hc : 128 ≤ c.toNat) (hstem : c ∉ o.stem.toList) (hb : b.Avoids c)
    (houtputs : ∀ output ∈ outputs, c ∉ output.name.toList)
    (hplaces : ∀ l ∈ s.block.lines.toList, ∀ place, l.place? = some place →
      c ∉ place.render.toList) :
    (s.text o b outputs).toList.count c = s.block.mass c := by
  have hresources : c ∉ (String.join (s.used.map fun h => (b.declaration? h).getD "")).toList := by
    rw [not_mem_join, List.forall_mem_map]
    intro handle _
    cases hr : b.resource? handle with
    | none => simp [Backend.declaration?, hr]
    | some r =>
      simp only [Backend.declaration?, hr, Option.map_some, Option.getD_some]
      exact r.not_mem_declaration hc (hb.names r (List.mem_of_find?_eq_some hr))
  have hdeclarations : c ∉ (String.join (outputs.map Output.declaration)).toList := by
    rw [not_mem_join, List.forall_mem_map]
    exact fun output houtput => output.not_mem_declaration hc (houtputs output houtput)
  simp (disch := first | assumption | decide) only [text, String.toList_append, List.count_append,
    List.count_eq_zero_of_not_mem (not_mem_versionHeader hc o.version),
    List.count_eq_zero_of_not_mem hresources, List.count_eq_zero_of_not_mem hdeclarations,
    IsAscii.count_eq_zero, Block.count_render, Nat.zero_add, Nat.add_zero]

/-! ### One stage -/

theorem Emission.sum_mass_assigned {s : Emission} {routes : List Route} {lines : List Line}
    (h : List.Forall₂ s.AssignedBy routes lines) :
    (lines.map (Line.mass c)).sum = ((routes.map (·.source)).map (s.weight c)).sum := by
  induction h with
  | nil => rfl
  | cons hassigned _ ih =>
    obtain ⟨value, hvalue, rfl⟩ := hassigned
    simp [Line.mass, weight, hvalue, ih]

namespace Compile.StageRun

variable {o : Options} {g : Graph} {k : Sink} {b : Backend} {textures : TextureArray}
  {stage : Stage} {routes : List Route} {plan : Schedule} {nodes s : Emission}

/-- In a stage that was written, the lines have the mass of the target if it was scheduled. -/
theorem mass_block (h : StageRun o g k b textures stage routes plan nodes s) {target : NodeId}
    (hc : 128 ≤ c.toNat) (hstem : c ∉ o.stem.toList) (hg : g.WellFormed) (hb : b.Avoids c)
    (hown : ∀ id n, g.node? id = some n → n.function.IsOwn)
    (hcalled : ∀ id n, g.node? id = some n →
      (n.function.calls?.getD "").toList.count c = (decide (id = target)).toNat) :
    s.block.mass c = (decide (target ∈ plan.order)).toNat := by
  have hbalanced :=
    Emission.balanced_of_schedule hc hstem hg hb (h.sound hg) h.nodes_eq hown hcalled
  obtain ⟨assigned, hassigned, rfl⟩ := Emission.assignAll_eq_ok h.assigned
  rw [← hbalanced, List.flatMap_nil, List.append_nil, ← Emission.sum_mass_assigned hassigned]
  simp [Block.mass]

theorem not_mem_place (h : StageRun o g k b textures stage routes plan nodes s)
    (hc : 128 ≤ c.toNat) (hg : g.WellFormed)
    (houtputs : ∀ output ∈ k.outputs, c ∉ output.name.toList) :
    ∀ l ∈ s.block.lines.toList, ∀ place, l.place? = some place → c ∉ place.render.toList := by
  obtain ⟨assigned, hassigned, rfl⟩ := Emission.assignAll_eq_ok h.assigned
  intro l hl place hplace
  rw [Array.toList_append, List.mem_append] at hl
  rcases hl with hl | hl
  · cases (Emission.inner_of_schedule (h.sound hg) h.nodes_eq l hl).symm.trans hplace
  · obtain ⟨r, hr, value, -, rfl⟩ := exists_left_of_forall₂ hassigned hl
    cases hplace
    obtain ⟨link, -, houtput, -⟩ := exists_left_of_forall₂ (Sink.forall₂_of_routes h.routes_eq) hr
    exact Place.not_mem_render hc (houtputs r.output (List.mem_of_getElem? houtput)) r.selector

end Compile.StageRun

namespace Compile

variable {o : Options} {g : Graph} {k : Sink} {b : Backend}

/-- **Every call is written once.** A character beyond the first 128 that stands once in the name
that a node calls, and in no other name, is written once in every stage that needs the node, and
not at all in the others. -/
theorem called_name_written_once {shader : Shader} {id : NodeId} {n : Node} {name : String}
    {inputs : List Input} {output : Ty} {valid : (Op.call name inputs output).check = .ok ()}
    (hg : g.Built) (hown : ∀ id n, g.node? id = some n → n.function.IsOwn)
    (h : (compile o g k b).result = .ok shader) (hn : g.node? id = some n)
    (hcall : n.function = .library (.call name inputs output) valid) (hc : 128 ≤ c.toNat)
    (hone : name.toList.count c = 1)
    (hothers : ∀ id' n' name' inputs' output' valid', id' ≠ id → g.node? id' = some n' →
      n'.function = .library (.call name' inputs' output') valid' → c ∉ name'.toList)
    (hb : b.Avoids c) (houtputs : ∀ output ∈ k.outputs, c ∉ output.name.toList)
    (hstem : c ∉ o.stem.toList) :
    ∀ stage text, (stage, text) ∈ shader.stages →
      ((∃ source, k.Feeds stage source ∧ g.Reaches source id) → text.toList.count c = 1) ∧
        ((¬ ∃ source, k.Feeds stage source ∧ g.Reaches source id) → text.toList.count c = 0) := by
  intro stage text hmem
  have hwf := hg.wellFormed
  have hcalled : ∀ id' n', g.node? id' = some n' →
      (n'.function.calls?.getD "").toList.count c = (decide (id' = id)).toNat := by
    intro id' n' hn'
    by_cases hid : id' = id
    · subst hid
      cases hn.symm.trans hn'
      simpa [hcall, Function.calls?] using hone
    · have hnone : c ∉ (n'.function.calls?.getD "").toList := by
        intro hmem
        obtain ⟨name', inputs', output', valid', hf, hmem⟩ := Function.exists_of_mem_calls? hmem
        exact hothers id' n' name' inputs' output' valid' hid hn' hf hmem
      rw [List.count_eq_zero_of_not_mem hnone, decide_eq_false hid]
      rfl
  have htext : StageText o g k b shader.textures stage text :=
    (stageText_of_compile hwf h).2 (stage, text) hmem
  obtain ⟨textures, routes, plan, nodes, s, hrun, -, rfl⟩ := htext
  have houtputsOf : ∀ output ∈ k.outputsOf stage, c ∉ output.name.toList := fun output ho =>
    houtputs output (List.mem_of_mem_filter ho)
  rw [Emission.count_text hc hstem hb houtputsOf (hrun.not_mem_place hc hwf houtputs),
    hrun.mass_block hc hstem hwf hb hown hcalled, ← hrun.mem_order hwf]
  exact ⟨fun hid => by simp [hid], fun hid => by simp [hid]⟩

/-- The sample mentions the value of its call twice, and calls once. -/
theorem called_name_written_once_sample :
    ∃ shader text, (compile {} Sample.graph Sample.sink {}).result = .ok shader ∧
      (.fragment, text) ∈ shader.stages ∧ text.toList.count 'ñ' = 1 := by
  obtain ⟨shader, h⟩ := Sample.exists_compile
  obtain ⟨text, htext⟩ := exists_text (Graph.built_build _).wellFormed h
    (show Stage.fragment ∈ Sample.sink.stages by decide)
  have hcall : Sample.graph.node? (.ofIndex 1) = some ⟨Sample.call, [some (.ofIndex 0)]⟩ := rfl
  have hwire : Sample.graph.Wire (.ofIndex 2) (.ofIndex 1) := List.mem_cons_self
  refine ⟨shader, text, h, htext, ?_⟩
  refine (called_name_written_once (g := Sample.graph) (Graph.built_build _)
    (Graph.forall_node? (by decide)) h hcall rfl (by decide) (by decide) ?_ ⟨nofun, nofun⟩
    (by decide) (by decide) _ text htext).1 ⟨_, Sample.feeds, .head hwire (.refl _)⟩
  intro id n name inputs output valid hid hn hf
  have hothers : ∀ id ∈ Sample.graph.ids, id ≠ .ofIndex 1 →
      (Sample.graph.node? id).bind (·.function.calls?) = none := by decide
  have hnone := hothers id (Sample.graph.mem_ids.2 (by simp [Graph.contains, hn])) hid
  rw [hn, Option.bind_some, hf] at hnone
  cases hnone

end Compile

end ShaderFlow
