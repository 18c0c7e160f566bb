import ShaderFlow.Proofs.Compile.Success
import ShaderFlow.Proofs.Sharing.Faithful

/-!
# Sharing preserves meaning

The naive expression of a node has everything it depends on written out, over and over if need be
(`Graph.Expands`). What a stage assigns has temporaries in it instead. When they are replaced by
what they are declared as, all the way down, the naive text comes out
(`Compile.assigned_text_expands`).

The invariant `Emission.Meant` goes along the schedule: every value is faithful to the naive
expression of its node.
-/

namespace ShaderFlow

/-- The expression of a node with nothing shared: the code of its function, written out for the
naive expressions of its inputs, with every temporary replaced by its value. -/
inductive Graph.Expands (g : Graph) (access : Requirement → Option String) :
    NodeId → Operand → Prop
  | node {id : NodeId} {n : Node} {sources : List NodeId} {args : List Operand}
      (hn : g.node? id = some n) (hinputs : n.inputs = sources.map some)
      (hargs : List.Forall₂ (Expands g access) sources args) :
      Expands g access id (n.function.script (n.function.requirement.bind access) args).expand

/-- A node has no more than one naive expression. -/
theorem Graph.Expands.unique {g : Graph} {access : Requirement → Option String} {id : NodeId}
    {v w : Operand} (hv : g.Expands access id v) (hw : g.Expands access id w) : v = w := by
  -- the induction goes over the lists of arguments at the same time
  refine @Graph.Expands.rec g access (fun id v _ => ∀ w, g.Expands access id w → v = w)
    (fun sources args _ => ∀ args', List.Forall₂ (g.Expands access) sources args' → args = args')
    ?_ ?_ ?_ id v hv w hw
  · rintro id n sources args hn hinputs - ih w ⟨hn', hinputs', hargs'⟩
    cases hn.symm.trans hn'
    cases List.map_injective_iff.2 (fun _ _ => Option.some.inj) (hinputs.symm.trans hinputs')
    rw [ih _ hargs']
  · rintro args' ⟨⟩
    rfl
  · rintro source arg sources args - - ih ihs args' (_ | ⟨h, hs⟩)
    rw [ih _ h, ihs _ hs]

namespace Emission

variable {A : Alphabet} {o : Options} {g : Graph} {b : Backend} {s s' : Emission}
  {access : Requirement → Option String}

/-- Each value is faithful to the naive expression of its node, which has no temporaries. -/
structure Meant (A : Alphabet) (o : Options) (g : Graph) (access : Requirement → Option String)
    (s : Emission) : Prop where
  /-- The lines declare temporaries. -/
  tidy : s.block.Tidy A o.stem
  /-- The values are faithful. -/
  values : ∀ id v, s.value? id = some v → ∃ w, g.Expands access id w ∧ w.expr.temporaries = [] ∧
    v.expr.Faithful A o.stem s.block w.expr

theorem Meant.initial (textures : TextureArray) : Meant A o g access { textures } :=
  ⟨Block.tidy_empty, nofun⟩

/-- The naive expressions of a node's sources, for arguments that are their values. -/
theorem Meant.exists_wholes (h : Meant A o g access s) {sources : List NodeId}
    {args : List Operand}
    (hargs : List.Forall₂ (fun source value => s.value? source = some value) sources args) :
    ∃ wholes, List.Forall₂ (g.Expands access) sources wholes ∧
      (∀ w ∈ wholes, w.expr.temporaries = []) ∧
      List.Forall₂ (fun v w => Expr.Faithful A o.stem s.block v.expr w.expr) args wholes := by
  induction hargs with
  | nil => exact ⟨[], .nil, nofun, .nil⟩
  | @cons source value _ _ hvalue _ ih =>
    obtain ⟨w, hw, hnone, hfaithful⟩ := h.values source value hvalue
    obtain ⟨wholes, hwholes, hnones, hfaithfuls⟩ := ih
    exact ⟨w :: wholes, .cons hw hwholes, List.forall_mem_cons.2 ⟨hnone, hnones⟩,
      .cons hfaithful hfaithfuls⟩

theorem temporaries_argument {wholes : List Operand} (h : ∀ w ∈ wholes, w.expr.temporaries = [])
    (i : Nat) : (Op.argument wholes i).temporaries = [] := by
  unfold Op.argument Op.operand
  cases hi : wholes[i]? with
  | none => rfl
  | some w => exact h w (List.mem_of_getElem? hi)

/-- Writing a node keeps all values faithful and makes its own so. -/
theorem Meant.write {shared : Bool} {id : NodeId} {n : Node} {args : List Operand}
    {path : Option String} (h : Meant A o g access s)
    (hwrites : Writes o g b s shared id n args path s') (hwired : n.Wired)
    (hslots : n.inputs.length = n.signature.arity) (hown : n.function.IsOwn)
    (hpath : path = n.function.requirement.bind access)
    (hclean : ∀ t ∈ (n.function.template path).texts, A.Clean o.stem t) :
    Meant A o g access s' := by
  have hargs := hwrites.arguments_of_wired hwired
  obtain ⟨wholes, hwholes, hnones, hfaithful⟩ := h.exists_wholes hargs
  have hlen := hwrites.length_arguments hslots
  obtain ⟨hgrows, hvalue⟩ := Function.faithful_run hown hclean h.tidy hlen hfaithful
  obtain ⟨hgrows, hvalue⟩ :=
    Function.faithful_settle shared n.function.isTrivial hgrows hvalue
  rw [← Emission.code, ← hwrites.block] at hgrows hvalue
  refine ⟨hgrows.tidy, fun x v hv => ?_⟩
  rw [hwrites.value?] at hv
  split_ifs at hv with hx
  · cases hv
    subst hx
    refine ⟨_, hpath ▸ .node hwrites.node hwired.inputs_eq hwholes, ?_, hvalue⟩
    rw [Function.expand_expr_eq hown (hfaithful.length_eq ▸ hlen), Expr.temporaries_subst]
    simp [temporaries_argument hnones]
  · obtain ⟨w, hw, hnone, hv⟩ := h.values x v hv
    exact ⟨w, hw, hnone, hv.mono hgrows⟩

theorem meant_of_schedule {roots : List NodeId} {plan : Schedule} {textures : TextureArray}
    {nodes : Emission} {final : List Texture} (hg : g.WellFormed) (hplan : plan.Sound g roots)
    (h : schedule o g b { textures } plan = .ok nodes) (hfinal : nodes.textures.textures <+: final)
    (hown : ∀ id n, g.node? id = some n → n.function.IsOwn)
    (hclean : ∀ id ∈ plan.order, ∀ n, g.node? id = some n →
      ∀ t ∈ (n.function.template (n.function.requirement.bind (b.access? final))).texts,
        A.Clean o.stem t) :
    Meant A o g (b.access? final) nodes := by
  have hend := ran_of_schedule hplan h
  refine (schedule_induction
    (P := fun done s => Ran g b textures.textures done s ∧ Meant A o g (b.access? final) s)
    hplan h ⟨Ran.initial textures, Meant.initial textures⟩ ?_).2
  rintro done id rest s s' n args path horder ⟨hran, hmeant⟩ hwired hwrites
  have hran' := hran.write hwrites
  refine ⟨hran', ?_⟩
  -- the textures have the places that they have in the end, so the access expressions agree
  have hpre : s'.textures.textures <+: final := by
    rw [horder, List.append_cons] at hend
    exact (hran'.prefix_textures hend).trans hfinal
  have hpath := hwrites.path_eq_of_isPrefix hpre
  refine hmeant.write hwrites hwired (hg.slots hwrites.node) (hown id n hwrites.node) hpath ?_
  rw [hpath]
  exact hclean id (by simp [horder]) n hwrites.node

end Emission

/-! ### Assignments -/

/-- The names that the lines of a block define, the newest first. -/
def Block.definitions (stem : String) (b : Block) : List (List Char × List Char) :=
  b.lines.toList.reverse.filterMap (Line.definition? stem)

/-- The line assigns a value to the place of the link. When all temporaries of the value's text are
replaced by what they are defined as, it is the text of the naive expression of the link's source,
of which there is one only and which has no temporaries. -/
def Sink.Restores (k : Sink) (A : Alphabet) (stem : String) (g : Graph)
    (access : Requirement → Option String) (definitions : List (List Char × List Char)) (l : Link)
    (line : Line) : Prop :=
  ∃ output p source value whole,
    k.outputs[l.output]? = some output ∧ k.parameters[l.parameter]? = some p ∧
      p.source = some source ∧ line = .assign (output.place l.selector) value ∧
      (∀ w, g.Expands access source w ↔ w = whole) ∧ whole.expr.temporaries = [] ∧
      A.expand definitions (value.render stem).toList = (whole.expr.render stem).toList

/-- A faithful value is restored by the definitions of its block. -/
theorem Block.Tidy.expand_render {A : Alphabet} {stem : String} {b : Block} (hb : b.Tidy A stem)
    (hstem : ∀ c ∈ stem.toList, A.isIdent c = true) {e e' : Expr}
    (h : e.Faithful A stem b e') (hnone : e'.temporaries = []) :
    A.expand (b.definitions stem) (e.render stem).toList = (e'.render stem).toList := by
  have hsatisfied : b.Satisfied (Line.reading A stem b.lines.toList.reverse) :=
    fun ty i e hmem => hb.numbered.reading_eq hstem (List.mem_reverse.2 hmem)
  calc A.expand (b.definitions stem) (e.render stem).toList
      = (e.renderWith (Line.reading A stem b.lines.toList.reverse)).toList :=
        h.legible.expand_render hstem (Line.names_of_definitions stem _)
    _ = (e'.renderWith (Line.reading A stem b.lines.toList.reverse)).toList := by
        rw [h.same _ hsatisfied]
    _ = (e'.render stem).toList := by
        rw [Expr.render_eq_renderWith, Expr.renderWith_congr (by simp [hnone])]

namespace Compile

/-- The text is that of a run of the stage, whose declarations are followed by one assignment for
each link of the stage. The value of each assignment is the naive expression of the link's source
once temporaries are replaced by what they are declared as. -/
def Restored (A : Alphabet) (o : Options) (g : Graph) (k : Sink) (b : Backend)
    (access : Requirement → Option String) (stage : Stage) (text : String) : Prop :=
  ∃ textures routes plan nodes s declared assigned,
    StageRun o g k b textures stage routes plan nodes s ∧
      text = s.text o b (k.outputsOf stage) ∧ s.block.lines.toList = declared ++ assigned ∧
      (∀ l ∈ declared, ∃ ty i e, l = .declare ty i e) ∧
      List.Forall₂ (k.Restores A o.stem g access (s.block.definitions o.stem)) (k.linksTo stage)
        assigned

variable {A : Alphabet} {o : Options} {g : Graph} {k : Sink} {b : Backend}

/-- **Sharing preserves meaning** in every stage of a shader, if temporaries are named by
identifiers and no text that the functions write themselves has the name of one. -/
theorem assigned_text_expands {shader : Shader} (hg : g.Built)
    (hown : ∀ id n, g.node? id = some n → n.function.IsOwn)
    (h : (compile o g k b).result = .ok shader)
    (hstem : ∀ c ∈ o.stem.toList, A.isIdent c = true)
    (hclean : ∀ stage source id n, k.Feeds stage source → g.Reaches source id →
      g.node? id = some n → ∀ t ∈ (n.function.template
        (n.function.requirement.bind (b.access? shader.textures.textures))).texts,
          A.Clean o.stem t) :
    ∀ stage text, (stage, text) ∈ shader.stages →
      Restored A o g k b (b.access? shader.textures.textures) stage text := by
  intro stage text hmem
  have hwf := hg.wellFormed
  have htext : StageText o g k b shader.textures stage text :=
    (stageText_of_compile hwf h).2 (stage, text) hmem
  obtain ⟨textures, routes, plan, nodes, s, hrun, hpre, rfl⟩ := htext
  obtain ⟨assigned, hassigned, rfl⟩ := Emission.assignAll_eq_ok hrun.assigned
  have hmeant : Emission.Meant A o g (b.access? shader.textures.textures) nodes :=
    Emission.meant_of_schedule hwf (hrun.sound hwf) hrun.nodes_eq hpre hown
      fun id hid n hn => by
        obtain ⟨source, hfeeds, hpath⟩ := (hrun.mem_order hwf).1 hid
        exact hclean stage source id n hfeeds hpath hn
  refine ⟨textures, routes, plan, nodes, _, nodes.block.lines.toList, assigned, hrun, rfl,
    by simp, fun l hl => hmeant.tidy.numbered.exists_eq_declare (List.mem_reverse.2 hl), ?_⟩
  have hdefinitions : Block.definitions o.stem
      { nodes.block with lines := nodes.block.lines ++ assigned.toArray } =
        nodes.block.definitions o.stem := by
    have hnone : assigned.reverse.filterMap (Line.definition? o.stem) = [] := by
      refine List.filterMap_eq_nil_iff.2 fun l hl => ?_
      obtain ⟨r, -, value, -, rfl⟩ := exists_left_of_forall₂ hassigned (List.mem_reverse.1 hl)
      rfl
    simp [Block.definitions, hnone]
  rw [hdefinitions]
  refine forall₂_trans ?_ (Sink.forall₂_of_routes hrun.routes_eq) hassigned
  rintro l r line ⟨houtput, hselector, p, hp, hsource⟩ ⟨v, hv, rfl⟩
  obtain ⟨w, hw, hnone, hfaithful⟩ := hmeant.values r.source v hv
  refine ⟨r.output, p, r.source, v.expr, w, houtput, hp, hsource, by rw [hselector], ?_, hnone,
    hmeant.tidy.expand_render hstem hfaithful hnone⟩
  exact fun w' => ⟨fun hw' => hw'.unique hw, fun heq => heq ▸ hw⟩

end Compile

theorem Sample.mem_texts {id : NodeId} {n : Node} (hn : graph.node? id = some n)
    (path : Option String) :
    ∀ t ∈ (n.function.template path).texts, t ∈ ["7u", "ñ(", ")", "(", " + "] := by
  have hseven : (seven.template path).texts = ["7u"] := rfl
  have hcall : (call.template path).texts = ["ñ(", ")"] := rfl
  have hsum : (sum.template path).texts = ["(", " + ", ")"] := rfl
  have hnodes : graph.nodes.toList = [⟨seven, []⟩, ⟨call, [some (.ofIndex 0)]⟩,
      ⟨sum, [some (.ofIndex 1), some (.ofIndex 1)]⟩] := rfl
  refine Graph.forall_node? (P := fun n => ∀ t ∈ (n.function.template path).texts, t ∈ _) ?_ id n hn
  simp [hnodes, hseven, hcall, hsum]

/-- The value that the sample shares is written out twice again. -/
theorem Compile.assigned_text_expands_sample :
    ∃ shader text, (compile {} Sample.graph Sample.sink {}).result = .ok shader ∧
      (.fragment, text) ∈ shader.stages ∧
      Restored .ascii {} Sample.graph Sample.sink {} (Backend.access? {} shader.textures.textures)
        .fragment text := by
  obtain ⟨shader, h⟩ := Sample.exists_compile
  obtain ⟨text, htext⟩ := exists_text (Graph.built_build _).wellFormed h
    (show Stage.fragment ∈ Sample.sink.stages by decide)
  have hclean : ∀ t ∈ ["7u", "ñ(", ")", "(", " + "], Alphabet.ascii.Clean "_" t := by
    have hhead : ∀ t ∈ ["7u", "ñ(", ")", "(", " + "], ∀ token ∈ Alphabet.ascii.tokens t.toList,
        token.head? ≠ some '_' := by decide
    intro t ht token htoken i heq
    refine hhead t ht token htoken ?_
    rw [heq, Atom.name, String.toList_append]
    rfl
  refine ⟨shader, text, h, htext, ?_⟩
  exact assigned_text_expands (g := Sample.graph) (Graph.built_build _)
    (Graph.forall_node? (by decide)) h (List.forall_mem_singleton.2 rfl)
    (fun _ _ _ _ _ _ hn t ht => hclean t (Sample.mem_texts hn _ t ht)) _ text htext

end ShaderFlow
