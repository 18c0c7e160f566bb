import ShaderFlow.Proofs.Compile.Composed
import ShaderFlow.Proofs.Compile.Success
import ShaderFlow.Proofs.Text.Brackets

/-!
# Composed expressions stay enclosed

Expressions are put into others as plain text, and nothing is known there of operators and their
precedence. What keeps them in one piece are brackets: if the names that callers and the backend
choose are enclosed, then every value, every declaration of a temporary and every assignment is
(`Compile.expressions_enclosed`). So no operator and no comma of one node is taken for one of the
expression around it.

The library's templates are enclosed around their arguments, and so are all literals. From there
the property goes along the schedule.
-/

namespace ShaderFlow

/-- The expression is enclosed when it is written out. -/
def Expr.WrittenEnclosed (stem : String) (e : Expr) : Prop := Enclosed (e.render stem).toList

/-! ### Functions -/

namespace Function

variable {f : Function} {stem : String} {path : Option String} {args : List Operand}

theorem writtenEnclosed_temporary (hstem : Enclosed stem.toList) (i : Nat) :
    (Expr.temporary i).WrittenEnclosed stem := by
  unfold Expr.WrittenEnclosed
  rw [Expr.render_temporary, String.toList_append]
  exact hstem.append (enclosed_repr i)

theorem writtenEnclosed_argument (h : ∀ v ∈ args, v.expr.WrittenEnclosed stem) (i : Nat) :
    (Op.argument args i).WrittenEnclosed stem := by
  unfold Op.argument Op.operand
  cases hi : args[i]? with
  | none => exact (by decide : Enclosed "".toList)
  | some v => exact h v (List.mem_of_getElem? hi)

/-- A function of enclosed arguments declares enclosed expressions and answers one. -/
theorem composes_enclosed (hf : f.IsOwn) (hstem : Enclosed stem.toList)
    (hcall : ∀ function ∈ f.calls?, Enclosed function.toList)
    (hpath : ∀ p ∈ path, Enclosed p.toList) (hlen : args.length = f.signature.arity)
    (hargs : ∀ v ∈ args, v.expr.WrittenEnclosed stem) :
    f.Composes stem path args (Expr.WrittenEnclosed stem) (Expr.WrittenEnclosed stem) := by
  intro b hb
  have htemporary := writtenEnclosed_temporary hstem
  rcases script_eq_answer hf path with ⟨hanswer, -⟩ | ⟨valid, rfl⟩ | ⟨valid, rfl⟩
  · -- no line is written, and the value is the template with the arguments filled in
    rw [hanswer args]
    refine ⟨hb, ?_⟩
    rw [Script.run, expand_expr_eq hf hlen]
    exact (bracketed_template hf hcall hpath).enclosed_subst (writtenEnclosed_argument hargs)
  · obtain ⟨color, rfl⟩ := List.length_eq_one_iff.1 hlen
    have hcolor := hargs color List.mem_cons_self
    obtain ⟨hlines, hshared⟩ := hb.share hcolor hcolor htemporary stem
    rw [run_premultiply]
    exact ⟨hlines, Op.bracketed_premultiplied.enclosed_subst fun _ => hshared⟩
  · obtain ⟨normal, view, f0, rfl⟩ := List.length_eq_three.1 hlen
    have hf0 := hargs f0 (by simp)
    obtain ⟨hlines, hshared⟩ := hb.share hf0 hf0 htemporary stem
    rw [run_fresnel]
    constructor
    · refine hlines.declare (Op.bracketed_cosine.enclosed_subst fun i => ?_) .float
      cases i with
      | zero => exact hargs normal (by simp)
      | succ i => exact hargs view (by simp)
    · refine Op.bracketed_reflectance.enclosed_subst fun i => ?_
      cases i with
      | zero => exact hshared
      | succ i => exact htemporary _

end Function

/-! ### Stages -/

/-- The names of functions that nodes call are enclosed, and so are the paths and the accessors
that nodes resolve to. -/
def Graph.NamesEnclosed (g : Graph) (b : Backend) : Prop :=
  g.Named b (Enclosed ·.toList) (Enclosed ·.toList) (Enclosed ·.toList)

theorem Graph.NamesEnclosed.access {g : Graph} {b : Backend} (h : g.NamesEnclosed b) {id : NodeId}
    {n : Node} (hn : g.node? id = some n) (textures : List Texture) :
    ∀ p ∈ n.function.requirement.bind (b.access? textures), Enclosed p.toList := by
  refine Graph.Named.access h (fun _ hp => hp) (fun p a hp ha => ?_) (fun p slot hp => ?_) hn
    textures
  · rw [String.toList_append]
    exact hp.append ha
  · rw [enclosed_iff]
    simp only [String.toList_append]
    have hopen : nesting.Reads 0 "[".toList 1 := by decide
    exact (((hp.reads 0).append hopen).append ((enclosed_repr slot).reads 1)).append (by decide)

/-- Every value, every declaration and every assignment of a state is enclosed. -/
structure Emission.AllEnclosed (stem : String) (s : Emission) : Prop where
  /-- The expressions of the nodes' values. -/
  values : ∀ id v, s.value? id = some v → Enclosed (v.expr.render stem).toList
  /-- What temporaries are declared as. -/
  declared : ∀ ty i e, .declare ty i e ∈ s.block.lines.toList → Enclosed (e.render stem).toList
  /-- The right-hand sides of assignments. -/
  assigned : ∀ place e, .assign place e ∈ s.block.lines.toList → Enclosed (e.render stem).toList

namespace Compile

variable {o : Options} {g : Graph} {k : Sink} {b : Backend}

theorem hands_enclosed (hown : ∀ id n, g.node? id = some n → n.function.IsOwn)
    (hstem : Enclosed o.stem.toList) (hnames : g.NamesEnclosed b) :
    Emission.Hands o g b (Expr.WrittenEnclosed o.stem) fun _ => Expr.WrittenEnclosed o.stem where
  declare _ _ h := h
  temporary _ i := Function.writtenEnclosed_temporary hstem i
  code id n args textures hn _ hlen hargs := by
    refine Function.composes_enclosed (hown id n hn) hstem (fun function hf =>
      hnames.called id n function hn hf) (hnames.access hn textures) hlen fun v hv => ?_
    obtain ⟨source, -, hsource⟩ := exists_left_of_forall₂ hargs hv
    exact hsource

/-- **Composed expressions stay enclosed.** If the names of called functions, the stem of
temporaries, and the paths and accessors that nodes resolve to are enclosed, then in every stage of
a shader all values of nodes, all declarations of temporaries and all assignments are. -/
theorem expressions_enclosed {shader : Shader} (hg : g.Built)
    (hown : ∀ id n, g.node? id = some n → n.function.IsOwn)
    (hok : (compile o g k b).result = .ok shader) (hstem : Enclosed o.stem.toList)
    (hnames : g.NamesEnclosed b) :
    ∀ stage text, (stage, text) ∈ shader.stages →
      ∃ textures routes plan nodes s, Starts o g k b stage textures routes plan ∧
        StageRun o g k b textures stage routes plan nodes s ∧
        text = s.text o b (k.outputsOf stage) ∧
        (∀ source id, k.Feeds stage source → g.Reaches source id → ∃ v, s.value? id = some v) ∧
        s.AllEnclosed o.stem := by
  intro stage text htext
  have hwf := hg.wellFormed
  obtain ⟨textures, routes, plan, nodes, s, hstarts, hrun, rfl, hcomposed⟩ :=
    exists_composed hwf (hands_enclosed hown hstem hnames) hok htext
  have hlines := fun l => hcomposed.mem_lines hrun.assigned (l := l)
  have hvalues : s.value? = nodes.value? := by
    obtain ⟨lines, -, rfl⟩ := Emission.assignAll_eq_ok hrun.assigned
    rfl
  refine ⟨textures, routes, plan, nodes, s, hstarts, hrun, rfl, fun source id hfeeds hpath => ?_,
    ?_, fun ty i e hmem => ?_, fun place e hmem => ?_⟩
  · rw [hvalues]
    exact Option.isSome_iff_exists.1
      (((hrun.ran hwf).known id).2 ((hrun.mem_order hwf).2 ⟨source, hfeeds, hpath⟩))
  · rw [hvalues]
    exact hcomposed.values
  · rcases hlines _ hmem with ⟨_, _, _, heq, he⟩ | ⟨r, -, _, heq, -⟩
    · cases heq
      exact he
    · cases heq
  · rcases hlines _ hmem with ⟨_, _, _, heq, -⟩ | ⟨r, -, _, heq, he⟩
    · cases heq
    · cases heq
      exact he

end Compile

/-! ### A sample -/

namespace Glint

/-- The call of a noise function with a number of octaves. -/
def noise : Op := .call "noise" [⟨"x", .float⟩, ⟨"octaves", .ofScalar .int⟩] .float

/-- The graph of the light that a surface reflects towards the camera, with some noise. -/
def graph : Graph :=
  .build [.add (.builtin .normal), .add (.builtin .cameraPosition),
    .add (.constant ⟨.float, .floats [0x3E800000], rfl, rfl⟩),
    .addWired (.library .fresnel rfl) [.ofIndex 0, .ofIndex 1, .ofIndex 2],
    .add (.constant ⟨.ofScalar .int, .ints [3], rfl, rfl⟩),
    .addWired (.library noise rfl) [.ofIndex 3, .ofIndex 4],
    .addWired (.library (.swizzle .float "xxx") rfl) [.ofIndex 5]]

/-- A sink that takes the light as a color. -/
def sink : Sink :=
  .build [.output ⟨"color", .fragment, 0, .vec3⟩, .parameter "light" .vec3,
    .bind graph 0 (.ofIndex 6), .link 0 0 .whole]

/-- A backend with an input block and a uniform block. -/
def backend : Backend :=
  let b := (Backend.empty.register (.inputBlock "vertex" [⟨"normal", .vec3⟩])).1
  let b := (b.register (.binding ⟨0, "camera", .uniformBlock "Camera" [⟨"eye", .vec3⟩]⟩)).1
  let b := (b.provide .vertexNormal ⟨.inputBlock, 0⟩).provide .camera ⟨.uniformBlock, 0⟩
  (b.setAccessor .normal "normal").setAccessor .cameraPosition ".eye"

theorem exists_compile : ∃ shader, (compile {} graph sink backend).result = .ok shader :=
  Except.exists_ok_of_isOk (by decide +kernel)

theorem namesEnclosed : graph.NamesEnclosed backend :=
  .of_nodes (by decide) (by decide) (by decide)

end Glint

/-- The light is one assignment with a declaration before it, and both are enclosed. -/
theorem Compile.expressions_enclosed_glint :
    ∃ shader text textures routes plan nodes s,
      (compile {} Glint.graph Glint.sink Glint.backend).result = .ok shader ∧
      (.fragment, text) ∈ shader.stages ∧
      StageRun {} Glint.graph Glint.sink Glint.backend textures .fragment routes plan nodes s ∧
      text = s.text {} Glint.backend (Glint.sink.outputsOf .fragment) ∧
      s.AllEnclosed "_" := by
  obtain ⟨shader, hok⟩ := Glint.exists_compile
  obtain ⟨text, htext⟩ := exists_text (Graph.built_build _).wellFormed hok
    (show Stage.fragment ∈ Glint.sink.stages by decide)
  obtain ⟨textures, routes, plan, nodes, s, -, hrun, heq, -, hall⟩ :=
    expressions_enclosed (g := Glint.graph) (Graph.built_build _)
      (Graph.forall_node? (by decide)) hok
      (show Enclosed "_".toList by decide) Glint.namesEnclosed .fragment text htext
  exact ⟨shader, text, textures, routes, plan, nodes, s, hok, htext, hrun, heq, hall⟩

end ShaderFlow
