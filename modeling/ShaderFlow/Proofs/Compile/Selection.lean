import ShaderFlow.Proofs.Compile.Brackets
import ShaderFlow.Proofs.Sink.Conflicts
import ShaderFlow.Proofs.Text.Selection

/-!
# Selections are not taken from integers

Selections of components are written right after the text of an operand, and an operand may be any
value. It must not be an integer that stands alone, because the point would become part of it. A
node has such a value if it is the integer, or if it passes on the value of a node that has one
(`Graph.BareInteger`). All of these have one channel. So an operation that selects from a vector or
a matrix never meets one, and only a swizzle of a single channel can.

If no swizzle takes its argument from such a node, then no stage selects from an integer
(`Compile.no_selection_from_integer`). Without that condition it can happen: see
`Compile.selection_from_integer`.
-/

namespace ShaderFlow

/-! ### Integers that stand alone -/

/-- The value of the node is an integer that stands alone, possibly passed on by others. -/
inductive Graph.BareInteger (g : Graph) : NodeId → Prop
  | literal {id : NodeId} {n : Node} (hn : g.node? id = some n)
      (hf : n.function.isBareInteger = true) : BareInteger g id
  | pass {id source : NodeId} {n : Node} (hn : g.node? id = some n)
      (hf : n.function.passes = true) (hslot : n.input? 0 = some source)
      (hsource : BareInteger g source) : BareInteger g id

/-- No swizzle takes its argument from an integer that stands alone. -/
def Graph.SwizzlesNoInteger (g : Graph) : Prop :=
  ∀ id n input pattern valid source, g.node? id = some n →
    n.function = .library (.swizzle input pattern) valid → n.input? 0 = some source →
      ¬ g.BareInteger source

theorem Function.channels_of_isBareInteger {f : Function} (h : f.isBareInteger = true) :
    f.signature.output.channels = 1 := by
  cases f with
  | constant value =>
    obtain ⟨ty, channels, hscalar, hlength⟩ := value
    simp only [isBareInteger, Literal.isBareInteger] at h
    split at h
    · exact hlength.symm
    · cases h
  | _ => cases h

theorem Function.channels_of_passes {f : Function} (h : f.passes = true) :
    f.signature.output.channels = 1 := by
  cases f with
  | library op valid =>
    cases op with
    | split input channel => rfl
    | combine output => exact Ty.channels_of_isScalar h
    | _ => cases h
  | _ => cases h

theorem Function.arity_of_appends {f : Function} (h : f.appends = true) :
    f.signature.arity = 1 := by
  cases f with
  | library op valid =>
    cases op with
    | swizzle input pattern | split input channel | premultiply => rfl
    | _ => cases h
  | _ => cases h

theorem Graph.BareInteger.channels {g : Graph} {id : NodeId} (h : g.BareInteger id) {n : Node}
    (hn : g.node? id = some n) : n.output.channels = 1 := by
  cases h with
  | literal hm hf =>
    cases hm.symm.trans hn
    exact Function.channels_of_isBareInteger hf
  | pass hm hf =>
    cases hm.symm.trans hn
    exact Function.channels_of_passes hf

/-- What is written right before a selection is never an integer that stands alone. -/
theorem Graph.SwizzlesNoInteger.not_bareInteger {g : Graph} (h : g.SwizzlesNoInteger)
    (hg : g.WellFormed) {id source : NodeId} {n : Node} (hn : g.node? id = some n)
    (happends : n.function.appends = true) (hslot : n.input? 0 = some source) :
    ¬ g.BareInteger source := by
  intro hbare
  obtain ⟨input, m, hinput, hm, hchannels⟩ := hg.wires hn hslot
  rw [hbare.channels hm] at hchannels
  obtain ⟨f, inputs⟩ := n
  cases f with
  | library op valid =>
    cases op with
    | swizzle input pattern => exact h id _ input pattern valid source hn rfl hslot hbare
    | split ty channel =>
      -- the argument would be a scalar, and then nothing is selected
      cases hinput
      have hscalar : ty.isScalar = true := Ty.isScalar_iff.2 hchannels.symm
      simp [Function.appends, Op.appends, hscalar] at happends
    | premultiply =>
      cases hinput
      cases hchannels
    | _ => cases happends
  | _ => cases happends

/-! ### Functions -/

/-- The expression, when it is written out, leaves the reader in a state. -/
def Expr.ReadsTo (A : Alphabet) (stem : String) (e : Expr) (q : Scan) : Prop :=
  (selection A).Reads .fresh (e.render stem).toList q

variable {A : Alphabet} {stem : String}

theorem Expr.readsTo_temporary (hstem : A.IsName stem.toList) (i : Nat) :
    (temporary i).ReadsTo A stem .word := by
  have hname : A.IsName (stem.toList ++ (Nat.repr i).toList) :=
    hstem.append fun c hc => Alphabet.isIdent_of_isDigit (isDigits_repr i c hc)
  unfold ReadsTo
  rw [render_temporary, String.toList_append]
  exact hname.reads (by decide)

/-- A template is read as its holes say, if each expression that is filled in leaves the reader in
the state of its hole. -/
theorem Expr.readsTo_subst {t : Expr} {D : Nat → Expr} {states : List Scan} {q : Scan}
    (ht : (selection A).ReadsExpr (holes states) .fresh t q)
    (hD : ∀ i q, states[i]? = some q → (D i).ReadsTo A stem q) : (t.subst D).ReadsTo A stem q := by
  refine Reader.Reads.render_subst ht fun i q q' hhole => ?_
  unfold holes at hhole
  split at hhole
  next hq =>
    subst hq
    exact hD i q' hhole
  next => cases hhole

namespace Function

variable {f : Function} {path : Option String} {args : List Operand} {states : List Scan}

theorem readsTo_argument (h : List.Forall₂ (fun v q => v.expr.ReadsTo A stem q) args states)
    (i : Nat) (q : Scan) (hq : states[i]? = some q) : (Op.argument args i).ReadsTo A stem q := by
  induction h generalizing i with
  | nil => cases hq
  | cons hvq _ ih =>
    cases i with
    | zero =>
      cases hq
      exact hvq
    | succ i => exact ih i hq

theorem readsTo_pair {a b : Expr} {p q : Scan} (ha : a.ReadsTo A stem p) (hb : b.ReadsTo A stem q)
    (i : Nat) (r : Scan) (hr : [p, q][i]? = some r) : (pair a b i).ReadsTo A stem r := by
  rcases i with _ | _ | i
  · cases hr
    exact ha
  · cases hr
    exact hb
  · cases hr

/-- A function whose arguments can be read declares expressions that can be read and answers one.
Only an integer that stands alone, or is passed on, leaves the reader with an integer. -/
theorem composes_selection (hf : f.IsOwn) (hstem : A.IsName stem.toList)
    (hcall : ∀ function ∈ f.calls?, A.IsName function.toList)
    (hpath : ∀ p ∈ path, ∃ q, q.isSolid = true ∧ (selection A).Reads .fresh p.toList q)
    (hlen : args.length = f.signature.arity)
    (hargs : List.Forall₂ (fun v q => v.expr.ReadsTo A stem q) args states)
    (happends : f.appends = true → ∀ q ∈ states, q.isSolid = true) :
    f.Composes stem path args (fun e => ∃ q, e.ReadsTo A stem q) fun e => ∃ q,
      (q.isSolid = true ∨ q = .number ∧ f.isBareInteger = true ∨
        f.passes = true ∧ states.head? = some q) ∧ e.ReadsTo A stem q := by
  intro b hb
  have hword := Expr.readsTo_temporary (A := A) hstem
  rcases script_eq_answer hf path with ⟨hanswer, -⟩ | ⟨valid, rfl⟩ | ⟨valid, rfl⟩
  · rw [hanswer args]
    refine ⟨hb, ?_⟩
    rw [Script.run, expand_expr_eq hf hlen]
    obtain ⟨q, hq, hreads⟩ := readsExpr_template (A := A) hf hcall hpath
      (hargs.length_eq ▸ hlen) happends
    exact ⟨q, hq, Expr.readsTo_subst hreads (readsTo_argument hargs)⟩
  · obtain ⟨color, rfl⟩ := List.length_eq_one_iff.1 hlen
    obtain ⟨q, _, hcolor, hnil, rfl⟩ := List.forall₂_cons_left_iff.1 hargs
    cases hnil
    -- the shared color is what it was or a temporary, and neither is an integer
    obtain ⟨hlines, q', hq', hshared⟩ := hb.share (v := color) ⟨q, hcolor⟩
      (P := fun e => ∃ q, q.isSolid = true ∧ e.ReadsTo A stem q)
      ⟨q, happends rfl q List.mem_cons_self, hcolor⟩ (fun i => ⟨.word, rfl, hword i⟩) stem
    rw [run_premultiply]
    refine ⟨hlines, .fresh, Or.inl rfl,
      Expr.readsTo_subst (Op.readsExpr_premultiplied hq') fun i q hi => ?_⟩
    cases i with
    | zero =>
      cases hi
      exact hshared
    | succ i => cases hi
  · obtain ⟨normal, view, f0, rfl⟩ := List.length_eq_three.1 hlen
    obtain ⟨qn, _, hnormal, h₁, rfl⟩ := List.forall₂_cons_left_iff.1 hargs
    obtain ⟨qv, _, hview, h₂, rfl⟩ := List.forall₂_cons_left_iff.1 h₁
    obtain ⟨q, _, hf0, hnil, rfl⟩ := List.forall₂_cons_left_iff.1 h₂
    cases hnil
    obtain ⟨hlines, q', hshared⟩ := hb.share (v := f0) ⟨q, hf0⟩
      (P := fun e => ∃ q, e.ReadsTo A stem q) ⟨q, hf0⟩ (fun i => ⟨.word, hword i⟩) stem
    rw [run_fresnel]
    constructor
    · exact hlines.declare ⟨.fresh, Expr.readsTo_subst (Op.readsExpr_cosine qn qv)
        (readsTo_pair hnormal hview)⟩ .float
    · exact ⟨.fresh, Or.inl rfl, Expr.readsTo_subst (Op.readsExpr_reflectance q' .word)
        (readsTo_pair hshared (hword _))⟩

end Function

/-! ### Names -/

/-- The names that nodes call are plain identifiers, and so are the paths that nodes resolve to,
where those of input blocks are empty, and the accessors, which may have a point in front. -/
def Graph.NamesPlain (A : Alphabet) (g : Graph) (b : Backend) : Prop :=
  g.Named b (A.IsName ·.toList) (fun p => p = "" ∨ A.IsName p.toList)
    fun a => A.IsName a.toList ∨ ∃ name, a.toList = '.' :: name ∧ A.IsName name

theorem Graph.NamesPlain.access {g : Graph} {b : Backend} (h : g.NamesPlain A b) {id : NodeId}
    {n : Node} (hn : g.node? id = some n) (textures : List Texture) :
    ∀ p ∈ n.function.requirement.bind (b.access? textures),
      ∃ q, q.isSolid = true ∧ (selection A).Reads .fresh p.toList q := by
  have hpath : ∀ p : String, p = "" ∨ A.IsName p.toList →
      ∃ q, (q = .fresh ∨ q = .word) ∧ (selection A).Reads .fresh p.toList q := by
    rintro p (rfl | hp)
    · exact ⟨.fresh, Or.inl rfl, Reader.reads_nil⟩
    · exact ⟨.word, Or.inr rfl, hp.reads (by decide)⟩
  refine Graph.Named.access h (fun p hp => ?_) (fun p a hp ha => ?_) (fun p slot hp => ?_) hn
    textures
  · obtain ⟨q, hq, hreads⟩ := hpath p hp
    exact ⟨q, by rcases hq with rfl | rfl <;> rfl, hreads⟩
  · obtain ⟨q, hq, hreads⟩ := hpath p hp
    refine ⟨.word, rfl, ?_⟩
    rw [String.toList_append]
    refine hreads.append ?_
    rcases ha with ha | ⟨name, ha, hname⟩
    · exact ha.reads (by rcases hq with rfl | rfl <;> decide)
    · rw [ha]
      have hsolid : q.isSolid = true := by rcases hq with rfl | rfl <;> rfl
      exact Reader.reads_cons.2 ⟨.mark, selection_step_point hsolid, hname.reads (by decide)⟩
  · obtain ⟨q, -, hreads⟩ := hpath p hp
    refine ⟨.fresh, rfl, ?_⟩
    simp only [String.toList_append]
    exact ((hreads.append (selection_reads_break rfl Reader.reads_nil)).append
      (Literal.reads_repr slot)).append (selection_reads_break rfl Reader.reads_nil)

/-! ### Lines -/

theorem Output.reads_place {output : Output} (hname : A.IsName output.name.toList)
    (selector : Selector) :
    ∃ q, (selection A).Reads .fresh (output.place selector).render.toList q := by
  have hword := hname.reads (q := .fresh) (by decide)
  unfold Output.place
  split
  · exact ⟨.word, hword⟩
  next c =>
    split
    · refine ⟨.fresh, ?_⟩
      simp only [Place.render, String.toList_append]
      have hopen : (selection A).Reads .word "[".toList .fresh :=
        selection_reads_break rfl Reader.reads_nil
      have hnext : (selection A).Reads .number "][".toList .fresh :=
        selection_reads_break rfl (selection_reads_break rfl Reader.reads_nil)
      exact ((((hword.append hopen).append (Literal.reads_repr _)).append hnext).append
        (Literal.reads_repr _)).append (selection_reads_break rfl Reader.reads_nil)
    · obtain ⟨q, -, hreads⟩ := selection_reads_components (A := A) (q := .word)
        (List.forall_mem_singleton.2 (Op.isIdent_componentLetter c)) rfl
      refine ⟨q, ?_⟩
      simp only [Place.render, String.toList_append, String.toList_singleton, List.append_assoc]
      exact hword.append hreads

namespace Line

theorem reads_sides {left right : List Char} {p q : Scan}
    (hleft : (selection A).Reads .fresh left p) (hright : (selection A).Reads .fresh right q) :
    (selection A).Reads .fresh
      ("    ".toList ++ (left ++ " = ".toList ++ right) ++ ";\n".toList) .fresh := by
  have hindent : (selection A).Reads .fresh "    ".toList .fresh :=
    selection_reads_ascii (by decide) (by decide)
  have hequals : (selection A).Reads p " = ".toList .fresh :=
    selection_reads_break rfl (selection_reads_ascii (by decide) (by decide))
  have hend : (selection A).Reads q ";\n".toList .fresh :=
    selection_reads_break rfl (selection_reads_ascii (by decide) (by decide))
  exact (hindent.append ((hleft.append hequals).append hright)).append hend

theorem reads_declare (hstem : A.IsName stem.toList) (ty : Ty) (i : Nat) {e : Expr} {q : Scan}
    (he : e.ReadsTo A stem q) :
    (selection A).Reads .fresh ((declare ty i e).render stem).toList .fresh := by
  have hname : (selection A).Reads .fresh (Atom.name stem i).toList .word := by
    simpa [Expr.ReadsTo, Atom.name] using Expr.readsTo_temporary hstem i
  have hspace : (selection A).Reads .word " ".toList .fresh :=
    selection_reads_break rfl Reader.reads_nil
  simp only [render, body, String.toList_append]
  exact reads_sides ((ty.reads_name.append hspace).append hname) he

theorem reads_assign {output : Output} (hname : A.IsName output.name.toList)
    (selector : Selector) {e : Expr} {q : Scan} (he : e.ReadsTo A stem q) :
    (selection A).Reads .fresh ((assign (output.place selector) e).render stem).toList .fresh := by
  obtain ⟨p, hplace⟩ := output.reads_place hname selector
  simp only [render, body, String.toList_append]
  exact reads_sides hplace he

end Line

/-! ### Stages -/

namespace Compile

variable {o : Options} {g : Graph} {k : Sink} {b : Backend}

/-- The value of the node can be read, and is an integer only if the node is a bare one. -/
def Readable (A : Alphabet) (stem : String) (g : Graph) (id : NodeId) (e : Expr) : Prop :=
  ∃ q, (q.isSolid = true ∨ q = .number ∧ g.BareInteger id) ∧ e.ReadsTo A stem q

theorem exists_states {sources : List NodeId} {args : List Operand}
    (h : List.Forall₂ (fun source v => Readable A stem g source v.expr) sources args) :
    ∃ states, List.Forall₂ (fun v q => v.expr.ReadsTo A stem q) args states ∧
      List.Forall₂ (fun source q => q.isSolid = true ∨ q = .number ∧ g.BareInteger source)
        sources states := by
  induction h with
  | nil => exact ⟨[], .nil, .nil⟩
  | cons hv _ ih =>
    obtain ⟨q, hq, hreads⟩ := hv
    obtain ⟨states, hargs, hstates⟩ := ih
    exact ⟨q :: states, .cons hreads hargs, .cons hq hstates⟩

theorem input?_of_wired {n : Node} (h : n.Wired) {source : NodeId} {rest : List NodeId}
    (hsources : n.sources = source :: rest) : n.input? 0 = some source := by
  simp [Node.input?, h.inputs_eq, hsources]

theorem hands_readable (hg : g.WellFormed)
    (hown : ∀ id n, g.node? id = some n → n.function.IsOwn) (hstem : A.IsName o.stem.toList)
    (hnames : g.NamesPlain A b) (hswizzles : g.SwizzlesNoInteger) :
    Emission.Hands o g b (fun e => ∃ q, e.ReadsTo A o.stem q) (Readable A o.stem g) where
  declare _ _ := fun ⟨q, _, hreads⟩ => ⟨q, hreads⟩
  temporary _ i := ⟨.word, Or.inl rfl, Expr.readsTo_temporary hstem i⟩
  code id n args textures hn hwired hlen hargs := by
    obtain ⟨states, hreads, hstates⟩ := exists_states hargs
    have happends : n.function.appends = true → ∀ q ∈ states, q.isSolid = true := by
      intro happends q hq
      have hone : n.sources.length = 1 := by
        rw [hargs.length_eq, hlen, Function.arity_of_appends happends]
      obtain ⟨source, hsources⟩ := List.length_eq_one_iff.1 hone
      obtain ⟨source', hmem, hsolid⟩ := exists_left_of_forall₂ hstates hq
      rw [hsources, List.mem_singleton] at hmem
      subst hmem
      refine hsolid.resolve_right fun hnumber => ?_
      exact hswizzles.not_bareInteger hg hn happends (input?_of_wired hwired hsources) hnumber.2
    have hcomposes := Function.composes_selection (hown id n hn) hstem
      (fun function hf => hnames.called id n function hn hf) (hnames.access hn textures) hlen
      hreads happends
    intro block hblock
    obtain ⟨hlines, q, hq, hvalue⟩ := hcomposes block hblock
    refine ⟨hlines, q, ?_, hvalue⟩
    rcases hq with hsolid | ⟨hnumber, hbare⟩ | ⟨hpasses, hhead⟩
    · exact Or.inl hsolid
    · exact Or.inr ⟨hnumber, .literal hn hbare⟩
    · -- the value is that of the first source
      obtain ⟨rest, rfl⟩ := List.head?_eq_some_iff.1 hhead
      obtain ⟨source, sources, hsource, -, hsources⟩ := List.forall₂_cons_right_iff.1 hstates
      refine hsource.imp_right fun ⟨hnumber, hbare⟩ => ⟨hnumber, ?_⟩
      exact .pass hn hpasses (input?_of_wired hwired hsources) hbare

/-- **Selections are not taken from integers.** If called names, paths, accessors, names of outputs
and the stem of temporaries are plain identifiers, and no swizzle takes its argument from an integer
that stands alone, then no stage of a shader has an integer with a point and a letter after it. -/
theorem no_selection_from_integer {shader : Shader} (hg : g.Built)
    (hown : ∀ id n, g.node? id = some n → n.function.IsOwn)
    (hok : (compile o g k b).result = .ok shader) (hstem : A.IsName o.stem.toList)
    (houtputs : ∀ output ∈ k.outputs, A.IsName output.name.toList) (hnames : g.NamesPlain A b)
    (hswizzles : g.SwizzlesNoInteger) :
    ∀ stage text, (stage, text) ∈ shader.stages →
      ∃ textures routes plan nodes s, Starts o g k b stage textures routes plan ∧
        StageRun o g k b textures stage routes plan nodes s ∧
        text = s.text o b (k.outputsOf stage) ∧
        ¬ A.SelectsFromInteger (s.block.render o.stem).toList := by
  intro stage text htext
  have hwf := hg.wellFormed
  obtain ⟨textures, routes, plan, nodes, s, hstarts, hrun, rfl, hcomposed⟩ :=
    exists_composed hwf (hands_readable hwf hown hstem hnames hswizzles) hok htext
  refine ⟨textures, routes, plan, nodes, s, hstarts, hrun, rfl, ?_⟩
  -- every line begins and ends fresh
  have hlines : ∀ l ∈ s.block.lines.toList,
      (selection A).Reads .fresh (l.render o.stem).toList .fresh := by
    intro l hl
    rcases hcomposed.mem_lines hrun.assigned hl with
      ⟨ty, i, e, rfl, q, he⟩ | ⟨r, hr, e, rfl, q, -, he⟩
    · exact Line.reads_declare hstem ty i he
    · obtain ⟨link, -, houtput, -⟩ :=
        exists_left_of_forall₂ (Sink.forall₂_of_routes hrun.routes_eq) hr
      exact Line.reads_assign (houtputs r.output (List.mem_of_getElem? houtput)) r.selector he
  refine not_selectsFromInteger (q := .fresh) (Reader.reads_join fun line hline => ?_)
  obtain ⟨l, hl, rfl⟩ := List.mem_map.1 hline
  exact hlines l hl

end Compile

/-! ### A sample -/

namespace Glint

theorem namesPlain : graph.NamesPlain .ascii backend := by
  refine .of_nodes (by decide) (by decide) ?_
  refine List.forall_mem_cons.2 ⟨?_, List.forall_mem_singleton.2 ?_⟩
  · exact Or.inr ⟨"eye".toList, rfl, by decide⟩
  · exact Or.inl (by decide)

/-- The swizzle takes its argument from a call. -/
theorem swizzlesNoInteger : graph.SwizzlesNoInteger := by
  intro id n input pattern valid source hn hf hslot hbare
  have hcall : ∀ n ∈ graph.nodes.toList, n.function.name = "swizzle" →
      n.input? 0 = some (.ofIndex 5) := by decide
  have hsource := hcall n (Graph.mem_nodes_of_node? hn) (by rw [hf]; rfl)
  cases hslot.symm.trans hsource
  cases hbare with
  | literal hm hf =>
    cases hm
    cases hf
  | pass hm hf =>
    cases hm
    cases hf

end Glint

/-- The light has an integer among the arguments of the call, and the components of the call are
selected, but not those of the integer. -/
theorem Compile.no_selection_from_integer_glint :
    ∃ shader text textures routes plan nodes s,
      (compile {} Glint.graph Glint.sink Glint.backend).result = .ok shader ∧
      Glint.graph.BareInteger (.ofIndex 4) ∧ (.fragment, text) ∈ shader.stages ∧
      StageRun {} Glint.graph Glint.sink Glint.backend textures .fragment routes plan nodes s ∧
      text = s.text {} Glint.backend (Glint.sink.outputsOf .fragment) ∧
      ¬ Alphabet.ascii.SelectsFromInteger (s.block.render "_").toList := by
  obtain ⟨shader, hok⟩ := Glint.exists_compile
  obtain ⟨text, htext⟩ := exists_text (Graph.built_build _).wellFormed hok
    (show Stage.fragment ∈ Glint.sink.stages by decide)
  obtain ⟨textures, routes, plan, nodes, s, -, hrun, heq, hnone⟩ :=
    no_selection_from_integer (g := Glint.graph) (Graph.built_build _)
      (Graph.forall_node? (by decide)) hok
      (show Alphabet.ascii.IsName "_".toList by decide) (by decide) Glint.namesPlain
      Glint.swizzlesNoInteger .fragment text htext
  exact ⟨shader, text, textures, routes, plan, nodes, s, hok, .literal rfl rfl, htext, hrun, heq,
    hnone⟩

/-! ### A selection from an integer -/

namespace Stray

/-- The type of the color. -/
def ty : Ty := ⟨.int, .vec3, nofun⟩

/-- A swizzle of an integer. -/
def graph : Graph :=
  .build [.add (.constant ⟨.ofScalar .int, .ints [5], rfl, rfl⟩),
    .addWired (.library (.swizzle (.ofScalar .int) "xxx") rfl) [.ofIndex 0]]

/-- A sink that takes the swizzle. -/
def sink : Sink :=
  .build [.output ⟨"color", .fragment, 0, ty⟩, .parameter "value" ty, .bind graph 0 (.ofIndex 1),
    .link 0 0 .whole]

theorem namesPlain : graph.NamesPlain .ascii {} :=
  .of_nodes (by decide) (by decide) (by simp)

/-- The plan of the only stage. -/
def plan : Schedule := ⟨[.ofIndex 0, .ofIndex 1], ⟨[(.ofIndex 0, 1), (.ofIndex 1, 1)]⟩⟩

/-- The text of the only stage. -/
def text : String :=
  "#version 450\n\nlayout(location = 0) out ivec3 color;\n" ++
    "\nvoid main() \x7b\n    color = 5.xxx;\n\x7d\n"

theorem compile_eq : (compile {} graph sink {}).result = .ok { stages := [(.fragment, text)] } := by
  decide +kernel

theorem exists_run : ∃ routes nodes s, Compile.StageRun {} graph sink {} {} .fragment routes plan
      nodes s ∧ s.text {} {} (sink.outputsOf .fragment) = text ∧
        s.block.render "_" = "    color = 5.xxx;\n" :=
  ⟨_, _, _, ⟨rfl, by decide +kernel, rfl, rfl⟩, by decide +kernel, by decide +kernel⟩

end Stray

/-- A swizzle of an integer that stands alone is written with the point right after the integer. -/
theorem Compile.selection_from_integer :
    Stray.graph.Built ∧ (∀ id n, Stray.graph.node? id = some n → n.function.IsOwn) ∧
      Stray.graph.NamesPlain .ascii {} ∧ Alphabet.ascii.IsName "_".toList ∧
      (∀ output ∈ Stray.sink.outputs, Alphabet.ascii.IsName output.name.toList) ∧
      ∃ shader text textures routes plan nodes s,
        (compile {} Stray.graph Stray.sink {}).result = .ok shader ∧
        (.fragment, text) ∈ shader.stages ∧
        StageRun {} Stray.graph Stray.sink {} textures .fragment routes plan nodes s ∧
        text = s.text {} {} (Stray.sink.outputsOf .fragment) ∧
        Alphabet.ascii.SelectsFromInteger (s.block.render "_").toList := by
  obtain ⟨routes, nodes, s, hrun, htext, hbody⟩ := Stray.exists_run
  refine ⟨Graph.built_build _, Graph.forall_node? (by decide), Stray.namesPlain, by decide,
    by decide, _, Stray.text, {}, routes, Stray.plan, nodes, s, Stray.compile_eq,
    List.mem_singleton_self _, hrun, htext.symm, ?_⟩
  rw [hbody]
  exact ⟨"    color = ".toList, ['5'], 'x', "xx;\n".toList, by decide, by decide,
    List.forall_mem_singleton.2 rfl, by decide, fun c hc => by cases hc; decide⟩

end ShaderFlow
