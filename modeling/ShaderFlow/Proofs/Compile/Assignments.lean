import ShaderFlow.Proofs.Compile.Course
import ShaderFlow.Proofs.Compile.Success
import ShaderFlow.Proofs.Sink.Conflicts
import ShaderFlow.Proofs.Text.Ascii
import ShaderFlow.Proofs.Text.Tokens

/-!
# What the assignments of a stage write

An assignment has the text of a place on its left. `Output.Target` says which texts stand for which
parts of an output, and `Output.Writes` which channels such a text writes. A text is read back in
two steps: if names are identifiers, the run of characters before the first mark is the name
(`Output.Target.name_eq`), and what follows it gives the part (`Output.Target.selector_eq`). So two
assignments write a common channel only if their links select a common channel of one output, and
links are kept apart.

* `Compile.WritesApart` says what the assignments of a stage are, and that they are kept apart;
* `Compile.assignments_apart` says that the code of each stage ends in such assignments.
-/

namespace ShaderFlow

/-! ### Places as texts -/

/-- A text that stands for the selected part of an output's variable. -/
inductive Output.Target (o : Output) : Selector → String → Prop
  /-- The whole variable goes by its name. -/
  | whole : Target o .whole o.name
  /-- A channel of a matrix is an element; channels are counted column by column. -/
  | element {c column row : Nat} (hmatrix : o.ty.isMatrix = true)
      (hcolumn : column < o.ty.columns) (hrow : row < o.ty.rows)
      (hc : column * o.ty.rows + row = c) :
      Target o (.channel c) (o.name ++ "[" ++ Nat.repr column ++ "][" ++ Nat.repr row ++ "]")
  /-- A channel of a scalar or a vector is selected by its letter. -/
  | component {c : Nat} {letter : Char} (hmatrix : o.ty.isMatrix = false)
      (hc : c < o.ty.channels) (hletter : ['x', 'y', 'z', 'w'][c]? = some letter) :
      Target o (.channel c) (o.name ++ "." ++ String.singleton letter)

/-- The text stands for a part of the output that has a channel. -/
def Output.Writes (o : Output) (target : String) (i : Nat) : Prop :=
  ∃ s, o.Target s target ∧ i ∈ s.channels o.ty

namespace Output

variable {o o' : Output} {s s' : Selector} {target : String} {c i : Nat}

theorem getElem?_letters {letter : Char} :
    ['x', 'y', 'z', 'w'][c]? = some letter ↔ c < 4 ∧ letter = componentLetter c := by
  match c with
  | 0 | 1 | 2 | 3 => simp [componentLetter, eq_comm]
  | n + 4 => simp

/-- The place that a link writes is rendered as what stands for its part. -/
theorem target_place (h : s.within o.ty = true) : o.Target s (o.place s).render := by
  cases s with
  | whole => exact .whole
  | channel c =>
    have hc : c < o.ty.channels := of_decide_eq_true h
    unfold place
    split_ifs with hmatrix
    · refine .element hmatrix ?_ (Nat.mod_lt _ o.ty.rows_pos) (Nat.div_add_mod' _ _)
      rw [Nat.div_lt_iff_lt_mul o.ty.rows_pos, o.ty.columns_mul_rows]
      exact hc
    · rw [Bool.not_eq_true] at hmatrix
      refine .component hmatrix hc (getElem?_letters.2 ⟨?_, rfl⟩)
      exact Nat.lt_of_lt_of_le hc (Ty.channels_le_four hmatrix)

namespace Target

theorem eq_render (h : o.Target s target) : target = (o.place s).render := by
  cases h with
  | whole => rfl
  | @element c column row hmatrix hcolumn hrow hc =>
    have hsum : row + o.ty.rows * column = c := by rw [← hc, Nat.mul_comm, Nat.add_comm]
    obtain ⟨hdiv, hmod⟩ := (Nat.div_mod_unique o.ty.rows_pos).2 ⟨hsum, hrow⟩
    simp only [place, hmatrix, ↓reduceIte, Place.render, hdiv, hmod]
  | component hmatrix hc hletter =>
    simp only [place, hmatrix, Bool.false_eq_true, ↓reduceIte, Place.render,
      (getElem?_letters.1 hletter).2]

theorem within (h : o.Target s target) : s.within o.ty = true := by
  cases h with
  | whole => rfl
  | @element c column row hmatrix hcolumn hrow hc =>
    refine decide_eq_true ?_
    calc c = column * o.ty.rows + row := hc.symm
      _ < (column + 1) * o.ty.rows := by rw [Nat.succ_mul]; omega
      _ ≤ o.ty.columns * o.ty.rows := Nat.mul_le_mul_right _ hcolumn
      _ = o.ty.channels := o.ty.columns_mul_rows
  | component hmatrix hc => exact decide_eq_true hc

theorem toList_element (name : String) (column row : Nat) :
    (name ++ "[" ++ Nat.repr column ++ "][" ++ Nat.repr row ++ "]").toList =
      name.toList ++ '[' :: (Nat.toDigits 10 column ++
        ']' :: '[' :: (Nat.toDigits 10 row ++ [']'])) := by
  simp

theorem toList_component (name : String) (letter : Char) :
    (name ++ "." ++ String.singleton letter).toList = name.toList ++ ['.', letter] := by
  simp

/-- The name of the output comes first, and what follows it begins with a mark. -/
theorem exists_rest (h : o.Target s target) :
    ∃ rest, target.toList = o.name.toList ++ rest ∧ ∀ c ∈ rest.head?, isMark c = true := by
  cases h with
  | whole => exact ⟨[], (List.append_nil _).symm, nofun⟩
  | element => exact ⟨_, toList_element .., fun c hc => by cases hc; rfl⟩
  | component => exact ⟨_, toList_component .., fun c hc => by cases hc; rfl⟩

/-- A text stands for parts of outputs of one name, if names are identifiers. -/
theorem name_eq {A : Alphabet} (hname : ∀ c ∈ o.name.toList, A.isIdent c = true)
    (hname' : ∀ c ∈ o'.name.toList, A.isIdent c = true) (h : o.Target s target)
    (h' : o'.Target s' target) : o.name = o'.name := by
  obtain ⟨rest, htext, hmark⟩ := h.exists_rest
  obtain ⟨rest', htext', hmark'⟩ := h'.exists_rest
  refine String.toList_injective (append_inj_of_runs (htext.symm.trans htext') hname hname' ?_ ?_).1
  · exact fun c hc => Alphabet.isIdent_of_isMark (hmark c hc)
  · exact fun c hc => Alphabet.isIdent_of_isMark (hmark' c hc)

theorem indices_eq {name : String} {column row column' row' : Nat}
    (h : name ++ "[" ++ Nat.repr column ++ "][" ++ Nat.repr row ++ "]" =
      name ++ "[" ++ Nat.repr column' ++ "][" ++ Nat.repr row' ++ "]") :
    column = column' ∧ row = row' := by
  have htext := congrArg String.toList h
  rw [toList_element, toList_element] at htext
  have hdigits := (List.cons.inj (List.append_cancel_left htext)).2
  -- the digits of a column end at the first bracket
  have hdigit : ∀ n, ∀ c ∈ Nat.toDigits 10 n, c.isDigit = true := fun n c hc =>
    Nat.isDigit_of_mem_toDigits (by decide) (by decide) hc
  obtain ⟨hcolumn, hrest⟩ := append_inj_of_runs hdigits (hdigit column) (hdigit column')
    (by simp) (by simp)
  simp only [List.cons.injEq, true_and, List.append_cancel_right_eq] at hrest
  exact ⟨toDigits_inj.1 hcolumn, toDigits_inj.1 hrest⟩

theorem letter_eq {name : String} {letter letter' : Char}
    (h : name ++ "." ++ String.singleton letter = name ++ "." ++ String.singleton letter') :
    letter = letter' := by
  have htext := congrArg String.toList h
  rw [toList_component, toList_component] at htext
  simpa using htext

theorem eq_whole (h : o.Target s target) (heq : target = o.name) : s = .whole := by
  have htext := congrArg String.toList heq
  cases h with
  | whole => rfl
  | element => simp at htext
  | component => simp at htext

/-- A text stands for one part of an output. -/
theorem selector_eq (h : o.Target s target) (h' : o.Target s' target) : s = s' := by
  generalize heq : target = target' at h'
  cases h with
  | whole => exact (h'.eq_whole heq.symm).symm
  | element hmatrix hcolumn hrow hc =>
    cases h' with
    | whole => exact eq_whole (.element hmatrix hcolumn hrow hc) heq
    | element _ _ _ hc' =>
      obtain ⟨rfl, rfl⟩ := indices_eq heq
      rw [← hc, ← hc']
    | component hmatrix' => cases hmatrix.symm.trans hmatrix'
  | component hmatrix hc hletter =>
    cases h' with
    | whole => exact eq_whole (.component hmatrix hc hletter) heq
    | element hmatrix' => cases hmatrix.symm.trans hmatrix'
    | component _ _ hletter' =>
      cases letter_eq heq
      have hlt := (List.getElem?_eq_some_iff.1 hletter).1
      rw [(List.getElem?_inj hlt (by decide)).1 (hletter.trans hletter'.symm)]

theorem writes_iff (h : o.Target s target) : o.Writes target i ↔ i ∈ s.channels o.ty := by
  refine ⟨?_, fun hi => ⟨s, h, hi⟩⟩
  rintro ⟨s', h', hi⟩
  rwa [h.selector_eq h']

end Target

end Output

/-! ### Names -/

/-- The names of outputs are identifiers, and outputs of one stage have different names. -/
structure Sink.NamesApart (k : Sink) (A : Alphabet) : Prop where
  /-- Names have only characters that identifiers have. -/
  idents : ∀ o ∈ k.outputs, ∀ c ∈ o.name.toList, A.isIdent c = true
  /-- No two outputs of a stage have the same name. -/
  distinct : k.outputs.Pairwise fun o o' => o.stage = o'.stage → o.name ≠ o'.name

namespace Sink

variable {A : Alphabet} {k : Sink} {stage : Stage} {i j : Nat} {o o' : Output} {s s' : Selector}
  {target : String}

theorem NamesApart.index_eq (h : k.NamesApart A) (ho : k.outputs[i]? = some o)
    (ho' : k.outputs[j]? = some o') (hstage : o.stage = o'.stage) (hname : o.name = o'.name) :
    i = j := by
  obtain ⟨hi, rfl⟩ := List.getElem?_eq_some_iff.1 ho
  obtain ⟨hj, rfl⟩ := List.getElem?_eq_some_iff.1 ho'
  have hlt := List.pairwise_iff_getElem.1 h.distinct
  rcases Nat.lt_trichotomy i j with hij | hij | hij
  · exact absurd hname (hlt i j hi hj hij hstage)
  · exact hij
  · exact absurd hname.symm (hlt j i hj hi hij hstage.symm)

/-- A text stands for parts of one output of a stage. -/
theorem NamesApart.index_eq_of_target (h : k.NamesApart A) (ho : k.outputs[i]? = some o)
    (ho' : k.outputs[j]? = some o') (hstage : o.stage = o'.stage) (ht : o.Target s target)
    (ht' : o'.Target s' target) : i = j :=
  h.index_eq ho ho' hstage
    (ht.name_eq (h.idents o (List.mem_of_getElem? ho)) (h.idents o' (List.mem_of_getElem? ho')) ht')

end Sink

/-! ### Assignments -/

/-- A statement that writes a value to a place. -/
structure Assignment where
  /-- The text of the place. -/
  target : String
  /-- The text of the value. -/
  value : String
  deriving DecidableEq, Repr

/-- The line with the statement. -/
def Assignment.text (a : Assignment) : String := "    " ++ a.target ++ " = " ++ a.value ++ ";\n"

/-- No channel of the outputs is written by both assignments. -/
def Assignment.Apart (outputs : List Output) (a a' : Assignment) : Prop :=
  ∀ out ∈ outputs, ∀ i, ¬ (out.Writes a.target i ∧ out.Writes a'.target i)

instance (outputs : List Output) : Std.Symm (Assignment.Apart outputs) :=
  ⟨fun _ _ h out hout i hi => h out hout i hi.symm⟩

namespace Compile

variable {A : Alphabet} {o : Options} {g : Graph} {k : Sink} {b : Backend} {stage : Stage}
  {stem : String} {routes : List Route} {nodes s : Emission} {assignments : List Assignment}

/-- The assignment writes the value of the link's source to the part of an output of the stage that
the link selects. -/
def Assigns (k : Sink) (stage : Stage) (stem : String) (nodes : Emission) (l : Link)
    (a : Assignment) : Prop :=
  ∃ out p source value, k.outputs[l.output]? = some out ∧ out.stage = stage ∧
    out.Target l.selector a.target ∧ k.parameters[l.parameter]? = some p ∧
    p.source = some source ∧ nodes.value? source = some value ∧ a.value = value.expr.render stem

/-- The assignments are those of the links to a stage, and no two of them write a common channel. -/
structure WritesApart (k : Sink) (stage : Stage) (stem : String) (nodes : Emission)
    (assignments : List Assignment) : Prop where
  /-- There is one assignment for each link, in the order of the links. -/
  links : List.Forall₂ (Assigns k stage stem nodes) (k.linksTo stage) assignments
  /-- No channel of an output is written twice. -/
  channels : assignments.Pairwise (Assignment.Apart (k.outputsOf stage))
  /-- No two assignments have the same place. -/
  targets : assignments.Pairwise fun a a' => a.target ≠ a'.target
  /-- If an output is assigned as a whole, no channel of it is assigned. -/
  whole : ∀ out ∈ k.outputsOf stage, ∀ a ∈ assignments, ∀ a' ∈ assignments,
    out.Target .whole a.target → ∀ c, ¬ out.Target (.channel c) a'.target

/-- The lines after those of the nodes are assignments, one for each link. -/
theorem exists_assigns (stem : String) {links : List Link} {lines : List Line}
    (hlinks : ∀ l ∈ links, ∀ out, k.outputs[l.output]? = some out →
      out.stage = stage ∧ l.selector.within out.ty = true)
    (hroutes : List.Forall₂ k.Follows links routes)
    (hlines : List.Forall₂ nodes.AssignedBy routes lines) :
    ∃ assignments, List.Forall₂ (Assigns k stage stem nodes) links assignments ∧
      lines.map (Line.render stem) = assignments.map Assignment.text := by
  induction hroutes generalizing lines with
  | nil =>
    cases hlines
    exact ⟨[], .nil, rfl⟩
  | @cons l r _ _ hfollows _ ih =>
    obtain ⟨hl, hlinks⟩ := List.forall_mem_cons.1 hlinks
    obtain ⟨hout, hselector, p, hp, hsource⟩ := hfollows
    obtain ⟨hstage, hwithin⟩ := hl r.output hout
    cases hlines with
    | cons hassigned hlines =>
      obtain ⟨value, hvalue, rfl⟩ := hassigned
      obtain ⟨assignments, hassigns, htexts⟩ := ih hlinks hlines
      refine ⟨⟨(r.output.place r.selector).render, value.expr.render stem⟩ :: assignments,
        .cons ⟨r.output, p, r.source, value, hout, hstage, ?_, hp, hsource, hvalue, rfl⟩ hassigns,
        ?_⟩
      · rw [hselector]
        exact Output.target_place hwithin
      · rw [List.map_cons, htexts, List.map_cons]
        simp only [Line.render, Line.body, Assignment.text, String.append_assoc]

/-- Links that are kept apart have assignments that are. -/
theorem Assigns.apart (hnames : k.NamesApart A) {l l' : Link} {a a' : Assignment}
    (h : Assigns k stage stem nodes l a) (h' : Assigns k stage stem nodes l' a')
    (hapart : l.output = l'.output → ∀ out, k.outputs[l.output]? = some out →
      Disjoint (l.selector.channels out.ty) (l'.selector.channels out.ty)) :
    Assignment.Apart (k.outputsOf stage) a a' := by
  rintro out hmem i ⟨hwrites, hwrites'⟩
  obtain ⟨out₁, -, -, -, ho, hstage, ht, -⟩ := h
  obtain ⟨out₂, -, -, -, ho', hstage', ht', -⟩ := h'
  obtain ⟨hout, hbeq⟩ := List.mem_filter.1 hmem
  have hs : out.stage = stage := beq_iff_eq.1 hbeq
  obtain ⟨j, hj⟩ := List.mem_iff_getElem?.1 hout
  obtain rfl : j = l.output := by
    obtain ⟨s, hts, -⟩ := hwrites
    exact hnames.index_eq_of_target hj ho (hs.trans hstage.symm) hts ht
  have heq : l.output = l'.output := by
    obtain ⟨s, hts, -⟩ := hwrites'
    exact hnames.index_eq_of_target hj ho' (hs.trans hstage'.symm) hts ht'
  rw [← heq] at ho'
  cases hj.symm.trans ho
  cases hj.symm.trans ho'
  exact Finset.disjoint_left.1 (hapart heq out ho) (ht.writes_iff.1 hwrites)
    (ht'.writes_iff.1 hwrites')

theorem Assigns.target_eq {l : Link} {a : Assignment} {out : Output}
    (h : Assigns k stage stem nodes l a) (ho : k.outputs[l.output]? = some out) :
    a.target = (out.place l.selector).render := by
  obtain ⟨out', -, -, -, ho', -, ht, -⟩ := h
  cases ho.symm.trans ho'
  exact ht.eq_render

theorem Assigns.exists_writes {l : Link} {a : Assignment} (h : Assigns k stage stem nodes l a) :
    ∃ out ∈ k.outputsOf stage, ∃ i, out.Writes a.target i := by
  obtain ⟨out, -, -, -, ho, hstage, ht, -⟩ := h
  obtain ⟨i, hi⟩ := l.selector.channels_nonempty out.ty
  exact ⟨out, List.mem_filter.2 ⟨List.mem_of_getElem? ho, beq_iff_eq.2 hstage⟩, i,
    l.selector, ht, hi⟩

theorem writesApart_of_assigns (hk : k.LinksApart) (hnames : k.NamesApart A)
    (h : List.Forall₂ (Assigns k stage stem nodes) (k.linksTo stage) assignments) :
    WritesApart k stage stem nodes assignments := by
  have hchannels : assignments.Pairwise (Assignment.Apart (k.outputsOf stage)) :=
    pairwise_of_forall₂ (fun _ _ _ _ ha ha' => ha.apart hnames ha') h (hk.apart.filter _)
  refine ⟨h, hchannels, hchannels.imp_of_mem fun {a a'} ha _ hapart heq => ?_, ?_⟩
  · -- the same place has the same channels
    obtain ⟨l, -, hassigns⟩ := exists_left_of_forall₂ h ha
    obtain ⟨out, hout, i, hi⟩ := hassigns.exists_writes
    exact hapart out hout i ⟨hi, heq ▸ hi⟩
  · intro out hout a ha a' ha' hwhole c hc
    by_cases heq : a = a'
    · subst heq
      cases hwhole.selector_eq hc
    · refine hchannels.forall ha ha' heq out hout c ⟨⟨.whole, hwhole, ?_⟩, ⟨.channel c, hc, ?_⟩⟩
      · exact Finset.mem_range.2 (of_decide_eq_true hc.within)
      · exact Finset.mem_singleton_self c

/-- The text is that of a run of the stage, whose code is that of the nodes followed by assignments
that are kept apart. -/
def AssignsApart (o : Options) (g : Graph) (k : Sink) (b : Backend) (stage : Stage)
    (text : String) : Prop :=
  ∃ textures routes plan nodes s assignments,
    Starts o g k b stage textures routes plan ∧
      StageRun o g k b textures stage routes plan nodes s ∧
      text = s.text o b (k.outputsOf stage) ∧
      s.block.render o.stem =
        nodes.block.render o.stem ++ String.join (assignments.map Assignment.text) ∧
      WritesApart k stage o.stem nodes assignments

/-- **Each channel is written at most once, at its place.** When compiling succeeds and the outputs
of each stage have different identifiers as names, the code of a stage is that of its nodes followed
by one assignment for each link to the stage. Its place is the text for the part that the link
selects, and no two assignments of the stage write a common channel. -/
theorem assignments_apart {shader : Shader} (hg : g.Built) (hk : k.Built)
    (hnames : k.NamesApart A) (hok : (compile o g k b).result = .ok shader) :
    shader.stages.map (·.1) = k.stages ∧
      ∀ stage text, (stage, text) ∈ shader.stages → AssignsApart o g k b stage text := by
  refine ⟨(stageText_of_compile hg.wellFormed hok).1, fun stage text htext => ?_⟩
  obtain ⟨textures, routes, plan, nodes, s, hstarts, hrun, rfl⟩ := exists_starts_of_text hok htext
  obtain ⟨lines, hlines, rfl⟩ := Emission.assignAll_eq_ok hrun.assigned
  have hlinks : ∀ l ∈ k.linksTo stage, ∀ out, k.outputs[l.output]? = some out →
      out.stage = stage ∧ l.selector.within out.ty = true := by
    intro l hl out ho
    obtain ⟨hmem, out', ho', hstage⟩ := Sink.mem_linksTo.1 hl
    cases ho.symm.trans ho'
    exact ⟨hstage, hk.links_fit.within ho l hmem rfl⟩
  obtain ⟨assignments, hassigns, htexts⟩ :=
    exists_assigns o.stem hlinks (Sink.forall₂_of_routes hrun.routes_eq) hlines
  refine ⟨textures, routes, plan, nodes, _, assignments, hstarts, hrun, rfl, ?_,
    writesApart_of_assigns hk.linksApart hnames hassigns⟩
  simp [Block.render, String.join_append, htexts]

end Compile

/-! ### A sample -/

namespace Sample

/-- A sink with outputs of all shapes. One name is used in both stages, and the last link is
refused. -/
def shapes : Sink :=
  .build [.output ⟨"tint", .vertex, 0, ty⟩,
    .output ⟨"basis", .fragment, 0, ⟨.float, .mat3, fun _ => rfl⟩⟩,
    .output ⟨"tint", .fragment, 3, .vec4⟩, .output ⟨"depth", .fragment, 4, ty⟩,
    .parameter "value" ty, .bind graph 0 (.ofIndex 2), .link 0 1 (.channel 5),
    .link 0 0 .whole, .link 0 2 (.channel 3), .link 0 3 .whole, .link 0 1 (.channel 0),
    .link 0 3 (.channel 0)]

theorem namesApart_shapes : shapes.NamesApart .ascii := by
  have hall : ∀ o ∈ shapes.outputs, o.name.toList.all Alphabet.ascii.isIdent = true := by decide
  exact ⟨fun o ho => List.all_eq_true.1 (hall o ho), by decide⟩

theorem linksTo_shapes : shapes.linksTo .fragment =
    [⟨0, 1, .channel 5⟩, ⟨0, 2, .channel 3⟩, ⟨0, 3, .whole⟩, ⟨0, 1, .channel 0⟩] := rfl

end Sample

/-- Elements, a component and a whole output are written, in the order of the links. -/
theorem Compile.assignments_apart_sample :
    ∃ shader text nodes assignments,
      (compile {} Sample.graph Sample.shapes {}).result = .ok shader ∧
      (.fragment, text) ∈ shader.stages ∧
      WritesApart Sample.shapes .fragment "_" nodes assignments ∧
      assignments.map (·.target) = ["basis[1][2]", "tint.w", "depth", "basis[0][0]"] := by
  obtain ⟨shader, hok⟩ : ∃ shader, (compile {} Sample.graph Sample.shapes {}).result = .ok shader :=
    Except.exists_ok_of_isOk (by decide +kernel)
  obtain ⟨text, hmem⟩ := exists_text (Graph.built_build _).wellFormed hok
    (show Stage.fragment ∈ Sample.shapes.stages by decide)
  obtain ⟨-, htexts⟩ := assignments_apart (g := Sample.graph) (k := Sample.shapes)
    (Graph.built_build _) (Sink.built_build _) Sample.namesApart_shapes hok
  obtain ⟨-, -, -, nodes, -, assignments, -, -, -, -, hapart⟩ := htexts _ text hmem
  have hassigns := hapart.links
  rw [Sample.linksTo_shapes] at hassigns
  rcases hassigns with _ | ⟨h₁, _ | ⟨h₂, _ | ⟨h₃, _ | ⟨h₄, _ | _⟩⟩⟩⟩
  refine ⟨shader, text, nodes, _, hok, hmem, hapart, ?_⟩
  simp only [List.map_cons, List.map_nil, h₁.target_eq rfl, h₂.target_eq rfl, h₃.target_eq rfl,
    h₄.target_eq rfl]
  decide

end ShaderFlow
