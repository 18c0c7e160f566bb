import ShaderFlow.Proofs.Sink.Routes

/-!
# A sink with the outputs of one stage

`Sink.only` keeps the outputs of a stage and the links to them, in order, and all parameters. The
outputs are numbered anew, each by how many outputs of the stage come before it (`Sink.rank`), so
the routes of the stage are what they were (`Sink.routes_only`).

A sink that was built stays one: edits that concern the stage are made with the new numbers, and
the others are left out (`Sink.Built.only`).
-/

namespace ShaderFlow.Sink

variable (k : Sink) (stage : Stage)

/-- The number of outputs of a stage that come before an output. -/
def rank (output : Nat) : Nat := (k.outputs.take output).countP (·.stage == stage)

/-- The link with its output numbered among those of the stage. -/
def renumber (l : Link) : Link := { l with output := k.rank stage l.output }

/-- The sink with the outputs of one stage, the links to them, and all parameters. -/
def only : Sink where
  outputs := k.outputsOf stage
  parameters := k.parameters
  links := (k.linksTo stage).map (k.renumber stage)

variable {k stage}

@[simp]
theorem parameters_only : (k.only stage).parameters = k.parameters := rfl

/-! ### Outputs -/

theorem getElem?_outputsOf_rank {i : Nat} {output : Output} (h : k.outputs[i]? = some output)
    (hstage : output.stage = stage) :
    (k.outputsOf stage)[k.rank stage i]? = some output := by
  obtain ⟨hi, rfl⟩ := List.getElem?_eq_some_iff.1 h
  have hsplit : k.outputs = k.outputs.take i ++ k.outputs[i] :: k.outputs.drop (i + 1) := by simp
  rw [outputsOf, rank, List.countP_eq_length_filter]
  nth_rewrite 1 [hsplit]
  rw [List.filter_append, List.getElem?_append_right (Nat.le_refl _), Nat.sub_self,
    List.filter_cons_of_pos (by simp [hstage]), List.getElem?_cons_zero]

theorem rank_lt {i j : Nat} {output : Output} (h : k.outputs[i]? = some output)
    (hstage : output.stage = stage) (hij : i < j) : k.rank stage i < k.rank stage j := by
  have hsucc : k.rank stage (i + 1) = k.rank stage i + 1 := by
    simp [rank, List.take_add_one, h, hstage]
  have hle : k.rank stage (i + 1) ≤ k.rank stage j :=
    (List.take_sublist_take_left hij).countP_le
  omega

theorem rank_eq_iff {i j : Nat} {output output' : Output} (hi : k.outputs[i]? = some output)
    (hstage : output.stage = stage) (hj : k.outputs[j]? = some output')
    (hstage' : output'.stage = stage) : k.rank stage i = k.rank stage j ↔ i = j := by
  refine ⟨fun heq => ?_, fun heq => heq ▸ rfl⟩
  rcases Nat.lt_trichotomy i j with h | h | h
  · exact absurd heq (Nat.ne_of_lt (rank_lt hi hstage h))
  · exact h
  · exact absurd heq (Nat.ne_of_gt (rank_lt hj hstage' h))

theorem outputsOf_only : (k.only stage).outputsOf stage = k.outputsOf stage := by
  simp [only, outputsOf]

theorem stages_only (h : stage ∈ k.stages) : (k.only stage).stages = [stage] := by
  obtain ⟨output, ho, hstage⟩ := mem_stages.1 h
  have hany : ∀ s, (k.only stage).outputs.any (·.stage == s) = decide (s = stage) := by
    intro s
    rw [Bool.eq_iff_iff, List.any_eq_true, decide_eq_true_eq]
    simp only [only, outputsOf, List.mem_filter, beq_iff_eq]
    constructor
    · rintro ⟨a, ⟨-, rfl⟩, rfl⟩
      rfl
    · rintro rfl
      exact ⟨output, ⟨ho, hstage⟩, hstage⟩
  simp only [stages, hany]
  cases stage <;> rfl

/-! ### Routes -/

theorem routes_renumber {links : List Link} (h : ∀ l ∈ links, l.output < k.outputs.length) :
    (k.only stage).routes stage
        ((links.filter fun l => (k.outputs[l.output]?).any (·.stage == stage)).map
          (k.renumber stage)) = k.routes stage links := by
  induction links with
  | nil => rfl
  | cons l links ih =>
    obtain ⟨hl, hlinks⟩ := List.forall_mem_cons.1 h
    have ho := List.getElem?_eq_getElem hl
    by_cases hstage : k.outputs[l.output].stage = stage
    · have hrank : (k.only stage).outputs[(k.renumber stage l).output]? =
          some k.outputs[l.output] := getElem?_outputsOf_rank ho hstage
      rw [List.filter_cons_of_pos (by simp [ho, hstage]), List.map_cons]
      simp only [routes, hrank, ho, hstage, ↓reduceIte, ih hlinks]
      rfl
    · rw [List.filter_cons_of_neg (by simp [ho, hstage])]
      simp only [routes, ho, hstage, ↓reduceIte, ih hlinks]

/-- The routes of the stage do not depend on other outputs and links. -/
theorem routes_only (h : k.LinksRefer) :
    (k.only stage).routes stage (k.only stage).links = k.routes stage k.links :=
  routes_renumber fun l hl => (h l hl).2

/-! ### Edits -/

/-- An output that is added last is numbered last, and no other number changes. -/
theorem only_addOutput (h : k.LinksRefer) (o : Output) :
    (k.addOutput o).1.only stage =
      if o.stage = stage then ((k.only stage).addOutput o).1 else k.only stage := by
  have hto : (k.addOutput o).1.linksTo stage = k.linksTo stage := by
    refine List.filter_congr fun l hl => ?_
    rw [addOutput, List.getElem?_append_left (h l hl).2]
  have hlinks : (k.linksTo stage).map ((k.addOutput o).1.renumber stage) =
      (k.linksTo stage).map (k.renumber stage) := by
    refine List.map_congr_left fun l hl => ?_
    have hlt := (h l (mem_linksTo.1 hl).1).2
    rw [renumber, renumber, rank, rank, addOutput,
      List.take_append_of_le_length (Nat.le_of_lt hlt)]
  rw [only, hto, hlinks]
  split_ifs with hstage
  · simp [addOutput, outputsOf, only, hstage]
  · simp [addOutput, outputsOf, only, hstage]

/-- A link that is added last is kept, with its new number, if it leads to the stage. -/
theorem only_addLink (l : Link) :
    ({ k with links := k.links ++ [l] } : Sink).only stage =
      if (k.outputs[l.output]?).any (·.stage == stage) then
        { k.only stage with links := (k.only stage).links ++ [k.renumber stage l] }
      else k.only stage := by
  have hto : ({ k with links := k.links ++ [l] } : Sink).linksTo stage =
      k.linksTo stage ++ [l].filter fun l => (k.outputs[l.output]?).any (·.stage == stage) :=
    List.filter_append ..
  rw [only, hto]
  split_ifs with hstage
  · rw [List.filter_cons_of_pos (by exact hstage), List.map_append]
    rfl
  · rw [List.filter_cons_of_neg (by exact hstage), List.filter_nil, List.append_nil]
    rfl

theorem bindParameter_only (g : Graph) (parameter : Nat) (node : NodeId) :
    (k.only stage).bindParameter g parameter node =
      (k.bindParameter g parameter node).map (·.only stage) := by
  simp only [bindParameter, parameters_only]
  cases g.outputType? node with
  | none => rfl
  | some found =>
    cases k.parameters[parameter]? with
    | none => rfl
    | some p =>
      simp only
      split_ifs
      · rfl
      · rfl

theorem taken_only {i : Nat} {output : Output} (h : k.outputs[i]? = some output)
    (hstage : output.stage = stage) (ty : Ty) :
    (k.only stage).taken (k.rank stage i) ty = k.taken i ty := by
  have hlinks : (k.only stage).links.filter (·.output == k.rank stage i) =
      (k.links.filter (·.output == i)).map (k.renumber stage) := by
    simp only [only, linksTo, List.filter_map, List.filter_filter]
    congr 1
    refine List.filter_congr fun l _ => ?_
    rw [Bool.eq_iff_iff]
    simp only [Function.comp_apply, renumber, Bool.and_eq_true, beq_iff_eq, Option.any_eq_true]
    constructor
    · rintro ⟨hrank, output', ho, hs⟩
      exact (rank_eq_iff ho hs h hstage).1 hrank
    · rintro rfl
      exact ⟨rfl, output, h, hstage⟩
  rw [taken, taken, hlinks, List.foldl_map]
  rfl

theorem link_only {parameter i : Nat} {output : Output} (selector : Selector)
    (h : k.outputs[i]? = some output) (hstage : output.stage = stage) :
    (k.only stage).link parameter (k.rank stage i) selector =
      (k.link parameter i selector).map (·.only stage) := by
  have hrank : (k.only stage).outputs[k.rank stage i]? = some output :=
    getElem?_outputsOf_rank h hstage
  simp only [link, parameters_only, h, hrank, taken_only h hstage]
  cases k.parameters[parameter]? with
  | none => rfl
  | some p =>
    simp only
    split_ifs
    · rw [Except.map, only_addLink, if_pos (by simp [h, hstage])]
      rfl
    · rfl
    · rfl

/-- An edit that is accepted concerns the stage, and is accepted with the new numbers, or it makes
no difference to the stage. -/
theorem Built.only_apply (h : (k.only stage).Built) (hk : k.LinksRefer) {e : Edit} {k' : Sink}
    (he : k.apply e = .ok k') : (k'.only stage).Built := by
  cases e with
  | output o =>
    cases he
    rw [only_addOutput hk]
    split_ifs
    · exact h.apply (e := .output o) rfl
    · exact h
  | parameter name ty =>
    cases he
    exact h.apply (e := .parameter name ty) rfl
  | bind g parameter node =>
    refine h.apply (e := .bind g parameter node) ?_
    exact (bindParameter_only g parameter node).trans (Except.map_eq_ok.2 ⟨k', he, rfl⟩)
  | link parameter i selector =>
    obtain ⟨p, output, -, ho, -, heq⟩ := link_eq_ok he
    by_cases hstage : output.stage = stage
    · refine h.apply (e := .link parameter (k.rank stage i) selector) ?_
      exact (link_only selector ho hstage).trans (Except.map_eq_ok.2 ⟨k', he, rfl⟩)
    · rw [heq, only_addLink, if_neg (by simp [ho, hstage])]
      exact h

theorem Built.only (h : k.Built) (stage : Stage) : (k.only stage).Built :=
  h.induction (P := fun k => (k.only stage).Built) ⟨[], rfl⟩ fun _ _ _ hk hP he =>
    hP.only_apply hk.links_refer he

end ShaderFlow.Sink
