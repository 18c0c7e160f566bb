import ShaderFlow.Proofs.Sharing.Mass
import ShaderFlow.Proofs.Stage.Run

/-!
# Mass on its way to the text

While the nodes of a stage are written, the mass of a character is in the lines, or in values that
wait to be used. The invariant `Emission.Balanced` counts a waiting value for each of its uses to
come: a value with more than one has no mass, and one with a single use gives its mass away with
it. All uses of a node come after it (`Schedule.Sound.count_future`), so nothing is counted twice.

If a single node calls a name with the character, there is mass for that node and no other
(`Emission.balanced_of_schedule`).
-/

namespace ShaderFlow

variable {c : Char}

/-! ### Names that a caller has chosen -/

/-- The names in a resource. -/
def Descriptor.names : Descriptor → List String
  | binding ⟨_, name, .uniformBlock block fields⟩ => name :: block :: fields.map (·.name)
  | binding ⟨_, name, .sampledTextures _⟩ => [name]
  | inputBlock name fields => name :: fields.map (·.name)

/-- No name of a resource and no text that reads a builtin has the character. -/
structure Backend.Avoids (b : Backend) (c : Char) : Prop where
  /-- No resource, block or field has it in its name. -/
  names : ∀ r ∈ b.resources, ∀ s ∈ r.descriptor.names, c ∉ s.toList
  /-- No builtin is read with it. -/
  accessors : ∀ v text, b.accessor v = .ok text → c ∉ text.toList

theorem Descriptor.not_mem_path {d : Descriptor} (h : ∀ s ∈ d.names, c ∉ s.toList) :
    c ∉ d.path.toList := by
  unfold path
  split
  next binding =>
    obtain ⟨set, name, content⟩ := binding
    refine h name ?_
    cases content <;> simp [names]
  next => simp

namespace Backend.Avoids

variable {b : Backend}

theorem not_mem_path (hb : b.Avoids c) {capability : Capability} {r : Resolution}
    (h : b.resolve? capability = some r) : c ∉ r.path.toList := by
  obtain ⟨handle, -, h⟩ := Option.bind_eq_some_iff.1 h
  obtain ⟨resource, hresource, h⟩ := Option.bind_eq_some_iff.1 h
  cases h
  exact Descriptor.not_mem_path (hb.names resource (List.mem_of_find?_eq_some hresource))

theorem not_mem_access? (hb : b.Avoids c) (hc : 128 ≤ c.toNat) {textures : List Texture}
    {r : Requirement} {text : String} (h : b.access? textures r = some text) :
    c ∉ text.toList := by
  cases r with
  | capability capability =>
    obtain ⟨resolution, hres, rfl⟩ := Option.map_eq_some_iff.1 h
    exact hb.not_mem_path hres
  | builtin v =>
    obtain ⟨resolution, hres, h⟩ := Option.bind_eq_some_iff.1 h
    obtain ⟨accessor, haccessor, h⟩ := Option.bind_eq_some_iff.1 h
    cases h
    rw [String.toList_append, List.mem_append, not_or]
    exact ⟨hb.not_mem_path hres, hb.accessors v accessor (accessor_eq_ok.2 haccessor)⟩
  | texture t =>
    obtain ⟨resolution, hres, h⟩ := Option.bind_eq_some_iff.1 h
    obtain ⟨slot, -, h⟩ := Option.bind_eq_some_iff.1 h
    cases h
    have hopen : c ∉ "[".toList := IsAscii.not_mem (by decide) hc
    have hclose : c ∉ "]".toList := IsAscii.not_mem (by decide) hc
    simp only [String.toList_append, List.mem_append, not_or]
    exact ⟨⟨⟨hb.not_mem_path hres, hopen⟩, (isAscii_repr slot).not_mem hc⟩, hclose⟩

end Backend.Avoids

/-! ### Uses to come -/

theorem Schedule.Sound.not_mem_done {g : Graph} {roots : List NodeId} {plan : Schedule}
    (h : plan.Sound g roots) {done rest : List NodeId} {id : NodeId}
    (horder : plan.order = done ++ id :: rest) : id ∉ done := by
  have hnd := h.nodup
  rw [horder] at hnd
  exact fun hmem => (List.nodup_append.1 hnd).2.2 id hmem id List.mem_cons_self rfl

/-- All uses of a node come after it. -/
theorem Schedule.Sound.count_future {g : Graph} {roots : List NodeId} {plan : Schedule}
    (h : plan.Sound g roots) {done rest : List NodeId} {id : NodeId}
    (horder : plan.order = done ++ id :: rest) :
    (roots ++ rest.flatMap g.sources).count id = plan.uses.count id := by
  have hnew := h.not_mem_done horder
  have hself : id ∉ g.sources id := fun hmem => hnew (h.sorted done id rest horder hmem)
  -- whatever is done had its sources done before, and the node is not done
  have hdone : id ∉ done.flatMap g.sources := by
    intro hmem
    obtain ⟨user, huser, hsource⟩ := List.mem_flatMap.1 hmem
    obtain ⟨before, after, rfl⟩ := List.append_of_mem huser
    have := h.sorted before user (after ++ id :: rest) (by simp [horder]) hsource
    exact hnew (List.mem_append_left _ this)
  rw [h.uses, horder]
  simp only [List.flatMap_append, List.flatMap_cons, List.count_append,
    List.count_eq_zero_of_not_mem hself, List.count_eq_zero_of_not_mem hdone, Nat.zero_add]

namespace Emission

variable {o : Options} {g : Graph} {b : Backend} {roots : List NodeId} {plan : Schedule}
  {s s' : Emission} {target : NodeId}

/-- How often a character stands in the value of a node. -/
def weight (c : Char) (s : Emission) (id : NodeId) : Nat :=
  ((s.value? id).map fun v => v.expr.mass c).getD 0

theorem sum_weight {sources : List NodeId} {args : List Operand}
    (h : List.Forall₂ (fun source value => s.value? source = some value) sources args) :
    (sources.map (s.weight c)).sum = (args.map fun v => v.expr.mass c).sum := by
  induction h with
  | nil => rfl
  | cons hvalue _ ih => simp [weight, hvalue, ih]

/-- The lines and the values for each of their uses to come have the mass of the target, if it is
done, and no other. -/
def Balanced (c : Char) (g : Graph) (roots rest : List NodeId) (done : Bool) (s : Emission) :
    Prop :=
  s.block.mass c + ((roots ++ rest.flatMap g.sources).map (s.weight c)).sum = done.toNat

theorem weight_write {shared : Bool} {id : NodeId} {n : Node} {args : List Operand}
    {path : Option String} (hwrites : Writes o g b s shared id n args path s')
    (hnew : s.value? id = none) (x : NodeId) :
    s'.weight c x = s.weight c x +
      if x = id then (code o shared n args path s.block).2.expr.mass c else 0 := by
  rw [weight, hwrites.value?]
  split_ifs with hx
  · simp [weight, hx, hnew]
  · rfl

theorem sum_weight_write {shared : Bool} {id : NodeId} {n : Node} {args : List Operand}
    {path : Option String} (hwrites : Writes o g b s shared id n args path s')
    (hnew : s.value? id = none) (ids : List NodeId) :
    (ids.map (s'.weight c)).sum = (ids.map (s.weight c)).sum +
      ids.count id * (code o shared n args path s.block).2.expr.mass c := by
  induction ids with
  | nil => simp
  | cons x ids ih =>
    rw [List.map_cons, List.sum_cons, ih, weight_write hwrites hnew, List.map_cons, List.sum_cons,
      List.count_cons]
    by_cases hx : x = id
    · simp only [hx, ↓reduceIte, beq_self_eq_true, Nat.add_mul, Nat.one_mul]
      omega
    · simp only [hx, ↓reduceIte, beq_iff_eq, Nat.add_zero]
      omega

/-- Writing a node moves mass from its arguments to its value and the lines, and adds that of the
name it calls. -/
theorem Balanced.write {id : NodeId} {n : Node} {args : List Operand} {path : Option String}
    {done rest : List NodeId} {before : List Texture} (hc : 128 ≤ c.toNat)
    (hstem : c ∉ o.stem.toList) (hplan : plan.Sound g roots)
    (horder : plan.order = done ++ id :: rest) (hran : Ran g b before done s)
    (h : Balanced c g roots (id :: rest) (decide (target ∈ done)) s)
    (hwrites : Writes o g b s (1 < plan.uses.count id) id n args path s') (hwired : n.Wired)
    (hslots : n.inputs.length = n.signature.arity) (hown : n.function.IsOwn)
    (hpath : ∀ text, path = some text → c ∉ text.toList)
    (hcalled : (n.function.calls?.getD "").toList.count c = (decide (id = target)).toNat) :
    Balanced c g roots rest (decide (target ∈ done ++ [id])) s' := by
  have hargs := hwrites.arguments_of_wired hwired
  have hlen := hwrites.length_arguments hslots
  have hfresh := hplan.not_mem_done horder
  have hnew : s.value? id = none := by
    rw [← Option.not_isSome_iff_eq_none, hran.known]
    exact hfresh
  obtain ⟨hmass, hshared⟩ := mass_code hc hstem hown hlen hpath (b := s.block)
    (decide (1 < plan.uses.count id))
  -- the arguments are counted among the uses to come before, and the value after
  unfold Balanced at h ⊢
  rw [List.flatMap_cons, List.map_append, List.map_append, List.sum_append, List.sum_append,
    g.sources_of_node? hwrites.node, sum_weight hargs] at h
  rw [sum_weight_write hwrites hnew, hplan.count_future horder, hwrites.block, List.map_append,
    List.sum_append]
  have hpos := hplan.uses_pos (show id ∈ plan.order by simp [horder])
  -- a value that is used more than once has no mass, so its uses do not add any
  have hvalue : plan.uses.count id *
      (code o (1 < plan.uses.count id) n args path s.block).2.expr.mass c =
        (code o (1 < plan.uses.count id) n args path s.block).2.expr.mass c := by
    by_cases hmany : 1 < plan.uses.count id
    · rw [hshared (decide_eq_true hmany), Nat.mul_zero]
    · rw [show plan.uses.count id = 1 by omega, Nat.one_mul]
  have htarget : (decide (target ∈ done ++ [id])).toNat =
      (decide (target ∈ done)).toNat + (decide (id = target)).toNat := by
    by_cases hid : id = target
    · subst hid
      simp [hfresh]
    · simp [hid, Ne.symm hid]
  rw [hvalue, htarget, ← hcalled]
  omega

theorem Balanced.initial (order : List NodeId) (textures : TextureArray) :
    Balanced c g roots order (decide (target ∈ ([] : List NodeId))) { textures } := by
  have hzero : weight c { textures } = fun _ => 0 := rfl
  simp [Balanced, Block.mass, hzero]

/-- When the nodes are written, the lines and the values for each assignment to come have the mass
of the target, if it was scheduled, and no other. -/
theorem balanced_of_schedule {textures : TextureArray} {nodes : Emission} (hc : 128 ≤ c.toNat)
    (hstem : c ∉ o.stem.toList) (hg : g.WellFormed) (hb : b.Avoids c)
    (hplan : plan.Sound g roots) (h : schedule o g b { textures } plan = .ok nodes)
    (hown : ∀ id n, g.node? id = some n → n.function.IsOwn)
    (hcalled : ∀ id n, g.node? id = some n →
      (n.function.calls?.getD "").toList.count c = (decide (id = target)).toNat) :
    Balanced c g roots [] (decide (target ∈ plan.order)) nodes := by
  refine (schedule_induction
    (P := fun done s => Ran g b textures.textures done s ∧
      ∀ rest, plan.order = done ++ rest → Balanced c g roots rest (decide (target ∈ done)) s)
    hplan h ⟨Ran.initial textures, fun rest _ => Balanced.initial rest textures⟩ ?_).2 [] (by simp)
  rintro done id rest s s' n args path horder ⟨hran, hbalanced⟩ hwired hwrites
  refine ⟨hran.write hwrites, fun rest' horder' => ?_⟩
  have hrest : rest = rest' := by simpa [horder] using horder'
  subst hrest
  refine (hbalanced _ horder).write hc hstem hplan horder hran hwrites hwired
    (hg.slots hwrites.node) (hown id n hwrites.node) (fun text htext => ?_)
    (hcalled id n hwrites.node)
  rw [hwrites.path_eq] at htext
  obtain ⟨r, -, htext⟩ := Option.bind_eq_some_iff.1 htext
  exact hb.not_mem_access? hc htext

end Emission

end ShaderFlow
