import ShaderFlow.Proofs.Stage.Run

/-!
# Why a node cannot be written

A node that is scheduled is there and has its arguments. What can still be in the way is its
requirement: the backend lacks something for it (`Backend.Lacks`), or there is no room for its
texture (`Emission.Full`). The first is what the check of a node that is not written finds, too.

* `Requirement.lacks_of_check` and `Emission.lacks_or_full_of_access` read the causes off the
  errors;
* `Emission.exists_cause_of_schedule` finds the node at which a schedule stopped, and what was
  written before it.
-/

namespace ShaderFlow

/-! ### What a backend lacks -/

/-- A backend lacks something for a requirement, and the error says what it is. -/
inductive Backend.Lacks (b : Backend) : Requirement → Error → Prop
  /-- Nothing provides the capability. -/
  | unresolved {r : Requirement} (h : b.resolve? r.needs = none) :
    b.Lacks r (.unresolvedCapability r.needs)
  /-- The capability of a builtin is provided, but nothing says how to read the builtin. -/
  | unreadable {v : Builtin} {resolution : Resolution}
    (h : b.resolve? v.capability = some resolution) (hv : b.accessors.lookup v = none) :
    b.Lacks (.builtin v) (.missingAccessor v)
  /-- What is provided for textures is not a sampler array. -/
  | incompatible {t : Texture} {resolution : Resolution} {d : Descriptor}
    (h : b.resolve? .textureSample = some resolution)
    (hd : b.descriptor? resolution.handle = some d) (hkind : d.kind ≠ .sampledTextures) :
    b.Lacks (.texture t) (.incompatibleResource .textureSample d.name)

theorem Descriptor.capacity?_eq_none_iff {d : Descriptor} :
    d.capacity? = none ↔ d.kind ≠ .sampledTextures := by
  unfold capacity? kind
  split <;> split <;> simp_all

namespace Backend

variable {b : Backend}

theorem resolve_eq_error {c : Capability} {e : Error} :
    b.resolve c = .error e ↔ b.resolve? c = none ∧ e = .unresolvedCapability c := by
  unfold resolve
  cases b.resolve? c <;> simp [eq_comm]

theorem accessor_eq_error {v : Builtin} {e : Error} :
    b.accessor v = .error e ↔ b.accessors.lookup v = none ∧ e = .missingAccessor v := by
  unfold accessor
  cases b.accessors.lookup v <;> simp [eq_comm]

theorem capacity_eq_error {h : Handle} {d : Descriptor} (hd : b.descriptor? h = some d)
    {e : Error} : b.capacity h = .error e ↔
      d.kind ≠ .sampledTextures ∧ e = .incompatibleResource .textureSample d.name := by
  rw [← Descriptor.capacity?_eq_none_iff]
  unfold capacity
  rw [hd, Option.bind_some, Option.map_some, Option.getD_some]
  cases d.capacity? <;> simp [eq_comm]

theorem exists_descriptor {c : Capability} {resolution : Resolution}
    (h : b.resolve? c = some resolution) :
    ∃ d, b.descriptor? resolution.handle = some d ∧ d.path = resolution.path := by
  obtain ⟨handle, -, h⟩ := Option.bind_eq_some_iff.1 h
  obtain ⟨resource, hresource, h⟩ := Option.bind_eq_some_iff.1 h
  cases h
  exact ⟨resource.descriptor, by simp [descriptor?, hresource], rfl⟩

theorem lacks_of_accessor {v : Builtin} {resolution : Resolution} {e : Error}
    (hres : b.resolve v.capability = .ok resolution) (h : b.accessor v = .error e) :
    b.Lacks (.builtin v) e := by
  obtain ⟨hv, rfl⟩ := accessor_eq_error.1 h
  exact .unreadable (resolve_eq_ok.1 hres) hv

theorem lacks_of_capacity {t : Texture} {resolution : Resolution} {e : Error}
    (hres : b.resolve .textureSample = .ok resolution)
    (h : b.capacity resolution.handle = .error e) : b.Lacks (.texture t) e := by
  have hres := resolve_eq_ok.1 hres
  obtain ⟨d, hd, -⟩ := exists_descriptor hres
  obtain ⟨hkind, rfl⟩ := (capacity_eq_error hd).1 h
  exact .incompatible hres hd hkind

end Backend

theorem Requirement.lacks_of_check {b : Backend} {r : Requirement} {e : Error}
    (h : (r.check b).result = .error e) : b.Lacks r e := by
  simp only [Requirement.check, Backend.resolveTraced, Traced.result_bind, Traced.result_lift,
    Traced.result_report, Traced.result_pure] at h
  obtain h | ⟨resolution, hres, h⟩ := Except.bind_eq_error.1 h
  · obtain h | ⟨_, -, h⟩ := Except.bind_eq_error.1 h
    · obtain ⟨hnone, rfl⟩ := Backend.resolve_eq_error.1 h
      exact .unresolved hnone
    · cases h
  · obtain ⟨_, hres, hrest⟩ := Except.bind_eq_ok.1 hres
    cases hrest
    cases r with
    | capability c => cases h
    | builtin v => exact Backend.lacks_of_accessor hres (Except.map_eq_error.1 h)
    | texture t => exact Backend.lacks_of_capacity hres (Except.map_eq_error.1 h)

theorem Schedule.exists_lacks_of_checkNodes {g : Graph} {b : Backend} {ids : List NodeId}
    {e : Error} (hids : ∀ id ∈ ids, g.contains id = true)
    (h : (checkNodes g b ids).result = .error e) :
    ∃ id ∈ ids, ∃ n r, g.node? id = some n ∧ n.function.requirement = some r ∧ b.Lacks r e := by
  induction ids with
  | nil => cases h
  | cons id ids ih =>
    obtain ⟨hid, hids⟩ := List.forall_mem_cons.1 hids
    rw [checkNodes, Traced.result_bind, Except.bind_eq_error] at h
    obtain h | ⟨_, -, h⟩ := h
    · obtain ⟨n, hn⟩ := Option.isSome_iff_exists.1 hid
      rw [checkNode, hn] at h
      simp only at h
      split at h
      · cases h
      next r hr => exact ⟨id, List.mem_cons_self, n, r, hn, hr, Requirement.lacks_of_check h⟩
    · obtain ⟨a, ha, hcause⟩ := ih hids h
      exact ⟨a, List.mem_cons_of_mem _ ha, hcause⟩

/-! ### What there is no room for -/

theorem TextureArray.assign_eq_error {s : TextureArray} {t : Texture} {binding : String}
    {capacity : Nat} {e : Error} (h : s.assign t binding capacity = .error e) :
    t ∉ s.textures ∧ capacity ≤ s.textures.length ∧
      e = .textureSlotsExhausted binding capacity := by
  unfold assign at h
  split at h
  · cases h
  next hnone =>
    split at h
    · cases h
    next hfull =>
      cases h
      exact ⟨List.idxOf?_eq_none_iff.1 hnone, Nat.le_of_not_lt hfull, rfl⟩

namespace Emission

variable {o : Options} {g : Graph} {b : Backend} {s : Emission} {stopped : Stopped}

/-- A texture has no place, and the sampler array is full; the error names the array. -/
def Full (b : Backend) (s : Emission) (t : Texture) (e : Error) : Prop :=
  t ∉ s.textures.textures ∧ ∃ resolution set name count,
    b.resolve? .textureSample = some resolution ∧
    b.descriptor? resolution.handle = some (.binding ⟨set, name, .sampledTextures count⟩) ∧
    count.toNat ≤ s.textures.textures.length ∧ e = .textureSlotsExhausted name count.toNat

/-- An access fails for want of something in the backend or of room for a texture. -/
theorem lacks_or_full_of_access {required : Option Requirement}
    (h : s.access b required = .error stopped) :
    ∃ r, required = some r ∧
      (b.Lacks r stopped.error ∨ ∃ t, r = .texture t ∧ s.Full b t stopped.error) := by
  cases required with
  | none => cases h
  | some r =>
    refine ⟨r, rfl, ?_⟩
    obtain h | ⟨resolution, hres, h⟩ := Except.bind_eq_error.1 h
    · obtain ⟨e, he, rfl⟩ := Except.mapError_eq_error.1 h
      obtain ⟨hnone, rfl⟩ := Backend.resolve_eq_error.1 he
      exact .inl (.unresolved hnone)
    rw [orStop_eq_ok] at hres
    obtain h | ⟨_, -, h⟩ := Except.bind_eq_error.1 h
    · cases r with
      | capability c => cases h
      | builtin v =>
        obtain h | ⟨_, -, h⟩ := Except.bind_eq_error.1 h
        · obtain ⟨e, he, rfl⟩ := Except.mapError_eq_error.1 h
          exact .inl (Backend.lacks_of_accessor hres he)
        · cases h
      | texture t =>
        obtain h | ⟨capacity, hcap, h⟩ := Except.bind_eq_error.1 h
        · obtain ⟨e, he, rfl⟩ := Except.mapError_eq_error.1 h
          exact .inl (Backend.lacks_of_capacity hres he)
        obtain h | ⟨_, -, h⟩ := Except.bind_eq_error.1 h
        · obtain ⟨e, he, rfl⟩ := Except.mapError_eq_error.1 h
          rw [orStop_eq_ok] at hcap
          obtain ⟨set, name, count, rfl, hd⟩ := Backend.capacity_eq_ok.1 hcap
          obtain ⟨hnew, hfull, rfl⟩ := TextureArray.assign_eq_error he
          have hres := Backend.resolve_eq_ok.1 hres
          obtain ⟨d, hd', hpath⟩ := Backend.exists_descriptor hres
          cases hd.symm.trans hd'
          refine .inr ⟨t, rfl, hnew, resolution, set, name, count, hres, hd, hfull, ?_⟩
          rw [← hpath]
          rfl
        · cases h
    · cases h

/-! ### Where a schedule stops -/

/-- The next node of a schedule is there and has its arguments, so only its requirement can be in
the way. -/
theorem Ran.exists_cause {before : List Texture} {done rest : List NodeId} {id : NodeId}
    {roots : List NodeId} {plan : Schedule} {shared : Bool} (h : Ran g b before done s)
    (hplan : plan.Sound g roots) (horder : plan.order = done ++ id :: rest)
    (herror : s.node o g b shared id = .error stopped) :
    ∃ n r, g.node? id = some n ∧ n.function.requirement = some r ∧
      (b.Lacks r stopped.error ∨ ∃ t, r = .texture t ∧ s.Full b t stopped.error) := by
  obtain ⟨n, hn, hwired⟩ := hplan.wired id (by simp [horder])
  obtain ⟨args, hargs⟩ := exists_values (h.isSome_value? hplan horder hn)
  unfold Emission.node at herror
  rw [hn] at herror
  obtain herror | ⟨_, -, herror⟩ := Except.bind_eq_error.1 herror
  · rw [(arguments_eq_ok_of_wired hwired).2 hargs] at herror
    cases herror
  · obtain herror | ⟨_, -, herror⟩ := Except.bind_eq_error.1 herror
    · obtain ⟨r, hr, hcause⟩ := lacks_or_full_of_access herror
      exact ⟨n, r, hn, hr, hcause⟩
    · cases herror

/-- A schedule that cannot be written stops at a node whose requirement is in the way. -/
theorem exists_cause_of_schedule {textures : TextureArray} {roots : List NodeId} {plan : Schedule}
    (hplan : plan.Sound g roots)
    (h : schedule o g b { textures } plan = .error stopped) :
    ∃ done id rest s n r, plan.order = done ++ id :: rest ∧ Ran g b textures.textures done s ∧
      g.node? id = some n ∧ n.function.requirement = some r ∧
      (b.Lacks r stopped.error ∨ ∃ t, r = .texture t ∧ s.Full b t stopped.error) := by
  obtain ⟨done, id, rest, s, horder, hran, herror⟩ := Except.exists_step_of_foldlM_error
    (P := Ran g b textures.textures) h (Ran.initial textures)
    fun done id rest _ s s' hran hnode => by
      obtain ⟨n, args, path, hwrites⟩ := writes_of_node hnode
      exact hran.write hwrites
  obtain ⟨n, r, hn, hr, hcause⟩ := hran.exists_cause hplan horder herror
  exact ⟨done, id, rest, s, n, r, horder, hran, hn, hr, hcause⟩

end Emission

end ShaderFlow
