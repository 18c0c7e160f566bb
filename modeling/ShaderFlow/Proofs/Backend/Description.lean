import ShaderFlow.Backend.Description
import ShaderFlow.Proofs.Backend.Numbering

/-!
# What a description lists

A description is built by registering its resources one after the other, each followed by links from
its capabilities, so a link made later hides the earlier ones of the same capability. What counts in
the end is the last resource that lists a capability and the last text that is listed for a builtin
(`LastWith`), and the handle of a resource counts those of its kind that are listed before it
(`Provision.handleAfter`).

* `Description.Describes` is what building keeps from resource to resource;
* `Description.build_means_list` is the summary.
-/

namespace ShaderFlow

/-! ### The last element with a property -/

section LastWith

variable {α β : Type} {P : α → Prop} {l before : List α} {a x : α}

/-- The last element of a list that has a property, and what stands before it. -/
def LastWith (P : α → Prop) (l before : List α) (a : α) : Prop :=
  ∃ after, l = before ++ a :: after ∧ P a ∧ ∀ x ∈ after, ¬ P x

theorem LastWith.holds (h : LastWith P l before a) : P a := by
  obtain ⟨-, -, ha, -⟩ := h
  exact ha

theorem LastWith.mem (h : LastWith P l before a) : a ∈ l := by
  obtain ⟨after, rfl, -, -⟩ := h
  simp

theorem lastWith_concat :
    LastWith P (l ++ [x]) before a ↔
      (P x ∧ before = l ∧ a = x) ∨ (¬ P x ∧ LastWith P l before a) := by
  constructor
  · rintro ⟨after, hsplit, ha, hafter⟩
    rcases List.eq_nil_or_concat after with rfl | ⟨after, y, rfl⟩
    · obtain ⟨rfl, hx⟩ := List.append_inj' hsplit rfl
      cases hx
      exact .inl ⟨ha, rfl, rfl⟩
    · rw [List.concat_eq_append] at hsplit hafter
      rw [← List.cons_append, ← List.append_assoc] at hsplit
      obtain ⟨hl, hx⟩ := List.append_inj' hsplit rfl
      cases hx
      exact .inr ⟨hafter x (by simp), after, hl, ha, fun y hy => hafter y (by simp [hy])⟩
  · rintro (⟨hx, rfl, rfl⟩ | ⟨hx, after, rfl, ha, hafter⟩)
    · exact ⟨[], rfl, hx, nofun⟩
    · refine ⟨after ++ [x], by simp, ha, fun y hy => ?_⟩
      rcases List.mem_append.1 hy with hy | hy
      · exact hafter y hy
      · exact List.mem_singleton.1 hy ▸ hx

theorem exists_lastWith_iff : (∃ before a, LastWith P l before a) ↔ ∃ a ∈ l, P a := by
  refine ⟨fun ⟨_, a, h⟩ => ⟨a, h.mem, h.holds⟩, ?_⟩
  induction l using List.reverseRecOn with
  | nil => simp
  | append_singleton l x ih =>
    rintro ⟨a, ha, hP⟩
    by_cases hx : P x
    · exact ⟨l, x, lastWith_concat.2 (.inl ⟨hx, rfl, rfl⟩)⟩
    · have hal : a ∈ l := by
        rcases List.mem_append.1 ha with ha | ha
        · exact ha
        · exact absurd (List.mem_singleton.1 ha ▸ hP) hx
      obtain ⟨before, a', h⟩ := ih ⟨a, hal, hP⟩
      exact ⟨before, a', lastWith_concat.2 (.inr ⟨hx, h⟩)⟩

/-- In a table that is kept with the newest entry first, lookup finds the last that was added. -/
theorem lookup_reverse_eq_some [DecidableEq α] {table : List (α × β)} {a : α} {b : β} :
    table.reverse.lookup a = some b ↔ ∃ before, LastWith (·.1 = a) table before (a, b) := by
  induction table using List.reverseRecOn with
  | nil => simp [LastWith]
  | append_singleton table entry ih =>
    obtain ⟨a', b'⟩ := entry
    rw [List.reverse_append, List.reverse_singleton, List.singleton_append, lookup_cons_ite]
    simp only [lastWith_concat]
    by_cases h : a = a'
    · subst h
      simp [eq_comm]
    · simp [h, Ne.symm h, ih]

end LastWith

/-! ### Resources and their capabilities -/

/-- The handle of a resource that comes after others: its kind, and the number of those before it
that are of its kind. -/
def Provision.handleAfter (before : List Provision) (p : Provision) : Handle :=
  ⟨p.descriptor.kind, before.countP (·.descriptor.kind == p.descriptor.kind)⟩

namespace Description

variable {b : Backend} {done : List Provision}

/-- The resources in the order of the list, with their handles. -/
def listed (provisions : List Provision) : List (Handle × Descriptor) :=
  provisions.mapIdx fun i p => (p.handleAfter (provisions.take i), p.descriptor)

/-- The backend has the resources and the links of the provisions, and no texts for builtins. -/
structure Describes (b : Backend) (done : List Provision) : Prop where
  /-- The resources are those listed, numbered as they are listed. -/
  numbered : b.Numbered (listed done)
  /-- A capability is provided by the last resource that lists it. -/
  provider : ∀ c h, b.providers.lookup c = some h ↔
    ∃ before p, LastWith (c ∈ ·.capabilities) done before p ∧ h = p.handleAfter before
  /-- Texts for builtins come later. -/
  accessors : b.accessors = []

theorem listed_concat (done : List Provision) (p : Provision) :
    listed (done ++ [p]) = listed done ++ [(p.handleAfter done, p.descriptor)] := by
  rw [listed, List.mapIdx_append, listed]
  congr 1
  · refine List.ext_getElem (by simp) fun i hi _ => ?_
    rw [List.length_mapIdx] at hi
    simp [List.take_append_of_le_length (Nat.le_of_lt hi)]
  · simp

theorem Describes.nextHandle_eq (h : Describes b done) (p : Provision) :
    b.nextHandle p.descriptor.kind = p.handleAfter done := by
  have hkinds : b.resources.map (·.handle.kind) = done.map (·.descriptor.kind) := by
    calc b.resources.map (·.handle.kind)
        = (listed done).map (·.1.kind) := by simp [← h.numbered.resources_eq]
      _ = done.map (·.descriptor.kind) := by
        refine List.ext_getElem (by simp [listed]) fun i _ _ => ?_
        simp [listed, Provision.handleAfter]
  have hcount := congrArg (List.countP (· == p.descriptor.kind)) hkinds
  rw [List.countP_map, List.countP_map] at hcount
  rw [Backend.nextHandle, Provision.handleAfter]
  exact congrArg _ hcount

theorem lookup_provideAll (capabilities : List Capability) (h : Handle) (b : Backend)
    (c : Capability) :
    (capabilities.foldl (fun b c => b.provide c h) b).providers.lookup c =
      if c ∈ capabilities then some h else b.providers.lookup c := by
  induction capabilities generalizing b with
  | nil => simp
  | cons c' capabilities ih =>
    rw [List.foldl_cons, ih, Backend.provide, lookup_cons_ite]
    by_cases hc : c = c' <;> by_cases hmem : c ∈ capabilities <;> simp [hc, hmem]

theorem provideAll_eq (capabilities : List Capability) (h : Handle) (b : Backend) :
    ∃ providers, capabilities.foldl (fun b c => b.provide c h) b = { b with providers } := by
  induction capabilities generalizing b with
  | nil => exact ⟨b.providers, rfl⟩
  | cons c capabilities ih => exact ih (b.provide c h)

theorem describes_empty : Describes {} [] where
  numbered := Backend.numbered_empty
  provider c h := by simp [LastWith]
  accessors := rfl

/-- One more resource, with links from its capabilities. -/
theorem Describes.addProvision (h : Describes b done) (p : Provision) :
    Describes (addProvision b p) (done ++ [p]) := by
  have hregister := h.numbered.register p.descriptor
  have hhandle : (b.register p.descriptor).2 = p.handleAfter done := h.nextHandle_eq p
  rw [hhandle, ← listed_concat] at hregister
  obtain ⟨providers, heq⟩ := provideAll_eq p.capabilities (p.handleAfter done)
    (b.register p.descriptor).1
  have hadd : Description.addProvision b p = p.capabilities.foldl
      (fun b c => b.provide c (p.handleAfter done)) (b.register p.descriptor).1 := by
    rw [← hhandle]
    rfl
  refine ⟨?_, fun c handle => ?_, ?_⟩
  · rw [hadd, heq]
    exact ⟨hregister.resources_eq, hregister.kind_eq, hregister.handles, hregister.bindings⟩
  · rw [hadd, lookup_provideAll]
    simp only [lastWith_concat]
    by_cases hc : c ∈ p.capabilities
    · simp [hc, eq_comm]
    · have hproviders : (b.register p.descriptor).1.providers = b.providers := rfl
      simpa [hc, hproviders] using h.provider c handle
  · rw [hadd, heq]
    exact h.accessors

theorem Describes.addAll (h : Describes b done) (provisions : List Provision) :
    Describes (provisions.foldl Description.addProvision b) (done ++ provisions) := by
  induction provisions generalizing b done with
  | nil => simpa using h
  | cons p provisions ih => simpa using ih (h.addProvision p)

/-! ### The whole description -/

theorem setAccessors_eq (accessors : List (Builtin × String)) (b : Backend) :
    accessors.foldl (fun b a => b.setAccessor a.1 a.2) b =
      { b with accessors := accessors.reverse ++ b.accessors } := by
  induction accessors generalizing b with
  | nil => rfl
  | cons a accessors ih =>
    rw [List.foldl_cons, ih]
    simp [Backend.setAccessor]

/-- A built backend is one with the resources and links of the description, and its texts. -/
theorem exists_describes (d : Description) :
    ∃ b, Describes b d.provisions ∧ d.build = { b with accessors := d.accessors.reverse } := by
  have h := describes_empty.addAll d.provisions
  refine ⟨_, h, ?_⟩
  rw [build, setAccessors_eq, h.accessors, List.append_nil]

theorem Describes.resource?_eq (h : Describes b done) {before after : List Provision}
    {p : Provision} (hsplit : done = before ++ p :: after) :
    ∃ r, b.resource? (p.handleAfter before) = some r ∧ r.descriptor = p.descriptor := by
  have hlisted : (p.handleAfter before, p.descriptor) ∈ listed done := by
    refine List.mem_mapIdx.2 ⟨before.length, by simp [hsplit], ?_⟩
    simp [hsplit]
  rw [← h.numbered.resources_eq] at hlisted
  obtain ⟨r, hr, heq⟩ := List.mem_map.1 hlisted
  obtain ⟨hhandle, hdescriptor⟩ := Prod.mk.inj heq
  exact ⟨r, hhandle ▸ h.numbered.resource?_of_mem hr, hdescriptor⟩

/-- A capability is resolved to the last resource that lists it. -/
theorem Describes.resolve_eq_ok (h : Describes b done) {c : Capability} {resolution : Resolution} :
    b.resolve c = .ok resolution ↔ ∃ before p, LastWith (c ∈ ·.capabilities) done before p ∧
      resolution = ⟨p.handleAfter before, p.descriptor.path⟩ := by
  rw [Backend.resolve_eq_ok]
  constructor
  · intro hresolve
    obtain ⟨handle, hhandle, hresolve⟩ := Option.bind_eq_some_iff.1 hresolve
    obtain ⟨r, hr, hresolve⟩ := Option.bind_eq_some_iff.1 hresolve
    cases hresolve
    obtain ⟨before, p, hlast, rfl⟩ := (h.provider c handle).1 hhandle
    obtain ⟨after, hsplit, -, -⟩ := id hlast
    obtain ⟨r', hr', hdescriptor⟩ := h.resource?_eq hsplit
    cases hr.symm.trans hr'
    exact ⟨before, p, hlast, by rw [hdescriptor]⟩
  · rintro ⟨before, p, hlast, rfl⟩
    obtain ⟨after, hsplit, -, -⟩ := id hlast
    obtain ⟨r, hr, hdescriptor⟩ := h.resource?_eq hsplit
    refine Option.bind_eq_some_iff.2 ⟨_, (h.provider c _).2 ⟨before, p, hlast, rfl⟩, ?_⟩
    exact Option.bind_eq_some_iff.2 ⟨r, hr, by rw [hdescriptor]; rfl⟩

/-- **A built description means what it lists.** Its resources stand in the order of the list, each
with the handle that counts those of its kind before it. A capability is resolved exactly if some
resource lists it, and then to the last one that does: its handle and its path, which is the name of
a binding and empty for an input block. So no link leads to a resource that is not there. A builtin
can be read exactly if a text is listed for it, and then by the last one. -/
theorem build_means_list (d : Description) :
    d.build.resources.map (fun r => (r.handle, r.descriptor)) = listed d.provisions ∧
    (∀ c, (∃ resolution, d.build.resolve c = .ok resolution) ↔
      ∃ p ∈ d.provisions, c ∈ p.capabilities) ∧
    (∀ c resolution, d.build.resolve c = .ok resolution ↔
      ∃ before p, LastWith (c ∈ ·.capabilities) d.provisions before p ∧
        resolution.handle = p.handleAfter before ∧
        resolution.path = match p.descriptor with
          | .binding b => b.name
          | .inputBlock .. => "") ∧
    (∀ c h, d.build.providers.lookup c = some h → ∃ r, d.build.resource? h = some r) ∧
    (∀ v, (∃ text, d.build.accessor v = .ok text) ↔ ∃ a ∈ d.accessors, a.1 = v) ∧
    ∀ v text, d.build.accessor v = .ok text ↔
      ∃ before, LastWith (·.1 = v) d.accessors before (v, text) := by
  obtain ⟨b, hb, hbuild⟩ := exists_describes d
  have hresolve : ∀ c, d.build.resolve c = b.resolve c := fun c => by rw [hbuild]; rfl
  have haccessor : ∀ v text, d.build.accessor v = .ok text ↔
      ∃ before, LastWith (·.1 = v) d.accessors before (v, text) := fun v text => by
    rw [Backend.accessor_eq_ok, hbuild, lookup_reverse_eq_some]
  refine ⟨?_, fun c => ?_, fun c resolution => ?_, fun c handle hhandle => ?_, fun v => ?_,
    haccessor⟩
  · rw [hbuild]
    exact hb.numbered.resources_eq
  · rw [hresolve, ← exists_lastWith_iff]
    constructor
    · rintro ⟨resolution, hok⟩
      obtain ⟨before, p, hlast, -⟩ := hb.resolve_eq_ok.1 hok
      exact ⟨before, p, hlast⟩
    · rintro ⟨before, p, hlast⟩
      exact ⟨_, hb.resolve_eq_ok.2 ⟨before, p, hlast, rfl⟩⟩
  · rw [hresolve, hb.resolve_eq_ok]
    obtain ⟨handle, path⟩ := resolution
    simp only [Resolution.mk.injEq]
    rfl
  · rw [hbuild] at hhandle ⊢
    obtain ⟨before, p, ⟨after, hsplit, -, -⟩, rfl⟩ := (hb.provider c handle).1 hhandle
    obtain ⟨r, hr, -⟩ := hb.resource?_eq hsplit
    exact ⟨r, hr⟩
  · simp only [haccessor]
    rw [← exists_lastWith_iff]
    constructor
    · rintro ⟨text, before, hlast⟩
      exact ⟨before, (v, text), hlast⟩
    · rintro ⟨before, ⟨v', text⟩, hlast⟩
      cases hlast.holds
      exact ⟨text, before, hlast⟩

/-! ### A sample -/

namespace Overlap

/-- The matrices of a camera. -/
def camera : Provision :=
  ⟨.binding ⟨0, "camera", .uniformBlock "Camera" [⟨"view", .mat4⟩]⟩, [.camera, .transform]⟩

/-- The attributes of vertices, of which one is listed twice. -/
def vertex : Provision :=
  ⟨.inputBlock "vertex" [⟨"inUv", .vec2⟩], [.vertexUv, .vertexColor, .vertexUv]⟩

/-- The matrices of an object. -/
def object : Provision :=
  ⟨.binding ⟨1, "object", .uniformBlock "Object" [⟨"model", .mat4⟩]⟩, [.transform]⟩

/-- Two blocks of uniforms that both list the transform, and two texts for the same builtin. -/
def description : Description :=
  ⟨[camera, vertex, object], [(.modelMatrix, ".old"), (.uv, "inUv"), (.modelMatrix, ".model")]⟩

end Overlap

/-- The second block of uniforms provides the transform, and the second text reads it. -/
theorem build_means_list_overlap :
    Overlap.description.build.resolve .transform = .ok ⟨⟨.uniformBlock, 1⟩, "object"⟩ ∧
      Overlap.description.build.resolve .vertexUv = .ok ⟨⟨.inputBlock, 0⟩, ""⟩ ∧
      Overlap.description.build.accessor .modelMatrix = .ok ".model" ∧
      (¬ ∃ resolution, Overlap.description.build.resolve .frameTime = .ok resolution) ∧
      ∃ r, Overlap.description.build.resource? ⟨.uniformBlock, 1⟩ = some r := by
  obtain ⟨-, hlists, hresolve, hlinks, -, haccessor⟩ := build_means_list Overlap.description
  refine ⟨?_, ?_, ?_, ?_, hlinks .transform _ (by decide)⟩
  · exact (hresolve _ _).2 ⟨[Overlap.camera, Overlap.vertex], Overlap.object,
      ⟨[], rfl, by decide, nofun⟩, by decide, rfl⟩
  · exact (hresolve _ _).2 ⟨[Overlap.camera], Overlap.vertex,
      ⟨[Overlap.object], rfl, by decide, by decide⟩, by decide, rfl⟩
  · exact (haccessor _ _).2 ⟨[(.modelMatrix, ".old"), (.uv, "inUv")], [], rfl, rfl, nofun⟩
  · rw [hlists]
    decide

end Description

end ShaderFlow
