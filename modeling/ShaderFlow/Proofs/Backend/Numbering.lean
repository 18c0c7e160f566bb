import Mathlib.Data.List.Nodup
import ShaderFlow.Proofs.Backend.Edits

/-!
# Numbers of resources

A backend counts its resources in two ways: by kind for their handles, and by descriptor set, across
kinds, for binding numbers. Both numbers of a new resource are the count of the resources before it
that are of its class, so in each class the numbers go up from zero (`CountedBy`), and a class with
a number names one resource only (`CountedBy.nodup`). Lookup takes the first resource with a handle,
so it finds the one that the handle was issued for (`Backend.Numbered.resource?_of_mem`), and later
edits leave that as it is.

* `Backend.issued` lists the handles that edits are answered with;
* `Backend.Numbered` is what each edit keeps, and `Backend.numbered_afterAll` what all of them keep;
* `Backend.numbers_unique_and_stable` is the summary.
-/

namespace ShaderFlow

/-! ### Numbers that count up in each class -/

section CountedBy

variable {α κ : Type} [DecidableEq κ] {kind : α → κ} {number : α → Nat} {l : List α} {a : α}

/-- The elements of each class are numbered from zero on, in order. -/
def CountedBy (kind : α → κ) (number : α → Nat) (l : List α) : Prop :=
  ∀ k, (l.filter (kind · == k)).map number = List.range (l.countP (kind · == k))

theorem countedBy_nil : CountedBy kind number [] := fun _ => rfl

theorem CountedBy.concat (h : CountedBy kind number l)
    (ha : number a = l.countP (kind · == kind a)) : CountedBy kind number (l ++ [a]) := by
  intro k
  by_cases hk : kind a = k
  · subst hk
    simp [List.filter_append, List.countP_append, h (kind a), ha, List.range_succ]
  · simp [List.filter_append, List.countP_append, h k, hk]

/-- No two elements of a class have the same number. -/
theorem CountedBy.nodup (h : CountedBy kind number l) :
    (l.map fun a => (kind a, number a)).Nodup := by
  have hclass : ∀ k, ((l.filter (kind · == k)).map number).Nodup := fun k => by
    rw [h k]
    exact List.nodup_range
  clear h
  induction l with
  | nil => exact .nil
  | cons a l ih =>
    rw [List.map_cons, List.nodup_cons]
    constructor
    · intro hmem
      obtain ⟨b, hb, hab⟩ := List.mem_map.1 hmem
      obtain ⟨hkind, hnumber⟩ := Prod.mk.inj hab
      -- the other element is of the class of the first, so its number stands in the list of it
      have hnd := hclass (kind a)
      rw [List.filter_cons_of_pos (by simp), List.map_cons, List.nodup_cons] at hnd
      exact hnd.1 (List.mem_map.2 ⟨b, List.mem_filter.2 ⟨hb, by simp [hkind]⟩, hnumber⟩)
    · refine ih fun k => (hclass k).sublist ?_
      exact ((List.sublist_cons_self a l).filter _).map _

end CountedBy

/-- The descriptor set and the binding number of a resource that is a binding. -/
def Resource.binding? (r : Resource) : Option (UInt32 × Nat) :=
  r.descriptor.set?.map fun set => (set, r.slot)

theorem Resource.declaration_of_binding {r : Resource} {set : UInt32} {number : Nat}
    (h : r.binding? = some (set, number)) :
    ∃ rest, r.declaration = "layout(set = " ++ Nat.repr set.toNat ++ ", binding = " ++
      Nat.repr number ++ ") uniform " ++ rest := by
  obtain ⟨handle, descriptor, slot⟩ := r
  change ∃ rest, _ = declareBinding set number ++ rest
  cases descriptor with
  | inputBlock name fields => cases h
  | binding b =>
    cases h
    obtain ⟨set, name, content⟩ := b
    cases content with
    | uniformBlock block fields =>
      rw [declaration]
      simp only [String.append_assoc]
      exact ⟨_, rfl⟩
    | sampledTextures count =>
      rw [declaration]
      simp only [String.append_assoc]
      exact ⟨_, rfl⟩

namespace Backend

variable {b : Backend} {entries : List (Handle × Descriptor)}

/-! ### Edits and their answers -/

/-- The handle that an edit is answered with, and what it is the handle of. -/
def answer (b : Backend) : Edit → List (Handle × Descriptor)
  | .register d => [((b.register d).2, d)]
  | .provide .. | .setAccessor .. => []

/-- The handles that edits are answered with, in order, and what they are the handles of. -/
def issued (b : Backend) : List Edit → List (Handle × Descriptor)
  | [] => []
  | e :: edits => b.answer e ++ (b.after e).issued edits

/-- The handles that were issued for resources and the numbers of these. -/
structure Numbered (b : Backend) (entries : List (Handle × Descriptor)) : Prop where
  /-- The resources are those that handles were issued for, in the same order. -/
  resources_eq : b.resources.map (fun r => (r.handle, r.descriptor)) = entries
  /-- A handle has the kind of its resource. -/
  kind_eq : ∀ e ∈ entries, e.1.kind = e.2.kind
  /-- The handles of each kind are numbered from zero on, in the order of registration. -/
  handles : CountedBy Handle.kind Handle.index (entries.map Prod.fst)
  /-- The bindings of each set are numbered from zero on, in the order of registration. -/
  bindings : CountedBy Prod.fst Prod.snd (b.resources.filterMap Resource.binding?)

theorem numbered_empty : Numbered {} [] := ⟨rfl, nofun, countedBy_nil, countedBy_nil⟩

theorem countP_binding (b : Backend) (set : UInt32) :
    (b.resources.filterMap Resource.binding?).countP (·.1 == set) =
      b.resources.countP (·.descriptor.set? == some set) := by
  rw [List.countP_filterMap]
  refine List.countP_congr fun r _ => ?_
  cases hset : r.descriptor.set? <;> simp [Resource.binding?, hset]

theorem Numbered.register (h : b.Numbered entries) (d : Descriptor) :
    (b.register d).1.Numbered (entries ++ [((b.register d).2, d)]) where
  resources_eq := by simp [Backend.register, h.resources_eq]
  kind_eq e he := by
    rcases List.mem_append.1 he with he | he
    · exact h.kind_eq e he
    · cases List.mem_singleton.1 he
      rfl
  handles := by
    rw [List.map_append]
    refine h.handles.concat ?_
    simp [← h.resources_eq, Backend.register, nextHandle, List.countP_map, Function.comp_def]
  bindings := by
    rw [Backend.register, List.filterMap_append]
    cases hset : d.set? with
    | none => simpa [Resource.binding?, hset] using h.bindings
    | some set =>
      have hnew : [(⟨b.nextHandle d.kind, d, b.nextSlot d⟩ : Resource)].filterMap
          Resource.binding? = [(set, b.nextSlot d)] := by simp [Resource.binding?, hset]
      rw [hnew]
      refine h.bindings.concat ?_
      simp [countP_binding, nextSlot, hset]

/-- Each edit keeps the numbers right. -/
theorem Numbered.after (h : b.Numbered entries) (e : Edit) :
    (b.after e).Numbered (entries ++ b.answer e) := by
  cases e with
  | register d => exact h.register d
  | provide c handle =>
    rw [answer, List.append_nil]
    exact ⟨h.resources_eq, h.kind_eq, h.handles, h.bindings⟩
  | setAccessor v text =>
    rw [answer, List.append_nil]
    exact ⟨h.resources_eq, h.kind_eq, h.handles, h.bindings⟩

theorem numbered_afterAll (h : b.Numbered entries) (edits : List Edit) :
    (b.afterAll edits).Numbered (entries ++ b.issued edits) := by
  induction edits generalizing b entries with
  | nil => simpa [issued, afterAll] using h
  | cons e edits ih =>
    rw [issued, ← List.append_assoc]
    exact ih (h.after e)

/-! ### What a handle stands for -/

theorem Numbered.nodup (h : b.Numbered entries) : (entries.map Prod.fst).Nodup := by
  have hnd := h.handles.nodup
  have hpair : (fun a : Handle => (a.kind, a.index)).Injective := fun a a' haa' =>
    Handle.ext (Prod.mk.inj haa').1 (Prod.mk.inj haa').2
  exact (List.nodup_map_iff hpair).1 hnd

/-- A resource is found under its handle, since no other resource has it. -/
theorem Numbered.resource?_of_mem (h : b.Numbered entries) {r : Resource}
    (hr : r ∈ b.resources) : b.resource? r.handle = some r := by
  have hnd : (b.resources.map Resource.handle).Nodup := by
    simpa [← h.resources_eq, Function.comp_def] using h.nodup
  obtain ⟨found, hfound⟩ : ∃ found, b.resource? r.handle = some found := by
    refine Option.isSome_iff_exists.1 (List.find?_isSome.2 ⟨r, hr, ?_⟩)
    simp
  have hhandle : found.handle = r.handle := by simpa using List.find?_some hfound
  rw [hfound, List.inj_on_of_nodup_map hnd (List.mem_of_find?_eq_some hfound) hr hhandle]

/-- **Numbers are unique and stable.** Whatever the edits of a backend, they are answered with
different handles, which count from zero for each kind, and the bindings of each set count from
zero, too, in the order of registration. No two bindings have the same set and number, and these
are what their declarations begin with. A handle stands for what it was issued for, with the same
declaration, whatever edits come later. -/
theorem numbers_unique_and_stable (edits : List Edit) :
    (((empty.issued edits).map Prod.fst).Nodup ∧
      (empty.afterAll edits).Numbered (empty.issued edits)) ∧
    (((empty.afterAll edits).resources.filterMap Resource.binding?).Nodup ∧
      ∀ r ∈ (empty.afterAll edits).resources, ∀ set number, r.binding? = some (set, number) →
        ∃ rest, (empty.afterAll edits).declaration? r.handle =
          some ("layout(set = " ++ Nat.repr set.toNat ++ ", binding = " ++ Nat.repr number ++
            ") uniform " ++ rest)) ∧
    ∀ h d, (h, d) ∈ empty.issued edits → ∃ text, ∀ later,
      (empty.afterAll (edits ++ later)).descriptor? h = some d ∧
        (empty.afterAll (edits ++ later)).declaration? h = some text := by
  have hnumbered : (empty.afterAll edits).Numbered (empty.issued edits) :=
    numbered_afterAll numbered_empty edits
  refine ⟨⟨hnumbered.nodup, hnumbered⟩, ⟨?_, ?_⟩, ?_⟩
  · simpa using hnumbered.bindings.nodup
  · intro r hr set number hbinding
    obtain ⟨rest, hrest⟩ := Resource.declaration_of_binding hbinding
    exact ⟨rest, by rw [declaration?, hnumbered.resource?_of_mem hr, Option.map_some, hrest]⟩
  · intro h d hissued
    rw [← hnumbered.resources_eq] at hissued
    obtain ⟨r, hr, heq⟩ := List.mem_map.1 hissued
    cases heq
    refine ⟨r.declaration, fun later => ?_⟩
    have hextends : (empty.afterAll edits).Extends ∅ (empty.afterAll (edits ++ later)) := by
      rw [afterAll, afterAll, List.foldl_append]
      refine extends_afterAll fun e _ => ?_
      cases e <;> simp [Edit.Spares]
    have hfound := hextends.resource _ _ (hnumbered.resource?_of_mem hr)
    exact ⟨by rw [descriptor?, hfound, Option.map_some],
      by rw [declaration?, hfound, Option.map_some]⟩

/-! ### A sample -/

namespace Mixed

/-- Lights, in the first set. -/
def lights : Descriptor := .binding ⟨0, "lights", .uniformBlock "Lights" [⟨"sun", .vec3⟩]⟩

/-- Two sets and all kinds in turns, with other edits between them. -/
def edits : List Edit :=
  [.register (.binding ⟨0, "camera", .uniformBlock "Camera" [⟨"view", .mat4⟩]⟩),
    .provide .camera ⟨.uniformBlock, 0⟩, .register (.inputBlock "vertex" [⟨"inUv", .vec2⟩]),
    .register (.binding ⟨0, "textures", .sampledTextures 4⟩), .setAccessor .uv "inUv",
    .register (.binding ⟨1, "object", .uniformBlock "Object" []⟩), .register lights]

end Mixed

/-- The lights are the third block of uniforms and the third binding of their set. -/
theorem numbers_unique_and_stable_mixed :
    (empty.issued Mixed.edits).map Prod.fst =
        [⟨.uniformBlock, 0⟩, ⟨.inputBlock, 0⟩, ⟨.sampledTextures, 0⟩, ⟨.uniformBlock, 1⟩,
          ⟨.uniformBlock, 2⟩] ∧
      ∃ rest, ∀ later,
        (empty.afterAll (Mixed.edits ++ later)).descriptor? ⟨.uniformBlock, 2⟩ =
            some Mixed.lights ∧
          (empty.afterAll (Mixed.edits ++ later)).declaration? ⟨.uniformBlock, 2⟩ =
            some ("layout(set = 0, binding = 2) uniform " ++ rest) := by
  obtain ⟨-, ⟨-, htexts⟩, hstable⟩ := numbers_unique_and_stable Mixed.edits
  obtain ⟨text, htext⟩ := hstable ⟨.uniformBlock, 2⟩ Mixed.lights (by decide)
  obtain ⟨rest, hrest⟩ := htexts ⟨⟨.uniformBlock, 2⟩, Mixed.lights, 2⟩ (by decide) 0 2 rfl
  obtain ⟨-, hnow⟩ := htext []
  rw [List.append_nil] at hnow
  cases hrest.symm.trans hnow
  exact ⟨by decide, rest, htext⟩

end Backend

end ShaderFlow
