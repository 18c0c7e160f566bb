import Mathlib.Data.Set.Defs
import ShaderFlow.Proofs.Stage.Step

/-!
# Backends that are added to

A backend changes by edits, and no edit takes a resource away or numbers it anew. What an edit can
change is which resource provides a capability and how a builtin is read. Edits that spare the
capabilities and builtins of some requirements (`Backend.Edit.Spares`) leave all that a backend
has for these as it is.

* `Backend.Extends` says that one backend has what another has for some requirements, and
  `Backend.extends_afterAll` that edits which spare them lead to such a backend;
* `Backend.Extends.access` says that what can be accessed through the first is accessed alike
  through the second.
-/

namespace ShaderFlow

namespace Backend

/-! ### Edits -/

/-- A change to a backend that a caller may ask for. -/
inductive Edit where
  /-- Registers a resource. -/
  | register (d : Descriptor)
  /-- Makes a resource, registered or not, the provider of a capability. -/
  | provide (c : Capability) (h : Handle)
  /-- Records how a builtin is read. -/
  | setAccessor (v : Builtin) (text : String)

/-- The backend after an edit. -/
def after (b : Backend) : Edit → Backend
  | .register d => (b.register d).1
  | .provide c h => b.provide c h
  | .setAccessor v text => b.setAccessor v text

/-- The backend after edits. -/
def afterAll (b : Backend) (edits : List Edit) : Backend := edits.foldl after b

/-- The edit concerns no capability and no builtin of the requirements. -/
def Edit.Spares (R : Set Requirement) : Edit → Prop
  | register _ => True
  | provide c _ => ∀ r ∈ R, r.needs ≠ c
  | setAccessor v _ => .builtin v ∉ R

/-- The second backend has all resources of the first, and the same providers and texts for the
requirements. -/
structure Extends (R : Set Requirement) (b b' : Backend) : Prop where
  /-- Resources stay under their handles. -/
  resource : ∀ h r, b.resource? h = some r → b'.resource? h = some r
  /-- The capabilities of the requirements have the same providers. -/
  provider : ∀ r ∈ R, b'.providers.lookup r.needs = b.providers.lookup r.needs
  /-- The builtins among the requirements are read alike. -/
  accessor : ∀ v, .builtin v ∈ R → b'.accessors.lookup v = b.accessors.lookup v

variable {R : Set Requirement} {b b' b'' : Backend}

/-- A resource that is registered later does not hide one with the same handle. -/
theorem resource?_register {h : Handle} {r : Resource} (hr : b.resource? h = some r)
    (d : Descriptor) : (b.register d).1.resource? h = some r := by
  rw [resource?] at hr
  rw [resource?, register, List.find?_append, hr, Option.some_or]

theorem extends_after {e : Edit} (he : e.Spares R) : b.Extends R (b.after e) := by
  cases e with
  | register d => exact ⟨fun h r hr => resource?_register hr d, fun _ _ => rfl, fun _ _ => rfl⟩
  | provide c h =>
    refine ⟨fun _ _ hr => hr, fun r hr => ?_, fun _ _ => rfl⟩
    rw [after, provide, lookup_cons_ite, if_neg (he r hr)]
  | setAccessor v text =>
    refine ⟨fun _ _ hr => hr, fun _ _ => rfl, fun v' hv' => ?_⟩
    have hne : v' ≠ v := by
      rintro rfl
      exact he hv'
    rw [after, setAccessor, lookup_cons_ite, if_neg hne]

theorem Extends.trans (h : b.Extends R b') (h' : b'.Extends R b'') : b.Extends R b'' where
  resource a r hr := h'.resource a r (h.resource a r hr)
  provider r hr := (h'.provider r hr).trans (h.provider r hr)
  accessor v hv := (h'.accessor v hv).trans (h.accessor v hv)

theorem extends_afterAll {edits : List Edit} (h : ∀ e ∈ edits, e.Spares R) :
    b.Extends R (b.afterAll edits) := by
  induction edits generalizing b with
  | nil => exact ⟨fun _ _ hr => hr, fun _ _ => rfl, fun _ _ => rfl⟩
  | cons e edits ih =>
    obtain ⟨he, hedits⟩ := List.forall_mem_cons.1 h
    exact (extends_after he).trans (ih hedits)

/-! ### What is found -/

namespace Extends

variable {r : Requirement}

theorem resolve (h : b.Extends R b') (hr : r ∈ R) {resolution : Resolution}
    (hres : b.resolve r.needs = .ok resolution) : b'.resolve r.needs = .ok resolution := by
  rw [resolve_eq_ok] at hres ⊢
  obtain ⟨handle, hhandle, hres⟩ := Option.bind_eq_some_iff.1 hres
  obtain ⟨resource, hresource, hres⟩ := Option.bind_eq_some_iff.1 hres
  rw [← h.provider r hr] at hhandle
  exact Option.bind_eq_some_iff.2 ⟨handle, hhandle,
    Option.bind_eq_some_iff.2 ⟨resource, h.resource handle resource hresource, hres⟩⟩

theorem accessor_eq (h : b.Extends R b') {v : Builtin} (hv : .builtin v ∈ R) :
    b'.accessor v = b.accessor v := by
  rw [Backend.accessor, Backend.accessor, h.accessor v hv]

theorem descriptor? (h : b.Extends R b') {handle : Handle} {d : Descriptor}
    (hd : b.descriptor? handle = some d) : b'.descriptor? handle = some d := by
  obtain ⟨resource, hresource, rfl⟩ := Option.map_eq_some_iff.1 hd
  exact Option.map_eq_some_iff.2 ⟨resource, h.resource handle resource hresource, rfl⟩

theorem declaration? (h : b.Extends R b') {handle : Handle} {text : String}
    (htext : b.declaration? handle = some text) : b'.declaration? handle = some text := by
  obtain ⟨resource, hresource, rfl⟩ := Option.map_eq_some_iff.1 htext
  exact Option.map_eq_some_iff.2 ⟨resource, h.resource handle resource hresource, rfl⟩

theorem capacity (h : b.Extends R b') {handle : Handle} {count : Nat}
    (hcount : b.capacity handle = .ok count) : b'.capacity handle = .ok count := by
  rw [capacity_eq_ok] at hcount ⊢
  obtain ⟨set, name, count, hcount, hd⟩ := hcount
  exact ⟨set, name, count, hcount, h.descriptor? hd⟩

theorem provides (h : b.Extends R b') (hr : r ∈ R) (hprovides : b.Provides r) :
    b'.Provides r := by
  cases r with
  | capability c =>
    obtain ⟨resolution, hres⟩ := hprovides
    exact ⟨resolution, h.resolve hr hres⟩
  | builtin v =>
    obtain ⟨⟨resolution, hres⟩, text, htext⟩ := hprovides
    exact ⟨⟨resolution, h.resolve hr hres⟩, text, by rwa [h.accessor_eq hr]⟩
  | texture t =>
    obtain ⟨count, resolution, set, name, hres, hd⟩ := hprovides
    exact ⟨count, resolution, set, name, h.resolve hr hres, h.descriptor? hd⟩

open Emission in
theorem accessThrough (h : b.Extends R b') (hr : r ∈ R) {s : Emission} {resolution : Resolution}
    {result : Emission × String} (hok : s.accessThrough b resolution r = .ok result) :
    s.accessThrough b' resolution r = .ok result := by
  cases r with
  | capability c => exact hok
  | builtin v =>
    rw [Emission.accessThrough, h.accessor_eq hr]
    exact hok
  | texture t =>
    obtain ⟨count, hcount, hok⟩ := Except.bind_eq_ok.1 hok
    exact Except.bind_eq_ok.2 ⟨count, orStop_eq_ok.2 (h.capacity (orStop_eq_ok.1 hcount)), hok⟩

open Emission in
theorem access (h : b.Extends R b') {s : Emission} {required : Option Requirement}
    (hr : ∀ r, required = some r → r ∈ R) {result : Emission × Option String}
    (hok : s.access b required = .ok result) : s.access b' required = .ok result := by
  cases required with
  | none => exact hok
  | some r =>
    obtain ⟨resolution, hres, hok⟩ := Except.bind_eq_ok.1 hok
    obtain ⟨found, hfound, hok⟩ := Except.bind_eq_ok.1 hok
    refine Except.bind_eq_ok.2 ⟨resolution, orStop_eq_ok.2 ?_, ?_⟩
    · exact h.resolve (hr r rfl) (orStop_eq_ok.1 hres)
    · exact Except.bind_eq_ok.2 ⟨found, h.accessThrough (hr r rfl) hfound, hok⟩

end Extends

end Backend

end ShaderFlow
