import Mathlib.Data.List.Forall2
import ShaderFlow.Proofs.Basic
import ShaderFlow.Proofs.Schedule.Walk
import ShaderFlow.Proofs.Stage.Textures
import ShaderFlow.Stage.Emission

/-!
# Writing one node

What it takes to write a node, and what is known when it is written.

* `Backend.Provides` says what a backend needs to have for a requirement, `Backend.handle?` which
  resource is used for it, and `Backend.access?` which expression stands for it when the textures
  have their places;
* `Emission.Writes` is the state before and after a node is written; `Emission.writes_of_node`
  finds it for every node that is written, and `Emission.exists_node` says when one can be.
-/

namespace ShaderFlow

/-! ### Requirements -/

namespace Backend

variable (b : Backend)

/-- The resource for textures is a sampler array with this many places. -/
def HasSamplers (count : UInt32) : Prop :=
  ∃ resolution set name, b.resolve .textureSample = .ok resolution ∧
    b.descriptor? resolution.handle = some (.binding ⟨set, name, .sampledTextures count⟩)

/-- The capability of the requirement resolves; a builtin can be read, and for a texture the
resource is a sampler array. -/
def Provides : Requirement → Prop
  | .capability c => ∃ resolution, b.resolve c = .ok resolution
  | .builtin v =>
    (∃ resolution, b.resolve v.capability = .ok resolution) ∧ ∃ text, b.accessor v = .ok text
  | .texture _ => ∃ count, b.HasSamplers count

/-- The resource that is used for a requirement. -/
def handle? (r : Requirement) : Option Handle := (b.resolve? r.needs).map (·.handle)

/-- The expression for what is required, when the textures have these places. -/
def access? (textures : List Texture) : Requirement → Option String
  | .capability c => (b.resolve? c).map (·.path)
  | .builtin v => do
    let resolution ← b.resolve? v.capability
    let accessor ← b.accessors.lookup v
    return resolution.path ++ accessor
  | .texture t => do
    let resolution ← b.resolve? .textureSample
    let slot ← textures.idxOf? t
    return resolution.path ++ "[" ++ Nat.repr slot ++ "]"

variable {b}

theorem resolve_eq_ok {c : Capability} {r : Resolution} :
    b.resolve c = .ok r ↔ b.resolve? c = some r := by
  unfold resolve
  cases b.resolve? c <;> simp

theorem accessor_eq_ok {v : Builtin} {text : String} :
    b.accessor v = .ok text ↔ b.accessors.lookup v = some text := by
  unfold accessor
  cases b.accessors.lookup v <;> simp

theorem capacity_eq_ok {h : Handle} {capacity : Nat} :
    b.capacity h = .ok capacity ↔ ∃ set name count, count.toNat = capacity ∧
      b.descriptor? h = some (.binding ⟨set, name, .sampledTextures count⟩) := by
  unfold Backend.capacity
  constructor
  · intro hcap
    split at hcap
    next count hcount =>
      cases hcap
      obtain ⟨d, hd, hc⟩ := Option.bind_eq_some_iff.1 hcount
      unfold Descriptor.capacity? at hc
      split at hc
      next set name count => exact ⟨set, name, count, Option.some.inj hc, hd⟩
      next => cases hc
    next => cases hcap
  · rintro ⟨set, name, count, rfl, hd⟩
    simp [hd, Descriptor.capacity?]

theorem HasSamplers.unique {m n : UInt32} (hm : b.HasSamplers m) (hn : b.HasSamplers n) :
    m = n := by
  obtain ⟨r, set, name, hr, hd⟩ := hm
  obtain ⟨r', set', name', hr', hd'⟩ := hn
  cases hr.symm.trans hr'
  cases hd.symm.trans hd'
  rfl

theorem access?_of_isPrefix {ts ts' : List Texture} (h : ts <+: ts') {r : Requirement}
    {path : String} (hpath : b.access? ts r = some path) : b.access? ts' r = some path := by
  cases r with
  | capability c => exact hpath
  | builtin v => exact hpath
  | texture t =>
    obtain ⟨resolution, hr, hpath⟩ := Option.bind_eq_some_iff.1 hpath
    obtain ⟨slot, hslot, hpath⟩ := Option.bind_eq_some_iff.1 hpath
    simpa [access?, hr, TextureArray.idxOf?_of_isPrefix h hslot] using hpath

end Backend

/-- The resources that are used after more of them are. -/
def Handle.insertAll (used more : List Handle) : List Handle :=
  more.foldl (fun used h => h.insert used) used

/-- The texture that is required. -/
def Requirement.texture? : Requirement → Option Texture
  | texture t => some t
  | _ => none

/-- The texture that a function depends on. -/
def Function.texture? (f : Function) : Option Texture := f.requirement.bind Requirement.texture?

/-- The texture that a node depends on. -/
def Graph.texture? (g : Graph) (id : NodeId) : Option Texture :=
  (g.node? id).bind (·.function.texture?)

namespace Emission

variable {o : Options} {g : Graph} {b : Backend} {s s' : Emission}

@[simp]
theorem orStop_eq_ok {α : Type} {r : Except Error α} {a : α} :
    s.orStop r = .ok a ↔ r = .ok a :=
  Except.mapError_eq_ok

theorem state_of_orStop {α : Type} {r : Except Error α} {stopped : Stopped}
    (h : s.orStop r = .error stopped) : stopped.state = s := by
  cases r with
  | error e =>
    cases h
    rfl
  | ok a => cases h

/-! ### The access expression -/

/-- The state before and after the access expression of a requirement is found. -/
structure Accesses (b : Backend) (s : Emission) (r : Option Requirement) (s' : Emission)
    (path : Option String) : Prop where
  /-- No code is written. -/
  block : s'.block = s.block
  /-- No value becomes known. -/
  values : s'.values = s.values
  /-- A texture gets a place if it has none. -/
  textures : s'.textures.textures =
    TextureArray.placeAll s.textures.textures (r.bind Requirement.texture?).toList
  /-- The resource of the requirement is used. -/
  used : s'.used = Handle.insertAll s.used (r.bind b.handle?).toList
  /-- There is an expression for a requirement. -/
  path_eq : path = r.bind (b.access? s'.textures.textures)
  /-- There is no expression without a requirement. -/
  isSome_path : path.isSome = r.isSome
  /-- The backend has what is required. -/
  provides : ∀ req, r = some req → b.Provides req
  /-- The textures stay within the sampler array. -/
  within : ∀ count, b.HasSamplers count → s.textures.textures.length ≤ count.toNat →
    s'.textures.textures.length ≤ count.toNat

theorem accesses_of_access {r : Option Requirement} {path : Option String}
    (h : s.access b r = .ok (s', path)) : Accesses b s r s' path := by
  cases r with
  | none =>
    cases h
    exact ⟨rfl, rfl, rfl, rfl, rfl, rfl, nofun, fun _ _ h => h⟩
  | some req =>
    obtain ⟨resolution, hres, h⟩ := Except.bind_eq_ok.1 h
    obtain ⟨⟨s₁, text⟩, hacc, h⟩ := Except.bind_eq_ok.1 h
    cases h
    rw [orStop_eq_ok] at hres
    have hres? := Backend.resolve_eq_ok.1 hres
    have hused : (s.use req.needs resolution).used =
        Handle.insertAll s.used ((some req).bind b.handle?).toList := by
      simp [use, report, Handle.insertAll, Backend.handle?, hres?]
    cases req with
    | capability c =>
      cases hacc
      refine ⟨rfl, rfl, rfl, hused, ?_, rfl, ?_, fun _ _ h => h⟩
      · simp only [Requirement.needs] at hres?
        simp [Backend.access?, hres?]
      · rintro _ ⟨⟩
        exact ⟨resolution, hres⟩
    | builtin v =>
      obtain ⟨accessor, ha, hacc⟩ := Except.bind_eq_ok.1 hacc
      cases hacc
      rw [orStop_eq_ok] at ha
      refine ⟨rfl, rfl, rfl, hused, ?_, rfl, ?_, fun _ _ h => h⟩
      · simp only [Requirement.needs] at hres?
        simp [Backend.access?, hres?, Backend.accessor_eq_ok.1 ha]
      · rintro _ ⟨⟩
        exact ⟨⟨resolution, hres⟩, accessor, ha⟩
    | texture t =>
      obtain ⟨capacity, hcap, hacc⟩ := Except.bind_eq_ok.1 hacc
      obtain ⟨⟨textures, slot⟩, hassign, hacc⟩ := Except.bind_eq_ok.1 hacc
      cases hacc
      rw [orStop_eq_ok] at hcap hassign
      obtain ⟨set, name, count, rfl, hd⟩ := Backend.capacity_eq_ok.1 hcap
      obtain ⟨hplace, hslot, hwithin⟩ := TextureArray.assign_eq_ok hassign
      -- the capacity that was checked is that of the one sampler array there is
      have hsamplers : b.HasSamplers count := ⟨resolution, set, name, hres, hd⟩
      refine ⟨rfl, rfl, hplace, hused, ?_, rfl, ?_, ?_⟩
      · simp only [Requirement.needs] at hres?
        simp [Backend.access?, hres?, place, report, hslot]
      · rintro _ ⟨⟩
        exact ⟨count, hsamplers⟩
      · intro count' hcount'
        rw [hcount'.unique hsamplers]
        exact hwithin

/-- What is provided can be accessed, if there is room for a texture. -/
theorem exists_access {r : Option Requirement} (hprovides : ∀ req, r = some req → b.Provides req)
    (hroom : ∀ count, b.HasSamplers count →
      (TextureArray.placeAll s.textures.textures (r.bind Requirement.texture?).toList).length ≤
        count.toNat) :
    ∃ r', s.access b r = .ok r' := by
  cases r with
  | none => exact ⟨_, rfl⟩
  | some req =>
    obtain ⟨resolution, hres, result, hresult⟩ : ∃ resolution,
        b.resolve req.needs = .ok resolution ∧
          ∃ result, (s.use req.needs resolution).accessThrough b resolution req = .ok result := by
      have hreq := hprovides req rfl
      cases req with
      | capability c =>
        obtain ⟨resolution, hres⟩ := hreq
        exact ⟨resolution, hres, _, rfl⟩
      | builtin v =>
        obtain ⟨⟨resolution, hres⟩, text, htext⟩ := hreq
        exact ⟨resolution, hres, Except.exists_bind_eq_ok.2 ⟨text, orStop_eq_ok.2 htext, _, rfl⟩⟩
      | texture t =>
        obtain ⟨count, resolution, set, name, hres, hd⟩ := hreq
        have hcap : b.capacity resolution.handle = .ok count.toNat :=
          Backend.capacity_eq_ok.2 ⟨set, name, count, rfl, hd⟩
        obtain ⟨⟨textures, slot⟩, hassign⟩ :=
          TextureArray.exists_assign (s := s.textures) resolution.path
            (hroom count ⟨resolution, set, name, hres, hd⟩)
        refine ⟨resolution, hres, Except.exists_bind_eq_ok.2 ⟨_, orStop_eq_ok.2 hcap, ?_⟩⟩
        exact Except.exists_bind_eq_ok.2 ⟨_, orStop_eq_ok.2 hassign, _, rfl⟩
    exact Except.exists_bind_eq_ok.2 ⟨resolution, orStop_eq_ok.2 hres,
      Except.exists_bind_eq_ok.2 ⟨result, hresult, _, rfl⟩⟩

/-! ### The arguments -/

theorem arguments_eq_ok {label : Label} {slot : Nat} {inputs : List (Option NodeId)}
    {args : List Operand} : s.arguments label slot inputs = .ok args ↔
      List.Forall₂ (fun input value => input.bind s.value? = some value) inputs args := by
  induction inputs generalizing slot args with
  | nil =>
    rw [arguments, List.forall₂_nil_left_iff, Except.ok.injEq, eq_comm]
  | cons input inputs ih =>
    rw [arguments]
    cases hv : input.bind s.value? with
    | none =>
      simp only [reduceCtorEq, false_iff]
      intro h
      obtain ⟨value, args, hvalue, -, -⟩ := List.forall₂_cons_left_iff.1 h
      simp [hv] at hvalue
    | some value =>
      simp only [Except.map_eq_ok, ih, List.forall₂_cons_left_iff, hv, Option.some.injEq]
      constructor
      · rintro ⟨args, hargs, rfl⟩
        exact ⟨value, args, rfl, hargs, rfl⟩
      · rintro ⟨_, args, rfl, hargs, rfl⟩
        exact ⟨args, hargs, rfl⟩

theorem arguments_eq_ok_of_wired {label : Label} {slot : Nat} {n : Node} (h : n.Wired)
    {args : List Operand} : s.arguments label slot n.inputs = .ok args ↔
      List.Forall₂ (fun source value => s.value? source = some value) n.sources args := by
  rw [arguments_eq_ok, h.inputs_eq, List.forall₂_map_left_iff]
  rfl

theorem exists_values {sources : List NodeId}
    (h : ∀ source ∈ sources, (s.value? source).isSome = true) :
    ∃ args, List.Forall₂ (fun source value => s.value? source = some value) sources args := by
  induction sources with
  | nil => exact ⟨[], .nil⟩
  | cons source sources ih =>
    obtain ⟨value, hvalue⟩ := Option.isSome_iff_exists.1 (h source List.mem_cons_self)
    obtain ⟨args, hargs⟩ := ih fun a ha => h a (List.mem_cons_of_mem _ ha)
    exact ⟨value :: args, .cons hvalue hargs⟩

/-! ### The node -/

/-- The block and the value of a node after its code is written. -/
def code (o : Options) (shared : Bool) (n : Node) (args : List Operand) (path : Option String)
    (block : Block) : Block × Operand :=
  settle shared n.function.isTrivial ((n.function.script path args).run o.stem block)

/-- The state before and after a node is written, with the node, its arguments and its access
expression. -/
structure Writes (o : Options) (g : Graph) (b : Backend) (s : Emission) (shared : Bool)
    (id : NodeId) (n : Node) (args : List Operand) (path : Option String) (s' : Emission) :
    Prop where
  /-- The node is there. -/
  node : g.node? id = some n
  /-- The arguments are the values of its inputs. -/
  arguments : List.Forall₂ (fun input value => input.bind s.value? = some value) n.inputs args
  /-- The texture of the node gets a place if it has none. -/
  textures : s'.textures.textures =
    TextureArray.placeAll s.textures.textures n.function.texture?.toList
  /-- The resource of what the node requires is used. -/
  used : s'.used = Handle.insertAll s.used (n.function.requirement.bind b.handle?).toList
  /-- There is an access expression for what the node requires. -/
  path_eq : path = n.function.requirement.bind (b.access? s'.textures.textures)
  /-- There is no access expression without a requirement. -/
  isSome_path : path.isSome = n.function.requirement.isSome
  /-- The backend has what the node requires. -/
  provides : ∀ r, n.function.requirement = some r → b.Provides r
  /-- The textures stay within the sampler array. -/
  within : ∀ count, b.HasSamplers count → s.textures.textures.length ≤ count.toNat →
    s'.textures.textures.length ≤ count.toNat
  /-- The node's code is written after what was there. -/
  block : s'.block = (code o shared n args path s.block).1
  /-- The node's value becomes known. -/
  values : s'.values = (id, (code o shared n args path s.block).2) :: s.values

theorem writes_of_node {shared : Bool} {id : NodeId} (h : s.node o g b shared id = .ok s') :
    ∃ n args path, Writes o g b s shared id n args path s' := by
  unfold Emission.node at h
  split at h
  · cases h
  next n hn =>
    obtain ⟨args, hargs, h⟩ := Except.bind_eq_ok.1 h
    obtain ⟨⟨s₁, path⟩, haccess, h⟩ := Except.bind_eq_ok.1 h
    cases h
    have ha := accesses_of_access haccess
    refine ⟨n, args, path, hn, arguments_eq_ok.1 (orStop_eq_ok.1 hargs), ha.textures, ha.used,
      ha.path_eq, ha.isSome_path, ha.provides, ha.within, ?_, ?_⟩
    · rw [← ha.block]
      rfl
    · rw [← ha.block, ← ha.values]
      rfl

/-- A node can be written if its inputs have values, the backend has what it requires, and there
is room for its texture. -/
theorem exists_node {shared : Bool} {id : NodeId} {n : Node} (hn : g.node? id = some n)
    (hwired : n.Wired) (hvalues : ∀ source ∈ n.sources, (s.value? source).isSome = true)
    (hprovides : ∀ r, n.function.requirement = some r → b.Provides r)
    (hroom : ∀ count, b.HasSamplers count →
      (TextureArray.placeAll s.textures.textures n.function.texture?.toList).length ≤
        count.toNat) :
    ∃ s', s.node o g b shared id = .ok s' := by
  obtain ⟨args, hvalue⟩ := exists_values hvalues
  have hargs : s.arguments (g.label id) 0 n.inputs = .ok args :=
    (arguments_eq_ok_of_wired hwired).2 hvalue
  obtain ⟨result, hresult⟩ := exists_access hprovides hroom
  unfold Emission.node
  rw [hn]
  exact Except.exists_bind_eq_ok.2 ⟨args, orStop_eq_ok.2 hargs,
    Except.exists_bind_eq_ok.2 ⟨result, hresult, _, rfl⟩⟩

namespace Writes

variable {shared : Bool} {id : NodeId} {n : Node} {args : List Operand} {path : Option String}

theorem arguments_of_wired (h : Writes o g b s shared id n args path s') (hwired : n.Wired) :
    List.Forall₂ (fun source value => s.value? source = some value) n.sources args := by
  have hargs := h.arguments
  rw [hwired.inputs_eq, List.forall₂_map_left_iff] at hargs
  exact hargs

theorem length_arguments (h : Writes o g b s shared id n args path s')
    (hslots : n.inputs.length = n.signature.arity) :
    args.length = n.function.signature.arity :=
  h.arguments.length_eq ▸ hslots

theorem path_eq_of_isPrefix (h : Writes o g b s shared id n args path s') {final : List Texture}
    (hfinal : s'.textures.textures <+: final) :
    path = n.function.requirement.bind (b.access? final) := by
  have hsome := h.isSome_path
  rw [h.path_eq] at hsome ⊢
  cases hr : n.function.requirement with
  | none => rfl
  | some r =>
    rw [hr] at hsome
    obtain ⟨text, htext⟩ := Option.isSome_iff_exists.1 hsome
    simp only [Option.bind_some] at htext ⊢
    rw [htext, Backend.access?_of_isPrefix hfinal htext]

theorem value? (h : Writes o g b s shared id n args path s') (x : NodeId) :
    s'.value? x = if x = id then some (code o shared n args path s.block).2 else s.value? x := by
  rw [Emission.value?, h.values, lookup_cons_ite, Emission.value?]

end Writes

end Emission

end ShaderFlow
