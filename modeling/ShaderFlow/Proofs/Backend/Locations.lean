import Mathlib.Algebra.GroupWithZero.Nat
import ShaderFlow.Proofs.Backend.Numbering

/-!
# Locations of input fields

Every field of an input block takes one location or several. An input block begins where the blocks
before it end, and its fields follow each other, so over all blocks of a backend, in the order of
registration, a field begins at the sum of what the fields before it take (`Field.start`). Such
stretches lie side by side from zero to the total (`Field.tile`).

Whoever reads a declaration takes a location for a word of 32 bits. `wordLines?` computes the
declarations of a block in such words: the first location as a sum over the earlier blocks of sums
over their fields, then on from field to field, and it stops at a sum that is no word. None of them
is as long as the total is a word, since each counts the fields before some place.

* `Backend.Placed` is what each edit keeps of the numbers of resources;
* `Backend.input_locations_tile` is the summary.
-/

namespace ShaderFlow

/-! ### Stretches of locations -/

namespace Field

variable {fields : List Field} {f : Field} {i j n : Nat}

/-- Where the field with an index begins: at what the fields before it take. -/
def start (fields : List Field) (i : Nat) : Nat := locations (fields.take i)

/-- A location is one of those that the field with an index takes. -/
def Takes (fields : List Field) (i n : Nat) : Prop :=
  ∃ f, fields[i]? = some f ∧ start fields i ≤ n ∧ n < start fields i + f.ty.locations

/-- The stretches of the fields lie side by side from zero to the total. -/
structure Tile (fields : List Field) : Prop where
  /-- No location belongs to two fields. -/
  disjoint : ∀ i j n, Takes fields i n → Takes fields j n → i = j
  /-- The locations of the fields are those below the total. -/
  cover : ∀ n, n < locations fields ↔ ∃ i, Takes fields i n

@[simp]
theorem locations_append (a b : List Field) : locations (a ++ b) = locations a + locations b := by
  induction a with
  | nil => simp [locations]
  | cons f a ih => simp [locations, ih, Nat.add_assoc]

theorem locations_flatten (blocks : List (List Field)) :
    locations blocks.flatten = (blocks.map locations).sum := by
  induction blocks with
  | nil => rfl
  | cons block blocks ih => simp [ih]

theorem start_succ (h : fields[i]? = some f) :
    start fields (i + 1) = start fields i + f.ty.locations := by
  simp [start, List.take_add_one, h, locations]

theorem start_le_start (h : i ≤ j) : start fields i ≤ start fields j := by
  obtain ⟨k, rfl⟩ := Nat.exists_eq_add_of_le h
  rw [start, start, List.take_add, locations_append]
  exact Nat.le_add_right _ _

theorem start_le (fields : List Field) (i : Nat) : start fields i ≤ locations fields := by
  conv_rhs => rw [← List.take_append_drop i fields, locations_append]
  exact Nat.le_add_right _ _

/-- Where a field of a block begins, among the fields of all blocks. -/
theorem start_within (before after : List Field) (h : i ≤ fields.length) :
    start (before ++ fields ++ after) (before.length + i) = locations before + start fields i := by
  rw [start, List.append_assoc, List.take_length_add_append, List.take_append_of_le_length h,
    locations_append, start]

/-- The end of a stretch is not beyond the beginning of a later one. -/
theorem Takes.lt_start (h : Takes fields i n) (hij : i < j) : n < start fields j := by
  obtain ⟨f, hf, -, hn⟩ := h
  rw [← start_succ hf] at hn
  exact Nat.lt_of_lt_of_le hn (start_le_start hij)

theorem Takes.start_le (h : Takes fields i n) : start fields i ≤ n := by
  obtain ⟨f, -, hn, -⟩ := h
  exact hn

/-- Every location below the beginning of a field belongs to a field before it. -/
theorem exists_takes_of_lt_start (h : n < start fields i) : ∃ j, Takes fields j n := by
  induction i with
  | zero => simp [start, locations] at h
  | succ i ih =>
    by_cases hn : n < start fields i
    · exact ih hn
    · cases hf : fields[i]? with
      | none =>
        have hsame : start fields (i + 1) = start fields i := by
          simp [start, List.take_add_one, hf]
        omega
      | some f =>
        rw [start_succ hf] at h
        exact ⟨i, f, hf, by omega, h⟩

theorem tile (fields : List Field) : Tile fields where
  disjoint i j n hi hj := by
    rcases Nat.lt_trichotomy i j with hij | hij | hij
    · exact absurd (hi.lt_start hij) (Nat.not_lt.2 hj.start_le)
    · exact hij
    · exact absurd (hj.lt_start hij) (Nat.not_lt.2 hi.start_le)
  cover n := by
    constructor
    · intro hn
      exact exists_takes_of_lt_start (i := fields.length) (by simpa [start] using hn)
    · rintro ⟨i, hi⟩
      exact Nat.lt_of_lt_of_le (hi.lt_start (Nat.lt_succ_self i)) (Field.start_le fields _)

end Field

/-! ### Sums of words -/

/-- The sum of two words, if it is a word. -/
def addWord? (a b : UInt32) : Option UInt32 :=
  if a.toNat + b.toNat < UInt32.size then some (a + b) else none

theorem addWord?_ofNat {m n : Nat} (h : m + n < UInt32.size) :
    addWord? (.ofNat m) (.ofNat n) = some (.ofNat (m + n)) := by
  have hm : (UInt32.ofNat m).toNat = m := UInt32.toNat_ofNat_of_lt' (by omega)
  have hn : (UInt32.ofNat n).toNat = n := UInt32.toNat_ofNat_of_lt' (by omega)
  rw [addWord?, hm, hn, if_pos h, UInt32.ofNat_add]

/-- A sum of words, none of whose steps may go beyond a word. -/
def sumWords? (words : List UInt32) : Option UInt32 := words.foldlM addWord? 0

theorem sumWords?_ofNat {numbers : List Nat} (h : numbers.sum < UInt32.size) :
    sumWords? (numbers.map .ofNat) = some (.ofNat numbers.sum) := by
  have key : ∀ (numbers : List Nat) (m : Nat), m + numbers.sum < UInt32.size →
      (numbers.map UInt32.ofNat).foldlM addWord? (.ofNat m) =
        some (.ofNat (m + numbers.sum)) := by
    intro numbers
    induction numbers with
    | nil => intro m _; simp
    | cons n numbers ih =>
      intro m hm
      rw [List.sum_cons] at hm
      rw [List.map_cons, List.foldlM_cons, addWord?_ofNat (by omega), Option.bind_eq_bind,
        Option.bind_some, ih (m + n) (by omega), List.sum_cons, Nat.add_assoc]
  simpa [sumWords?] using key numbers 0 (by simpa using h)

theorem Field.locations_eq_sum (fields : List Field) :
    locations fields = (fields.map (·.ty.locations)).sum := by
  induction fields with
  | nil => rfl
  | cons f fields ih => simp [locations, ih]

/-- The sum of what fields take. -/
def Field.sumWords? (fields : List Field) : Option UInt32 :=
  ShaderFlow.sumWords? (fields.map fun f => .ofNat f.ty.locations)

theorem Field.sumWords?_eq {fields : List Field} (h : locations fields < UInt32.size) :
    sumWords? fields = some (.ofNat (locations fields)) := by
  rw [locations_eq_sum] at h ⊢
  rw [sumWords?, ← sumWords?_ofNat h, List.map_map]
  rfl

/-- The fields of an input block. -/
def Descriptor.block? : Descriptor → Option (List Field)
  | inputBlock _ fields => some fields
  | binding _ => none

theorem Descriptor.inputs_of_block {d : Descriptor} {fields : List Field}
    (h : d.block? = some fields) : d.inputs = fields := by
  cases d with
  | inputBlock name fields' => exact Option.some.inj h
  | binding => cases h

/-- The fields of all input blocks among resources. -/
def inputFields (resources : List Resource) : List Field :=
  resources.flatMap (·.descriptor.inputs)

/-- The first location of an input block that is registered after resources: the sum of what each
block among them takes. -/
def firstWord? (before : List Resource) : Option UInt32 := do
  let sums ← (before.filterMap (·.descriptor.block?)).mapM Field.sumWords?
  sumWords? sums

theorem flatten_blocks (resources : List Resource) :
    (resources.filterMap (·.descriptor.block?)).flatten = inputFields resources := by
  induction resources with
  | nil => rfl
  | cons r resources ih =>
    rw [inputFields, List.flatMap_cons, ← inputFields, ← ih]
    obtain ⟨handle, descriptor, slot⟩ := r
    cases descriptor <;> rfl

theorem firstWord?_eq {before : List Resource}
    (h : Field.locations (inputFields before) < UInt32.size) :
    firstWord? before = some (.ofNat (Field.locations (inputFields before))) := by
  rw [← flatten_blocks, Field.locations_flatten] at h ⊢
  have hsums : ∀ {blocks : List (List Field)}, (blocks.map Field.locations).sum < UInt32.size →
      blocks.mapM Field.sumWords? = some ((blocks.map Field.locations).map .ofNat) := by
    intro blocks
    induction blocks with
    | nil => intro _; rfl
    | cons block blocks ih =>
      intro hsum
      rw [List.map_cons, List.sum_cons] at hsum
      rw [List.mapM_cons, Field.sumWords?_eq (by omega), ih (by omega)]
      rfl
  rw [firstWord?, hsums h, Option.bind_eq_bind, Option.bind_some, sumWords?_ofNat h]

/-! ### Declarations -/

/-- The declaration of an input variable at a location. -/
def inputLine (location : Nat) (f : Field) : String :=
  "layout(location = " ++ Nat.repr location ++ ") in " ++ f.ty.name ++ " " ++ f.name ++ ";\n"

/-- The declarations of input variables from a location on, counted in words. -/
def declareWords? : UInt32 → List Field → Option (List String)
  | _, [] => some []
  | location, f :: rest => do
    let next ← addWord? location (.ofNat f.ty.locations)
    let lines ← declareWords? next rest
    return inputLine location.toNat f :: lines

/-- The declarations of a block that is registered after resources, counted in words. -/
def wordLines? (before : List Resource) (fields : List Field) : Option (List String) := do
  let first ← firstWord? before
  declareWords? first fields

theorem Resource.declareInputs_eq (location : Nat) (fields : List Field) :
    declareInputs location fields =
      fields.mapIdx fun k f => inputLine (location + Field.start fields k) f := by
  induction fields generalizing location with
  | nil => rfl
  | cons f fields ih =>
    have hstart : ∀ k, Field.start (f :: fields) (k + 1) = f.ty.locations + Field.start fields k :=
      fun k => rfl
    simp only [declareInputs, ih, List.mapIdx_cons, hstart, Nat.add_assoc]
    rfl

theorem Resource.declaration_of_block {r : Resource} {fields : List Field}
    (h : r.descriptor.block? = some fields) :
    r.declaration = String.join (declareInputs r.slot fields) := by
  obtain ⟨handle, descriptor, slot⟩ := r
  cases descriptor with
  | inputBlock name fields' =>
    cases h
    rfl
  | binding => cases h

/-- Counting in words gives the same declarations, as long as words suffice. -/
theorem declareWords?_eq {location : Nat} {fields : List Field}
    (h : location + Field.locations fields < UInt32.size) :
    declareWords? (.ofNat location) fields = some (Resource.declareInputs location fields) := by
  induction fields generalizing location with
  | nil => rfl
  | cons f fields ih =>
    rw [Field.locations] at h
    have hlocation : (UInt32.ofNat location).toNat = location :=
      UInt32.toNat_ofNat_of_lt' (by omega)
    rw [declareWords?, addWord?_ofNat (by omega), Option.bind_eq_bind, Option.bind_some,
      ih (by omega), hlocation]
    rfl

theorem wordLines?_eq {before : List Resource} {fields : List Field}
    (h : Field.locations (inputFields before ++ fields) < UInt32.size) :
    wordLines? before fields =
      some (Resource.declareInputs (Field.locations (inputFields before)) fields) := by
  rw [Field.locations_append] at h
  rw [wordLines?, firstWord?_eq (by omega), Option.bind_eq_bind, Option.bind_some,
    declareWords?_eq h]

/-! ### Backends -/

namespace Backend

variable {b : Backend}

/-- The fields of all input blocks, in the order of registration. -/
def inputs (b : Backend) : List Field := inputFields b.resources

/-- Every input block begins where the blocks before it end. -/
def Placed (b : Backend) : Prop :=
  ∀ before r after, b.resources = before ++ r :: after → ∀ fields,
    r.descriptor.block? = some fields → r.slot = Field.locations (inputFields before)

theorem placed_empty : empty.Placed := by
  intro before r after hsplit
  simp [empty] at hsplit

theorem Placed.register (h : b.Placed) (d : Descriptor) : (b.register d).1.Placed := by
  intro before r after hsplit fields hfields
  rcases List.eq_nil_or_concat after with rfl | ⟨after, last, rfl⟩
  · -- the block is the new resource
    obtain ⟨rfl, hnew⟩ := List.append_inj' hsplit rfl
    cases hnew
    cases d with
    | inputBlock name fields => rfl
    | binding => cases hfields
  · rw [List.concat_eq_append, ← List.cons_append, ← List.append_assoc] at hsplit
    obtain ⟨hresources, -⟩ := List.append_inj' hsplit rfl
    exact h before r after hresources fields hfields

theorem Placed.after (h : b.Placed) (e : Edit) : (b.after e).Placed := by
  cases e with
  | register d => exact h.register d
  | provide | setAccessor => exact h

theorem Placed.afterAll (h : b.Placed) (edits : List Edit) : (b.afterAll edits).Placed := by
  induction edits generalizing b with
  | nil => exact h
  | cons e edits ih => exact ih (h.after e)

/-- The fields of a block stand behind those of the blocks before it. -/
theorem inputs_of_split {before after : List Resource} {r : Resource} {fields : List Field}
    (hsplit : b.resources = before ++ r :: after) (hfields : r.descriptor.block? = some fields) :
    b.inputs = inputFields before ++ fields ++ inputFields after := by
  have hr : r.descriptor.inputs = fields := Descriptor.inputs_of_block hfields
  simp [inputs, inputFields, hsplit, hr]

/-- **Input locations tile.** Whatever the edits of a backend, the stretches of locations of its
input fields lie side by side from zero to the total, if that is a word. The declaration of an input
block has one line for each field, with the location at which the field begins among all of them,
and it can be computed in words without any sum going beyond a word. -/
theorem input_locations_tile (edits : List Edit)
    (hfew : Field.locations (empty.afterAll edits).inputs < UInt32.size) :
    Field.Tile (empty.afterAll edits).inputs ∧
      ∀ before r after, (empty.afterAll edits).resources = before ++ r :: after → ∀ fields,
        r.descriptor.block? = some fields →
          (empty.afterAll edits).inputs = inputFields before ++ fields ++ inputFields after ∧
          ∃ lines, (empty.afterAll edits).declaration? r.handle = some (String.join lines) ∧
            lines = (fields.mapIdx fun k f => inputLine
              (Field.start (empty.afterAll edits).inputs ((inputFields before).length + k)) f) ∧
            wordLines? before fields = some lines := by
  refine ⟨Field.tile _, fun before r after hsplit fields hfields => ?_⟩
  have hinputs := inputs_of_split hsplit hfields
  have hplaced := placed_empty.afterAll edits before r after hsplit fields hfields
  refine ⟨hinputs, Resource.declareInputs r.slot fields, ?_, ?_, ?_⟩
  · have hnumbered : (empty.afterAll edits).Numbered (empty.issued edits) :=
      numbered_afterAll numbered_empty edits
    have hfound := hnumbered.resource?_of_mem (r := r) (by simp [hsplit])
    rw [declaration?, hfound, Option.map_some, Resource.declaration_of_block hfields]
  · rw [Resource.declareInputs_eq, hplaced, hinputs]
    refine List.ext_getElem (by simp) fun k hk _ => ?_
    rw [List.length_mapIdx] at hk
    simp only [List.getElem_mapIdx, Field.start_within _ _ (Nat.le_of_lt hk)]
  · rw [hinputs, Field.locations_append] at hfew
    rw [hplaced, wordLines?_eq (by omega)]

/-! ### A sample -/

namespace Streams

/-- A matrix, which takes eight locations, and a colour. -/
def instances : List Field := [⟨"inModel", ⟨.double, .mat4, fun _ => rfl⟩⟩, ⟨"inTint", .vec4⟩]

/-- Two blocks of inputs, with other edits and a block without fields between them. -/
def edits : List Edit :=
  [.register (.inputBlock "vertex" [⟨"inPosition", ⟨.double, .vec3, nofun⟩⟩, ⟨"inUv", .vec2⟩]),
    .provide .vertexUv ⟨.inputBlock, 0⟩,
    .register (.binding ⟨0, "camera", .uniformBlock "Camera" [⟨"view", .mat4⟩]⟩),
    .register (.inputBlock "none" []), .setAccessor .uv "inUv",
    .register (.inputBlock "instance" instances)]

end Streams

/-- The matrix begins after the three locations of the first block and takes all up to the
colour. -/
theorem input_locations_tile_streams :
    Field.locations (empty.afterAll Streams.edits).inputs = 12 ∧
      (∀ i, Field.Takes (empty.afterAll Streams.edits).inputs i 10 → i = 2) ∧
      (empty.afterAll Streams.edits).declaration? ⟨.inputBlock, 2⟩ =
        some ("layout(location = 3) in dmat4 inModel;\n" ++
          "layout(location = 11) in vec4 inTint;\n") := by
  obtain ⟨htile, hlines⟩ := input_locations_tile Streams.edits (by decide)
  obtain ⟨-, lines, hdeclaration, hlines, -⟩ :=
    hlines ((empty.afterAll Streams.edits).resources.take 3)
      ⟨⟨.inputBlock, 2⟩, .inputBlock "instance" Streams.instances, 3⟩ [] (by decide) _ rfl
  refine ⟨by decide, fun i hi => ?_, ?_⟩
  · have hmodel : Field.Takes (empty.afterAll Streams.edits).inputs 2 10 :=
      ⟨_, rfl, by decide, by decide⟩
    exact htile.disjoint i 2 10 hi hmodel
  · rw [hdeclaration, hlines]
    decide

end Backend

end ShaderFlow
