import Mathlib.Data.Finset.Card
import Mathlib.Data.List.Induction
import Mathlib.Data.List.Nodup
import ShaderFlow.Stage.TextureArray

/-!
# Textures in the order of first need

`TextureArray.place` is what becomes of the list of textures when one of them is needed, and
`TextureArray.placeAll` when many are: from an empty array, that is the list of first occurrences
(`TextureArray.placeAll_nil`). A place that was given never changes, since the list only grows at
its end (`TextureArray.prefix_placeAll`, `TextureArray.idxOf?_of_isPrefix`).

The same holds for requests that nobody coordinates, each with a capacity of its own, of which some
are refused (`TextureArray.prefix_afterAll`).
-/

namespace ShaderFlow.TextureArray

/-- The textures after one more of them is needed. -/
def place (ts : List Texture) (t : Texture) : List Texture := if t ∈ ts then ts else ts ++ [t]

/-- The textures after more of them are needed. -/
def placeAll (ts needed : List Texture) : List Texture := needed.foldl place ts

variable {ts needed : List Texture} {t : Texture}

theorem prefix_place : ts <+: place ts t := by
  unfold place
  split
  · exact List.prefix_refl ts
  · exact List.prefix_append ts [t]

theorem mem_place {a : Texture} : a ∈ place ts t ↔ a ∈ ts ∨ a = t := by
  unfold place
  split <;> simp_all

theorem nodup_place (h : ts.Nodup) : (place ts t).Nodup := by
  unfold place
  split
  · exact h
  next hnew => exact List.nodup_append_comm.1 (List.nodup_cons.2 ⟨hnew, h⟩)

theorem placeAll_append (ts needed more : List Texture) :
    placeAll ts (needed ++ more) = placeAll (placeAll ts needed) more :=
  List.foldl_append

theorem prefix_placeAll : ts <+: placeAll ts needed := by
  induction needed generalizing ts with
  | nil => exact List.prefix_refl ts
  | cons t needed ih => exact prefix_place.trans ih

theorem mem_placeAll {a : Texture} : a ∈ placeAll ts needed ↔ a ∈ ts ∨ a ∈ needed := by
  induction needed generalizing ts with
  | nil => simp [placeAll]
  | cons t needed ih =>
    rw [placeAll, List.foldl_cons, ← placeAll, ih, mem_place, List.mem_cons, or_assoc]

theorem nodup_placeAll (h : ts.Nodup) : (placeAll ts needed).Nodup := by
  induction needed generalizing ts with
  | nil => exact h
  | cons t needed ih => exact ih (nodup_place h)

theorem length_placeAll (ts needed : List Texture) :
    (placeAll ts needed).length = ts.length + (needed.toFinset \ ts.toFinset).card := by
  induction needed generalizing ts with
  | nil => simp [placeAll]
  | cons t needed ih =>
    rw [placeAll, List.foldl_cons, ← placeAll, ih, List.toFinset_cons]
    by_cases ht : t ∈ ts
    · rw [place, if_pos ht, Finset.insert_sdiff_of_mem _ (List.mem_toFinset.2 ht)]
    · -- the texture is counted here, so it is not counted among the others
      have hsplit : (insert t needed.toFinset) \ ts.toFinset =
          insert t (needed.toFinset \ (ts ++ [t]).toFinset) := by
        ext a
        by_cases ha : a = t <;> simp [ha, ht]
      rw [place, if_neg ht, hsplit, Finset.card_insert_of_notMem (by simp), List.length_append,
        List.length_singleton]
      omega

/-- From an empty array, textures have places in the order of their first occurrences. -/
theorem placeAll_nil (needed : List Texture) : placeAll [] needed = needed.eraseDups := by
  induction needed using List.reverseRecOn with
  | nil => rfl
  | append_singleton needed t ih =>
    rw [placeAll_append, ih, List.eraseDups_append]
    by_cases ht : t ∈ needed
    · simp [placeAll, place, List.removeAll, ht]
    · simp [placeAll, place, List.removeAll, ht, List.eraseDups_cons]

theorem idxOf?_of_isPrefix {ts' : List Texture} (h : ts <+: ts') {slot : Nat}
    (hslot : ts.idxOf? t = some slot) : ts'.idxOf? t = some slot := by
  obtain ⟨more, rfl⟩ := h
  rw [List.idxOf?] at hslot ⊢
  simp [List.findIdx?_append, hslot]

theorem idxOf?_append_self (h : t ∉ ts) : (ts ++ [t]).idxOf? t = some ts.length := by
  have hnone : ts.idxOf? t = none := List.idxOf?_eq_none_iff.2 h
  rw [List.idxOf?] at hnone ⊢
  simp [List.findIdx?_append, hnone]

theorem getElem?_of_idxOf? {slot : Nat} (h : ts.idxOf? t = some slot) : ts[slot]? = some t := by
  obtain ⟨hlt, heq, -⟩ := List.idxOf?_eq_some_iff.1 h
  exact List.getElem?_eq_some_iff.2 ⟨hlt, heq⟩

/-- A texture that got its place has it in the grown list, and the list is still within its
capacity if it was. -/
theorem assign_eq_ok {s s' : TextureArray} {binding : String} {capacity slot : Nat}
    (h : s.assign t binding capacity = .ok (s', slot)) :
    s'.textures = place s.textures t ∧ s'.textures.idxOf? t = some slot ∧
      (s.textures.length ≤ capacity → s'.textures.length ≤ capacity) := by
  unfold assign at h
  split at h
  next slot' hslot =>
    cases h
    have hmem : t ∈ s.textures := List.isSome_idxOf?.1 (by simp [hslot])
    exact ⟨by simp [place, hmem], hslot, id⟩
  next hnone =>
    have hnew : t ∉ s.textures := List.idxOf?_eq_none_iff.1 hnone
    split at h
    next hlt =>
      cases h
      exact ⟨by simp [place, hnew], idxOf?_append_self hnew, fun _ => by simp; omega⟩
    next => cases h

/-- A texture that has a place is given the same one again, whatever the capacity. -/
theorem assign_of_idxOf? {s : TextureArray} {slot : Nat} (h : s.textures.idxOf? t = some slot)
    (binding : String) (capacity : Nat) : s.assign t binding capacity = .ok (s, slot) := by
  simp [assign, h]

theorem exists_assign {s : TextureArray} (binding : String) {capacity : Nat}
    (h : (place s.textures t).length ≤ capacity) :
    ∃ r, s.assign t binding capacity = .ok r := by
  unfold assign
  split
  · exact ⟨_, rfl⟩
  next hnone =>
    have hnew : t ∉ s.textures := List.idxOf?_eq_none_iff.1 hnone
    simp only [place, hnew, ↓reduceIte, List.length_append, List.length_singleton] at h
    exact ⟨_, if_pos h⟩

/-! ### Requests -/

/-- A request for the place of a texture in an array with a name and a number of places. -/
structure Request where
  /-- The texture. -/
  texture : Texture
  /-- The name of the array. -/
  binding : String
  /-- The number of places. -/
  capacity : Nat

/-- The array after a request; one that is refused changes nothing. -/
def after (s : TextureArray) (r : Request) : TextureArray :=
  match s.assign r.texture r.binding r.capacity with
  | .ok (s', _) => s'
  | .error _ => s

/-- The array after more requests. -/
def afterAll (s : TextureArray) (requests : List Request) : TextureArray := requests.foldl after s

variable {s s' : TextureArray}

/-- A request leaves the list as it is or puts its texture at the end. -/
theorem prefix_after (r : Request) : s.textures <+: (s.after r).textures := by
  unfold after
  split
  next h => exact (assign_eq_ok h).1 ▸ prefix_place
  next => exact List.prefix_refl _

theorem prefix_afterAll (requests : List Request) :
    s.textures <+: (s.afterAll requests).textures := by
  induction requests generalizing s with
  | nil => exact List.prefix_refl _
  | cons r requests ih => exact (prefix_after r).trans ih

end ShaderFlow.TextureArray
