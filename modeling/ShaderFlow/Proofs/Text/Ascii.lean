import Mathlib.Tactic.SplitIfs
import ShaderFlow.Function.Basic

/-!
# Texts of plain characters

Everything that the program itself writes is made of the first 128 characters: numbers, literals,
the names of types, and the letters that select components. Other characters come from names that
a caller has chosen.
-/

namespace ShaderFlow

/-- All characters are among the first 128. -/
def IsAscii (text : List Char) : Prop := ∀ c ∈ text, c.toNat < 128

instance (text : List Char) : Decidable (IsAscii text) := List.decidableBAll _ text

namespace IsAscii

variable {s t : List Char}

theorem not_mem {c : Char} (h : IsAscii s) (hc : 128 ≤ c.toNat) : c ∉ s :=
  fun hmem => absurd (h c hmem) (Nat.not_lt.2 hc)

theorem count_eq_zero {c : Char} (h : IsAscii s) (hc : 128 ≤ c.toNat) : s.count c = 0 :=
  List.count_eq_zero_of_not_mem (h.not_mem hc)

theorem append (hs : IsAscii s) (ht : IsAscii t) : IsAscii (s ++ t) := by
  intro c hc
  rcases List.mem_append.1 hc with hc | hc
  · exact hs c hc
  · exact ht c hc

theorem of_subset (h : IsAscii t) (hsub : s ⊆ t) : IsAscii s := fun c hc => h c (hsub hc)

theorem replicate {c : Char} (hc : c.toNat < 128) (n : Nat) : IsAscii (List.replicate n c) := by
  intro a ha
  rwa [List.eq_of_mem_replicate ha]

theorem join {l : List String} (h : ∀ s ∈ l, IsAscii s.toList) :
    IsAscii (String.join l).toList := by
  intro c hc
  rw [String.toList_join, List.mem_flatMap] at hc
  obtain ⟨s, hs, hc⟩ := hc
  exact h s hs c hc

theorem intercalate {separator : String} {l : List String} (hsep : IsAscii separator.toList)
    (h : ∀ s ∈ l, IsAscii s.toList) : IsAscii (separator.intercalate l).toList := by
  induction l with
  | nil => exact nofun
  | cons s l ih =>
    have hs := h s List.mem_cons_self
    have hl := ih fun t ht => h t (List.mem_cons_of_mem _ ht)
    cases l with
    | nil => simpa using hs
    | cons t l =>
      rw [String.intercalate_cons_cons, String.toList_append, String.toList_append]
      exact (hs.append hsep).append hl

end IsAscii

/-! ### Numbers and types -/

theorem isAscii_of_isDigit {c : Char} (h : c.isDigit = true) : c.toNat < 128 := by
  simp only [Char.isDigit, Bool.and_eq_true, decide_eq_true_eq] at h
  have hle : c.val.toNat ≤ 57 := h.2
  exact Nat.lt_of_le_of_lt hle (by decide)

theorem isAscii_of_isNameChar {c : Char} (h : Expr.isNameChar c = true) : c.toNat < 128 := by
  have hle : ∀ n : UInt32, c.val ≤ n → c.toNat ≤ n.toNat := fun n hn => hn
  unfold Expr.isNameChar Char.isAlphanum Char.isAlpha Char.isUpper Char.isLower at h
  simp only [Bool.or_eq_true, Bool.and_eq_true, decide_eq_true_eq, beq_iff_eq] at h
  rcases h with ((((⟨-, h⟩ | ⟨-, h⟩) | h) | rfl) | rfl)
  · exact Nat.lt_of_le_of_lt (hle _ h) (by decide)
  · exact Nat.lt_of_le_of_lt (hle _ h) (by decide)
  · exact isAscii_of_isDigit h
  · decide
  · decide

theorem isAscii_toDigits (n : Nat) : IsAscii (Nat.toDigits 10 n) := fun _ hc =>
  isAscii_of_isDigit (Nat.isDigit_of_mem_toDigits (by decide) (by decide) hc)

theorem isAscii_repr (n : Nat) : IsAscii (Nat.repr n).toList := by
  rw [Nat.toList_repr]
  exact isAscii_toDigits n

theorem Ty.isAscii_name (t : Ty) : IsAscii t.name.toList := by
  have hall : ∀ t ∈ Ty.all, IsAscii t.name.toList := by decide
  exact hall t t.mem_all

theorem isAscii_componentLetter (channel : Nat) :
    IsAscii (String.singleton (componentLetter channel)).toList := by
  unfold componentLetter
  split <;> decide

/-! ### Literals -/

namespace Decimal

variable (d : Decimal)

theorem isAscii_integer (n : Int) : IsAscii (integer n) := by
  unfold integer
  split
  · exact IsAscii.append (by decide) (isAscii_toDigits _)
  · exact isAscii_toDigits _

theorem isAscii_positional : IsAscii d.positional := by
  have htext : IsAscii d.text := isAscii_toDigits _
  unfold positional
  split_ifs
  · exact (htext.append (.replicate (by decide) _)).append (by decide)
  · exact ((htext.of_subset (List.take_subset _ _)).append (by decide)).append
      (htext.of_subset (List.drop_subset _ _))
  · exact (IsAscii.append (by decide) (.replicate (by decide) _)).append htext

theorem isAscii_scientific : IsAscii d.scientific := by
  have htext : IsAscii d.text := isAscii_toDigits _
  unfold scientific
  refine IsAscii.append (IsAscii.append ?_ (by decide)) (isAscii_integer _)
  split
  · exact nofun
  next c hc => exact hc ▸ htext
  next c rest _ hc =>
    rw [hc] at htext
    intro a ha
    simp only [List.mem_cons] at ha
    rcases ha with rfl | rfl | ha
    · exact htext a List.mem_cons_self
    · decide
    · exact htext a (List.mem_cons_of_mem _ ha)

theorem isAscii_write (L : Layout) : IsAscii (d.write L).toList := by
  rw [write, String.toList_ofList]
  split_ifs
  · decide
  · exact d.isAscii_positional
  · exact d.isAscii_scientific

end Decimal

namespace Literal

theorem isAscii_signed {text : String} (h : IsAscii text.toList) (negative : Bool) :
    IsAscii (signed negative text).toList := by
  unfold signed
  split
  · simp only [String.toList_append]
    exact (IsAscii.append (by decide) h).append (by decide)
  · exact h

theorem isAscii_real (F : Decimal.Format) {huge mark : String} (hhuge : IsAscii huge.toList)
    (hmark : IsAscii mark.toList) (bits : Nat) : IsAscii (real F huge mark bits).toList := by
  unfold real
  split
  · simp only [String.toList_append]
    exact (((IsAscii.append (by decide) hmark).append (by decide)).append hmark).append (by decide)
  · refine isAscii_signed ?_ _
    rw [String.toList_append]
    exact hhuge.append hmark
  · refine isAscii_signed ?_ _
    rw [String.toList_append]
    exact (Decimal.isAscii_write _ _).append hmark

theorem isAscii_texts (channels : Channels) : ∀ s ∈ channels.texts, IsAscii s.toList := by
  intro s hs
  cases channels <;> obtain ⟨x, -, rfl⟩ := List.mem_map.1 hs
  · split <;> decide
  · exact isAscii_signed (isAscii_repr _) _
  · rw [uint, String.toList_append]
    exact (isAscii_repr _).append (by decide)
  · exact isAscii_real _ (by decide) (by decide) _
  · exact isAscii_real _ (by decide) (by decide) _

theorem isAscii_text (l : Literal) : IsAscii l.text.toList := by
  unfold text
  split
  · exact .join (isAscii_texts l.channels)
  · simp only [String.toList_append]
    exact ((l.ty.isAscii_name.append (by decide)).append
      (.intercalate (by decide) (isAscii_texts l.channels))).append (by decide)

end Literal

/-! ### Selections -/

theorem Ty.channels_le_four {t : Ty} (h : t.isMatrix = false) : t.channels ≤ 4 := by
  unfold Ty.isMatrix at h
  unfold Ty.channels
  cases hs : t.shape <;> simp_all [Shape.channels, Shape.isMatrix]

/-- A selection that is valid takes letters of one spelling. -/
theorem Op.exists_letters {input : Ty} {pattern : String} (h : selects input pattern = true) :
    ∃ letters ∈ letterSets, pattern.toList ⊆ letters := by
  simp only [selects, Bool.and_eq_true, List.any_eq_true, List.all_eq_true, decide_eq_true_eq,
    Bool.not_eq_true'] at h
  obtain ⟨⟨-, hmatrix⟩, letters, hletters, hall⟩ := h
  have hlength : ∀ letters ∈ letterSets, letters.length = 4 := by decide
  refine ⟨letters, hletters, fun c hc => List.idxOf_lt_length_iff.1 ?_⟩
  rw [hlength letters hletters]
  exact Nat.lt_of_lt_of_le (hall c hc) (Ty.channels_le_four hmatrix)

theorem Op.isAscii_pattern {input : Ty} {pattern : String} (h : selects input pattern = true) :
    IsAscii pattern.toList := by
  have hsets : ∀ letters ∈ letterSets, IsAscii letters := by decide
  obtain ⟨letters, hletters, hsub⟩ := Op.exists_letters h
  exact (hsets letters hletters).of_subset hsub

end ShaderFlow
