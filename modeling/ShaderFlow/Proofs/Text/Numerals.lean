import Mathlib.Tactic.SplitIfs
import ShaderFlow.Literal

/-!
# The form of numbers

A decimal is always written with a fraction or an exponent, so it can be told from an integer by
the first character that is not a digit (`Decimal.isReal_write`).
-/

namespace ShaderFlow

/-- A digit, a point, the letter of an exponent or a minus sign. -/
def isNumeral (c : Char) : Bool := c.isDigit || c == '.' || c == 'e' || c == '-'

/-- Digits only. -/
def IsDigits (text : List Char) : Prop := ∀ c ∈ text, c.isDigit = true

/-- Digits, and after them a fraction or an exponent. -/
inductive IsReal : List Char → Prop
  | fraction {whole more : List Char} {c : Char} (hwhole : IsDigits whole)
      (hc : c.isDigit = true) (hmore : ∀ c ∈ more, isNumeral c = true) :
      IsReal (whole ++ '.' :: c :: more)
  | exponent {whole more : List Char} (hwhole : IsDigits whole)
      (hmore : ∀ c ∈ more, isNumeral c = true) : IsReal (whole ++ 'e' :: more)

theorem isNumeral_of_isDigit {c : Char} (h : c.isDigit = true) : isNumeral c = true := by
  simp [isNumeral, h]

theorem isDigits_toDigits (n : Nat) : IsDigits (Nat.toDigits 10 n) := fun _ hc =>
  Nat.isDigit_of_mem_toDigits (by decide) (by decide) hc

theorem isDigits_repr (n : Nat) : IsDigits (Nat.repr n).toList := by
  rw [Nat.toList_repr]
  exact isDigits_toDigits n

namespace IsDigits

variable {s t : List Char}

theorem append (hs : IsDigits s) (ht : IsDigits t) : IsDigits (s ++ t) :=
  List.forall_mem_append.2 ⟨hs, ht⟩

theorem zeros (n : Nat) : IsDigits (List.replicate n '0') := by
  intro c hc
  rw [List.eq_of_mem_replicate hc]
  rfl

theorem isNumeral (h : IsDigits s) : ∀ c ∈ s, isNumeral c = true := fun c hc =>
  isNumeral_of_isDigit (h c hc)

end IsDigits

namespace IsReal

theorem point {whole digits : List Char} (hwhole : IsDigits whole) (hdigits : IsDigits digits)
    (hne : digits ≠ []) : IsReal (whole ++ '.' :: digits) := by
  obtain ⟨c, digits, rfl⟩ := List.exists_cons_of_ne_nil hne
  obtain ⟨hc, hdigits⟩ := List.forall_mem_cons.1 hdigits
  exact fraction hwhole hc (IsDigits.isNumeral hdigits)

theorem isNumeral {text : List Char} (h : IsReal text) : ∀ c ∈ text, isNumeral c = true := by
  cases h with
  | fraction hwhole hc hmore =>
    refine List.forall_mem_append.2 ⟨hwhole.isNumeral, ?_⟩
    exact List.forall_mem_cons.2
      ⟨rfl, List.forall_mem_cons.2 ⟨isNumeral_of_isDigit hc, hmore⟩⟩
  | exponent hwhole hmore =>
    exact List.forall_mem_append.2 ⟨hwhole.isNumeral, List.forall_mem_cons.2 ⟨rfl, hmore⟩⟩

end IsReal

namespace Decimal

variable (d : Decimal)

theorem isNumeral_integer (n : Int) : ∀ c ∈ integer n, isNumeral c = true := by
  unfold integer
  refine List.forall_mem_append.2 ⟨?_, (isDigits_toDigits _).isNumeral⟩
  split
  · exact List.forall_mem_singleton.2 rfl
  · exact nofun

theorem text_ne_nil : d.text ≠ [] := by
  rw [text, ← Nat.toList_repr]
  simp

theorem isReal_positional : IsReal d.positional := by
  have htext : IsDigits d.text := isDigits_toDigits _
  unfold positional
  split_ifs with hexponent hleading
  · exact .point (htext.append (.zeros _)) (.zeros 1) (by decide)
  · -- the point comes before the last digit, because the exponent is negative
    have hdrop : d.text.drop (d.leading.toNat + 1) ≠ [] := by
      rw [Ne, List.drop_eq_nil_iff]
      have hlength : d.length = d.text.length := rfl
      have hpos : 0 < d.text.length := List.length_pos_iff.2 d.text_ne_nil
      unfold leading at hleading ⊢
      omega
    rw [List.append_assoc, List.singleton_append]
    exact .point (fun c hc => htext c (List.mem_of_mem_take hc))
      (fun c hc => htext c (List.mem_of_mem_drop hc)) hdrop
  · have hdigits := (IsDigits.zeros (-d.leading - 1).toNat).append htext
    rw [List.append_assoc]
    exact .point (.zeros 1) hdigits (by simp [d.text_ne_nil])

theorem isReal_scientific : IsReal d.scientific := by
  have htext : IsDigits d.text := isDigits_toDigits _
  have hleading := isNumeral_integer d.leading
  unfold scientific
  rw [List.append_assoc, List.singleton_append]
  split
  next hnil => exact absurd hnil d.text_ne_nil
  next c hc => exact .exponent (hc ▸ htext) hleading
  next c rest hrest hc =>
    rw [hc] at htext
    obtain ⟨hfirst, htext⟩ := List.forall_mem_cons.1 htext
    obtain ⟨second, rest, rfl⟩ := List.exists_cons_of_ne_nil hrest
    obtain ⟨hsecond, hdigits⟩ := List.forall_mem_cons.1 htext
    exact IsReal.fraction (List.forall_mem_singleton.2 hfirst) hsecond
      (List.forall_mem_append.2
        ⟨IsDigits.isNumeral hdigits, List.forall_mem_cons.2 ⟨rfl, hleading⟩⟩)

/-- A decimal is written with a fraction or an exponent. -/
theorem isReal_write (L : Layout) : IsReal (d.write L).toList := by
  rw [write, String.toList_ofList]
  split_ifs
  · exact .point (.zeros 1) (.zeros 1) (by decide)
  · exact d.isReal_positional
  · exact d.isReal_scientific

end Decimal

end ShaderFlow
