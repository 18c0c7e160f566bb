import Mathlib.Data.List.TakeWhile
import ShaderFlow.Proofs.Decimal.Rounding
import ShaderFlow.Proofs.Text.Numerals

/-!
# Reading decimals

A decimal is read digit by digit: its digits without the point are an integer, which is scaled down
by ten for each digit behind the point and scaled by the exponent, if one follows. However a decimal
is laid out, reading it gives the number that it stands for (`readText_write`).
-/

namespace ShaderFlow.Decimal

/-- The integer that digits stand for. -/
def readDigits (digits : List Char) : ℕ := Nat.ofDigitChars 10 digits 0

/-- The integer that digits stand for, negative after a minus sign. -/
def readInteger : List Char → ℤ
  | '-' :: digits => -readDigits digits
  | digits => readDigits digits

/-- The number that digits stand for, with or without a point among them. -/
def readPoint (text : List Char) : ℚ :=
  let whole := text.takeWhile Char.isDigit
  let fraction := (text.dropWhile Char.isDigit).drop 1
  readDigits (whole ++ fraction) * 10 ^ (-(fraction.length : ℤ))

/-- The number that a text stands for, with or without an exponent at its end. -/
def readText (text : List Char) : ℚ :=
  readPoint (text.takeWhile (· != 'e')) * 10 ^ readInteger ((text.dropWhile (· != 'e')).drop 1)

variable {d : Decimal} {whole fraction text rest : List Char}

/-! ### Digits, points and exponents -/

theorem readDigits_toDigits (n : ℕ) : readDigits (Nat.toDigits 10 n) = n :=
  Nat.ofDigitChars_toDigits (by decide) (by decide)

theorem readDigits_zeros (n : ℕ) (digits : List Char) :
    readDigits (List.replicate n '0' ++ digits) = readDigits digits := by
  rw [readDigits, Nat.ofDigitChars_append, Nat.ofDigitChars_replicate_zero, Nat.mul_zero]
  rfl

theorem readDigits_append_zeros (digits : List Char) (n : ℕ) :
    readDigits (digits ++ List.replicate n '0') = readDigits digits * 10 ^ n := by
  rw [readDigits, Nat.ofDigitChars_append, Nat.ofDigitChars_replicate_zero, Nat.mul_comm]
  rfl

theorem readInteger_integer (n : ℤ) : readInteger (integer n) = n := by
  have hdigits := readDigits_toDigits n.natAbs
  unfold integer
  split_ifs with hn
  · rw [List.singleton_append, readInteger, hdigits]
    omega
  · rw [List.nil_append]
    have hread : readInteger (Nat.toDigits 10 n.natAbs) =
        readDigits (Nat.toDigits 10 n.natAbs) := by
      unfold readInteger
      split
      next digits heq =>
        have hminus := isDigits_toDigits n.natAbs '-' (by simp [heq])
        exact absurd hminus (by decide)
      · rfl
    rw [hread, hdigits]
    omega

theorem readPoint_point (hwhole : IsDigits whole) :
    readPoint (whole ++ '.' :: fraction) =
      readDigits (whole ++ fraction) * 10 ^ (-(fraction.length : ℤ)) := by
  have hpoint : Char.isDigit '.' = false := rfl
  simp [readPoint, List.takeWhile_append_of_pos hwhole, List.dropWhile_append_of_pos hwhole, hpoint]

theorem readPoint_digits (hwhole : IsDigits whole) : readPoint whole = readDigits whole := by
  simp [readPoint, List.takeWhile_eq_self_iff.2 hwhole, List.dropWhile_eq_nil_iff.2 hwhole]

theorem isDigit_or_point (hwhole : IsDigits whole) (hfraction : IsDigits fraction) :
    ∀ c ∈ whole ++ '.' :: fraction, c.isDigit = true ∨ c = '.' := by
  intro c hc
  rcases List.mem_append.1 hc with hc | hc
  · exact .inl (hwhole c hc)
  · rcases List.mem_cons.1 hc with rfl | hc
    · exact .inr rfl
    · exact .inl (hfraction c hc)

theorem ne_of_isDigit_or_point (h : ∀ c ∈ text, c.isDigit = true ∨ c = '.') :
    ∀ c ∈ text, (c != 'e') = true := by
  intro c hc
  rcases h c hc with hc | rfl
  · refine bne_iff_ne.2 ?_
    rintro rfl
    exact absurd hc (by decide)
  · rfl

theorem readText_plain (h : ∀ c ∈ text, c.isDigit = true ∨ c = '.') :
    readText text = readPoint text := by
  have hne := ne_of_isDigit_or_point h
  simp [readText, List.takeWhile_eq_self_iff.2 hne, List.dropWhile_eq_nil_iff.2 hne, readInteger,
    readDigits]

theorem readText_exponent (h : ∀ c ∈ text, c.isDigit = true ∨ c = '.') :
    readText (text ++ 'e' :: rest) = readPoint text * 10 ^ readInteger rest := by
  have hne := ne_of_isDigit_or_point h
  simp [readText, List.takeWhile_append_of_pos hne, List.dropWhile_append_of_pos hne]

/-! ### Decimals -/

theorem readDigits_text (d : Decimal) : readDigits d.text = d.digits := readDigits_toDigits _

theorem isDigits_text (d : Decimal) : IsDigits d.text := isDigits_toDigits _

theorem length_pos (d : Decimal) : 0 < d.length := List.length_pos_iff.2 d.text_ne_nil

/-- A text with a point among digits has no exponent. -/
theorem readText_point (hwhole : IsDigits whole) (hfraction : IsDigits fraction) :
    readText (whole ++ '.' :: fraction) =
      readDigits (whole ++ fraction) * 10 ^ (-(fraction.length : ℤ)) := by
  rw [readText_plain (isDigit_or_point hwhole hfraction), readPoint_point hwhole]

theorem readText_positional (d : Decimal) : readText d.positional = d.value := by
  have hlength : d.text.length = d.length := rfl
  have hpos := d.length_pos
  unfold positional
  split_ifs with hexponent hleading
  · -- the zeros after the digits count for the exponent, and one more is behind the point
    have hread := readText_point (d.isDigits_text.append (.zeros d.exponent.toNat)) (.zeros 1)
    rw [List.append_assoc _ _ (List.replicate 1 '0'), ← List.replicate_add,
      readDigits_append_zeros, readDigits_text] at hread
    obtain ⟨n, hn⟩ := Int.eq_ofNat_of_zero_le hexponent
    refine hread.trans ?_
    simp only [value, hn, Int.toNat_natCast, List.length_replicate]
    push_cast
    rw [zpow_natCast, pow_add]
    norm_num
    ring
  · -- the digits behind the point are as many as the exponent takes away
    rw [List.append_assoc, List.singleton_append, readText_point
      (fun c hc => d.isDigits_text c (List.mem_of_mem_take hc))
      (fun c hc => d.isDigits_text c (List.mem_of_mem_drop hc)), List.take_append_drop,
      readDigits_text, List.length_drop, hlength, value]
    congr 2
    unfold leading at hleading ⊢
    omega
  · have hread := readText_point (.zeros 1)
      ((IsDigits.zeros (-d.leading - 1).toNat).append d.isDigits_text)
    rw [readDigits_zeros, readDigits_zeros, readDigits_text, List.length_append,
      List.length_replicate, hlength] at hread
    rw [List.append_assoc]
    refine hread.trans ?_
    rw [value]
    congr 2
    unfold leading at hleading ⊢
    omega

theorem readText_scientific (d : Decimal) : readText d.scientific = d.value := by
  have hlength : d.text.length = d.length := rfl
  have hdigits := d.isDigits_text
  have hread := d.readDigits_text
  unfold scientific
  rw [List.append_assoc, List.singleton_append]
  split
  next hnil => exact absurd hnil d.text_ne_nil
  next c hc =>
    rw [hc] at hdigits hread hlength
    rw [readText_exponent fun c hc => .inl (hdigits c hc), readPoint_digits hdigits, hread,
      readInteger_integer, value, leading, ← hlength]
    simp
  next c rest _ hc =>
    rw [hc] at hdigits hread hlength
    obtain ⟨hfirst, hrest⟩ := List.forall_mem_cons.1 hdigits
    have hfront : IsDigits [c] := List.forall_mem_singleton.2 hfirst
    rw [← List.singleton_append, readText_exponent (isDigit_or_point hfront hrest),
      readPoint_point hfront, List.singleton_append, hread, readInteger_integer, value, mul_assoc,
      ← zpow_add₀ (by norm_num), leading, ← hlength, List.length_cons]
    congr 2
    push_cast
    ring

/-- However a decimal is laid out, the text stands for its value. -/
theorem readText_write (d : Decimal) (L : Layout) : readText (d.write L).toList = d.value := by
  rw [write, String.toList_ofList]
  split_ifs with hzero
  · have hread := readText_point (.zeros 1) (.zeros 1)
    rw [readDigits_zeros, ← List.append_nil (List.replicate 1 '0'), readDigits_zeros] at hread
    refine hread.trans ?_
    simp [value, hzero, readDigits]
  · exact d.readText_positional
  · exact d.readText_scientific

end ShaderFlow.Decimal
