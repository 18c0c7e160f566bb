import Mathlib.Algebra.Order.Field.Rat
import Mathlib.Algebra.Order.Field.Basic
import Mathlib.Algebra.Order.Ring.Cast
import Mathlib.Tactic.FieldSimp
import Mathlib.Tactic.Linarith
import Mathlib.Tactic.NormNum
import Mathlib.Tactic.Positivity
import Mathlib.Tactic.Ring
import ShaderFlow.Decimal.Shortest

/-!
# Numbers that round to a magnitude

The decimals that read back as a magnitude are those whose value lies in an interval around it
(`Magnitude.readsBack_iff`), and the shortest one that is found does (`Magnitude.rounds_shortest`).

The magnitudes of a format, taken in the order of their bit patterns (`Format.ofCode`), have
intervals that lie side by side: each begins where the one before it ends
(`Format.upperEnd_ofCode`). An end belongs to the interval if the mantissa is even, and of two
neighbours just one has an even mantissa, since it has the parity of the pattern. So no number
rounds to two magnitudes (`Format.code_eq_of_rounds`).
-/

namespace ShaderFlow.Decimal

variable {d : Decimal}

/-- The number that a decimal stands for. -/
def value (d : Decimal) : ℚ := d.digits * 10 ^ d.exponent

theorem value_trim (d : Decimal) : d.trim.value = d.value := by
  fun_induction trim d with
  | case1 d h ih =>
    have hdigits : d.digits = d.digits / 10 * 10 := by omega
    rw [ih, value, value, hdigits]
    simp only [Nat.mul_div_cancel _ (by norm_num : 0 < 10)]
    rw [zpow_add₀ (by norm_num)]
    push_cast
    ring
  | case2 d h => rfl

/-! ### Common denominators -/

theorem zpow_mul_toNat {a : ℚ} (ha : a ≠ 0) (p : ℤ) : a ^ p * a ^ (-p).toNat = a ^ p.toNat := by
  rw [← zpow_natCast, ← zpow_natCast, ← zpow_add₀ ha]
  congr 1
  omega

/-- The common denominator of `2 ^ p` and `10 ^ k`. -/
def denominator (p k : ℤ) : ℚ := 2 ^ (-p).toNat * 10 ^ (-k).toNat

theorem denominator_pos (p k : ℤ) : 0 < denominator p k := by
  unfold denominator
  positivity

theorem cast_binaryPart (a : ℕ) (p k : ℤ) :
    (binaryPart a p k : ℚ) = a * 2 ^ p * denominator p k := by
  have h : ((2 : ℚ) ^ p * 2 ^ (-p).toNat) = 2 ^ p.toNat := zpow_mul_toNat (by norm_num) p
  calc (binaryPart a p k : ℚ)
      = a * 2 ^ p.toNat * 10 ^ (-k).toNat := by simp [binaryPart]
    _ = a * (2 ^ p * 2 ^ (-p).toNat) * 10 ^ (-k).toNat := by rw [h]
    _ = a * 2 ^ p * denominator p k := by
      unfold denominator
      ring

theorem cast_decimalPart (b : ℕ) (p k : ℤ) :
    (decimalPart b p k : ℚ) = b * 10 ^ k * denominator p k := by
  have h : ((10 : ℚ) ^ k * 10 ^ (-k).toNat) = 10 ^ k.toNat := zpow_mul_toNat (by norm_num) k
  calc (decimalPart b p k : ℚ)
      = b * 10 ^ k.toNat * 2 ^ (-p).toNat := by simp [decimalPart]
    _ = b * (10 ^ k * 10 ^ (-k).toNat) * 2 ^ (-p).toNat := by rw [h]
    _ = b * 10 ^ k * denominator p k := by
      unfold denominator
      ring

namespace Magnitude

variable {x : Magnitude}

/-! ### The interval of a magnitude -/

/-- The lower end of the interval that rounds to the magnitude. -/
def lowerEnd (x : Magnitude) : ℚ := x.lower * 2 ^ (x.exponent - 2)

/-- The upper end of the interval that rounds to the magnitude. -/
def upperEnd (x : Magnitude) : ℚ := x.upper * 2 ^ (x.exponent - 2)

theorem quarters_lt {a b : ℕ} {e : ℤ} : (a : ℚ) * 2 ^ e < b * 2 ^ e ↔ a < b := by
  have hpos : (0 : ℚ) < 2 ^ e := zpow_pos (by norm_num) e
  rw [mul_lt_mul_iff_left₀ hpos, Nat.cast_lt]

/-- The number rounds to the magnitude. -/
def Rounds (x : Magnitude) (q : ℚ) : Prop :=
  if x.mantissa % 2 = 0 then x.lowerEnd ≤ q ∧ q ≤ x.upperEnd else x.lowerEnd < q ∧ q < x.upperEnd

theorem readsBack_iff : x.ReadsBack d ↔ x.Rounds d.value := by
  have hpos := denominator_pos (x.exponent - 2) d.exponent
  have hle : ∀ a : ℕ, binaryPart a (x.exponent - 2) d.exponent ≤
      decimalPart d.digits (x.exponent - 2) d.exponent ↔
        (a : ℚ) * 2 ^ (x.exponent - 2) ≤ d.value := fun a => by
    rw [← Nat.cast_le (α := ℚ), cast_binaryPart, cast_decimalPart, mul_le_mul_iff_left₀ hpos]
    rfl
  have hge : ∀ a : ℕ, decimalPart d.digits (x.exponent - 2) d.exponent ≤
      binaryPart a (x.exponent - 2) d.exponent ↔
        d.value ≤ (a : ℚ) * 2 ^ (x.exponent - 2) := fun a => by
    rw [← Nat.cast_le (α := ℚ), cast_binaryPart, cast_decimalPart, mul_le_mul_iff_left₀ hpos]
    rfl
  unfold ReadsBack Rounds lowerEnd upperEnd
  simp only [← not_le, hle, hge]

theorem Rounds.lowerEnd_le {q : ℚ} (h : x.Rounds q) : x.lowerEnd ≤ q := by
  unfold Rounds at h
  split at h
  · exact h.1
  · exact le_of_lt h.1

theorem Rounds.le_upperEnd {q : ℚ} (h : x.Rounds q) : q ≤ x.upperEnd := by
  unfold Rounds at h
  split at h
  · exact h.2
  · exact le_of_lt h.2

theorem lowerEnd_lt_upperEnd (x : Magnitude) : x.lowerEnd < x.upperEnd := by
  have hlt : x.lower < x.upper := by
    unfold lower upper
    omega
  exact quarters_lt.2 hlt

/-! ### The shortest decimal -/

theorem value_exact (x : Magnitude) : x.exact.value = x.mantissa * 2 ^ x.exponent := by
  unfold exact value
  split_ifs with h
  · obtain ⟨n, hn⟩ := Int.eq_ofNat_of_zero_le h
    simp [hn]
  · obtain ⟨n, hn⟩ : ∃ n : ℕ, x.exponent = -n := ⟨(-x.exponent).toNat, by omega⟩
    have hten : (10 : ℚ) ^ n = 2 ^ n * 5 ^ n := by rw [← mul_pow]; norm_num
    simp only [hn, neg_neg, Int.toNat_natCast, Nat.pow_eq, Nat.cast_mul, Nat.cast_pow,
      Nat.cast_ofNat, zpow_neg, zpow_natCast, hten]
    field_simp

theorem value_exact_quarters (x : Magnitude) :
    x.exact.value = (4 * x.mantissa : ℕ) * 2 ^ (x.exponent - 2) := by
  have hstep : (2 : ℚ) ^ x.exponent = 4 * 2 ^ (x.exponent - 2) := by
    rw [zpow_sub₀ (by norm_num)]
    norm_num
    ring
  rw [value_exact, hstep]
  push_cast
  ring

theorem rounds_exact (x : Magnitude) : x.Rounds x.exact.value := by
  have hupper : x.exact.value < x.upperEnd := by
    rw [value_exact_quarters]
    exact quarters_lt.2 (by unfold upper; omega)
  unfold Rounds
  split_ifs with heven
  · refine ⟨?_, le_of_lt hupper⟩
    rw [value_exact_quarters, ← not_lt]
    exact fun h => absurd (quarters_lt.1 h) (by unfold lower; omega)
  · -- an odd mantissa is not zero, so the interval begins below the number
    refine ⟨?_, hupper⟩
    rw [value_exact_quarters]
    refine quarters_lt.2 ?_
    unfold lower
    split <;> omega

theorem rounds_of_nearest? {drop : ℕ} (h : x.nearest? drop = some d) : x.Rounds d.value := by
  rw [← readsBack_iff]
  simp only [nearest?] at h
  split_ifs at h with hbelow hboth habove
  · cases h
    exact hboth.1
  · cases h
    exact hbelow
  · cases h
    exact habove

theorem rounds_search (x : Magnitude) (drop : ℕ) : x.Rounds (x.search drop).value := by
  induction drop with
  | zero => exact x.rounds_exact
  | succ drop ih =>
    unfold search
    cases h : x.nearest? (drop + 1) with
    | none => exact ih
    | some d => exact rounds_of_nearest? h

/-- The shortest decimal reads back. -/
theorem rounds_shortest (x : Magnitude) : x.Rounds x.shortest.value := by
  rw [shortest, value_trim]
  exact x.rounds_search _

end Magnitude

/-! ### The magnitudes of a format -/

namespace Format

variable {F : Format} {b f c c' : ℕ}

/-- The magnitude with the fields that a bit pattern without its sign has. -/
def ofCode (F : Format) (c : ℕ) : Magnitude :=
  F.magnitude (c / 2 ^ F.fractionBits) (c % 2 ^ F.fractionBits)

/-- Within an exponent, an interval ends where that of the next fraction begins. -/
theorem upperEnd_magnitude (F : Format) (b f : ℕ) :
    (F.magnitude b f).upperEnd = (F.magnitude b (f + 1)).lowerEnd := by
  have hends : (F.magnitude b f).upper = (F.magnitude b (f + 1)).lower := by
    have hnarrow : (F.magnitude b (f + 1)).narrowBelow = false := rfl
    rw [Magnitude.upper, Magnitude.lower, hnarrow]
    simp only [magnitude]
    split <;> simp <;> omega
  rw [Magnitude.upperEnd, Magnitude.lowerEnd, hends]
  rfl

/-- The interval of the last fraction ends where the first one of the next exponent begins. -/
theorem upperEnd_magnitude_last (F : Format) (b : ℕ) :
    (F.magnitude b (2 ^ F.fractionBits - 1)).upperEnd = (F.magnitude (b + 1) 0).lowerEnd := by
  have hpos : 0 < 2 ^ F.fractionBits := Nat.two_pow_pos _
  by_cases hb : b = 0
  · -- the step of the smallest numbers is that of the next ones
    have hupper : (F.magnitude b (2 ^ F.fractionBits - 1)).upper =
        4 * (2 ^ F.fractionBits - 1) + 2 := by simp [Magnitude.upper, magnitude, hb]
    have hlower : (F.magnitude (b + 1) 0).lower = 4 * 2 ^ F.fractionBits - 2 := by
      simp [Magnitude.lower, magnitude, hb]
    have hends : (F.magnitude b (2 ^ F.fractionBits - 1)).upper =
        (F.magnitude (b + 1) 0).lower := by omega
    rw [Magnitude.upperEnd, Magnitude.lowerEnd, hends, hb]
    rfl
  · -- the step is doubled, and the interval below the power of two is that of the smaller step
    have hupper : (F.magnitude b (2 ^ F.fractionBits - 1)).upper =
        4 * (2 ^ F.fractionBits - 1 + 2 ^ F.fractionBits) + 2 := by
      simp [Magnitude.upper, magnitude, hb]
    have hlower : (F.magnitude (b + 1) 0).lower = 4 * 2 ^ F.fractionBits - 1 := by
      simp [Magnitude.lower, magnitude, Nat.pos_of_ne_zero hb]
    have hends : (F.magnitude b (2 ^ F.fractionBits - 1)).upper =
        2 * (F.magnitude (b + 1) 0).lower := by omega
    have hstep : (F.magnitude (b + 1) 0).exponent - 2 =
        ((F.magnitude b (2 ^ F.fractionBits - 1)).exponent - 2) + 1 := by
      simp only [magnitude]
      omega
    rw [Magnitude.upperEnd, Magnitude.lowerEnd, hends, hstep, zpow_add₀ (by norm_num)]
    push_cast
    ring

/-- An interval ends where the next one begins. -/
theorem upperEnd_ofCode (F : Format) (c : ℕ) :
    (F.ofCode c).upperEnd = (F.ofCode (c + 1)).lowerEnd := by
  have hpos : 0 < 2 ^ F.fractionBits := Nat.two_pow_pos _
  have hlt : c % 2 ^ F.fractionBits < 2 ^ F.fractionBits := Nat.mod_lt _ hpos
  have hsum : c + 1 = 2 ^ F.fractionBits * (c / 2 ^ F.fractionBits) +
      (c % 2 ^ F.fractionBits + 1) := by
    rw [← Nat.add_assoc, Nat.div_add_mod]
  by_cases hlast : c % 2 ^ F.fractionBits + 1 = 2 ^ F.fractionBits
  · have hnext : c + 1 = 2 ^ F.fractionBits * (c / 2 ^ F.fractionBits + 1) := by
      rw [hsum, hlast, Nat.mul_succ]
    have hfraction : c % 2 ^ F.fractionBits = 2 ^ F.fractionBits - 1 := by omega
    rw [ofCode, ofCode, hnext, Nat.mul_div_cancel_left _ hpos, Nat.mul_mod_right, hfraction,
      upperEnd_magnitude_last]
  · have hfraction : c % 2 ^ F.fractionBits + 1 < 2 ^ F.fractionBits := by omega
    rw [ofCode, ofCode, hsum, Nat.mul_add_div hpos, Nat.mul_add_mod, Nat.div_eq_of_lt hfraction,
      Nat.mod_eq_of_lt hfraction, Nat.add_zero, upperEnd_magnitude]

theorem upperEnd_le_lowerEnd (h : c < c') : (F.ofCode c).upperEnd ≤ (F.ofCode c').lowerEnd := by
  induction c', h using Nat.le_induction with
  | base => exact le_of_eq (F.upperEnd_ofCode c)
  | succ c' _ ih =>
    rw [← upperEnd_ofCode]
    exact ih.trans (le_of_lt (Magnitude.lowerEnd_lt_upperEnd _))

/-- The mantissa has the parity of the pattern. -/
theorem mantissa_ofCode_mod (hF : 0 < F.fractionBits) (c : ℕ) :
    (F.ofCode c).mantissa % 2 = c % 2 := by
  have hdvd : 2 ∣ 2 ^ F.fractionBits := dvd_pow_self 2 (Nat.ne_of_gt hF)
  have hfraction : c % 2 ^ F.fractionBits % 2 = c % 2 := Nat.mod_mod_of_dvd c hdvd
  have hpower : 2 ^ F.fractionBits % 2 = 0 := Nat.mod_eq_zero_of_dvd hdvd
  simp only [ofCode, magnitude, Nat.pow_eq]
  split <;> omega

/-- No number rounds to two magnitudes of a format. -/
theorem code_eq_of_rounds (hF : 0 < F.fractionBits) {q : ℚ} (h : (F.ofCode c).Rounds q)
    (h' : (F.ofCode c').Rounds q) : c = c' := by
  wlog hlt : c < c' generalizing c c'
  · rcases Nat.lt_or_eq_of_le (Nat.le_of_not_lt hlt) with hlt | heq
    · exact (this h' h hlt).symm
    · exact heq.symm
  -- the number is where the first interval ends and the second begins
  have hends := upperEnd_le_lowerEnd (F := F) hlt
  have hupper : q = (F.ofCode c).upperEnd :=
    le_antisymm h.le_upperEnd (hends.trans h'.lowerEnd_le)
  have hlower : q = (F.ofCode c').lowerEnd :=
    le_antisymm (h.le_upperEnd.trans hends) h'.lowerEnd_le
  have hnext : c' = c + 1 := by
    by_contra hne
    have hbetween := upperEnd_le_lowerEnd (F := F) (show c + 1 < c' by omega)
    have hshort := (F.ofCode (c + 1)).lowerEnd_lt_upperEnd
    rw [← upperEnd_ofCode] at hshort
    linarith
  -- but one of the two mantissas is odd, and its interval is without its ends
  have hparity := mantissa_ofCode_mod hF c
  have hparity' := mantissa_ofCode_mod hF c'
  unfold Magnitude.Rounds at h h'
  split at h
  · rw [if_neg (by omega)] at h'
    linarith [h'.1]
  · linarith [h.2]

/-! ### Bit patterns -/

/-- A bit pattern without its sign. -/
def code (F : Format) (bits : ℕ) : ℕ := bits % (2 ^ F.fractionBits * 2 ^ F.exponentBits)

variable {bits bits' : ℕ}

theorem biased_eq (F : Format) (bits : ℕ) : F.biased bits = F.code bits / 2 ^ F.fractionBits := by
  rw [code, Nat.mod_mul_right_div_self]
  rfl

theorem fraction_eq (F : Format) (bits : ℕ) :
    F.fraction bits = F.code bits % 2 ^ F.fractionBits := by
  rw [code, Nat.mod_mul_right_mod]
  rfl

theorem eq_of_code (h : bits < 2 ^ F.fractionBits * 2 ^ F.exponentBits * 2)
    (h' : bits' < 2 ^ F.fractionBits * 2 ^ F.exponentBits * 2)
    (hsign : F.negative bits = F.negative bits') (hcode : F.code bits = F.code bits') :
    bits = bits' := by
  have hquotient : bits / (2 ^ F.fractionBits * 2 ^ F.exponentBits) =
      bits' / (2 ^ F.fractionBits * 2 ^ F.exponentBits) := by
    have hlt := Nat.div_lt_of_lt_mul h
    have hlt' := Nat.div_lt_of_lt_mul h'
    simp only [negative, Nat.pow_eq, Nat.pow_add, Nat.mod_eq_of_lt hlt, Nat.mod_eq_of_lt hlt']
      at hsign
    generalize bits / (2 ^ F.fractionBits * 2 ^ F.exponentBits) = n at *
    generalize bits' / (2 ^ F.fractionBits * 2 ^ F.exponentBits) = n' at *
    rw [Bool.eq_iff_iff, beq_iff_eq, beq_iff_eq] at hsign
    omega
  calc bits
      = 2 ^ F.fractionBits * 2 ^ F.exponentBits *
          (bits / (2 ^ F.fractionBits * 2 ^ F.exponentBits)) + F.code bits :=
        (Nat.div_add_mod _ _).symm
    _ = 2 ^ F.fractionBits * 2 ^ F.exponentBits *
          (bits' / (2 ^ F.fractionBits * 2 ^ F.exponentBits)) + F.code bits' := by
        rw [hquotient, hcode]
    _ = bits' := Nat.div_add_mod _ _

theorem read_eq_finite {negative : Bool} {x : Magnitude}
    (h : F.read bits = .finite negative x) :
    negative = F.negative bits ∧ x = F.ofCode (F.code bits) := by
  unfold read at h
  split_ifs at h
  cases h
  rw [biased_eq, fraction_eq]
  exact ⟨rfl, rfl⟩

theorem read_eq_infinite {negative : Bool} (h : F.read bits = .infinite negative) :
    negative = F.negative bits ∧
      F.code bits = 2 ^ F.fractionBits * (2 ^ F.exponentBits - 1) := by
  unfold read at h
  split_ifs at h with hbiased hfraction
  cases h
  refine ⟨rfl, ?_⟩
  rw [biased_eq] at hbiased
  rw [fraction_eq] at hfraction
  rw [← Nat.div_add_mod (F.code bits) (2 ^ F.fractionBits), hbiased, hfraction]
  rfl

end Format

end ShaderFlow.Decimal
