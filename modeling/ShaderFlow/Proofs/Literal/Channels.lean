import ShaderFlow.Proofs.Decimal.Reading
import ShaderFlow.Proofs.Text.Tokens

/-!
# What the text of a channel tells

A channel can be read off its text. Its kind shows in the characters (`Literal.shownKind`): every
kind is written with characters of its own, and has some that the others lack. Within a kind, the
text gives the value back. For the real kinds this rests on the shortest decimal: it reads back, and
what reads back as one number reads back as no other. Only patterns that are not numbers have one
text for all of them (`Decimal.Format.Alike`). So lists of channels of one kind have the same texts
exactly if they agree (`Channels.texts_eq_iff`).
-/

namespace ShaderFlow

/-- Two bit patterns are the same, or neither of them is a number. -/
def Decimal.Format.Alike (F : Decimal.Format) (a b : ℕ) : Prop :=
  a = b ∨ F.read a = .notANumber ∧ F.read b = .notANumber

namespace Literal

variable {F : Decimal.Format} {huge mark s t : String} {negative negative' : Bool}
  {bits bits' : ℕ}

/-! ### Signs -/

theorem forall_mem_signed {P : Char → Prop} (hopen : P '(') (hminus : P '-') (hclose : P ')')
    (h : ∀ c ∈ s.toList, P c) (negative : Bool) : ∀ c ∈ (signed negative s).toList, P c := by
  unfold signed
  split
  · simp only [String.toList_append]
    refine List.forall_mem_append.2 ⟨List.forall_mem_append.2 ⟨?_, h⟩, ?_⟩
    · exact List.forall_mem_cons.2 ⟨hopen, List.forall_mem_singleton.2 hminus⟩
    · exact List.forall_mem_singleton.2 hclose
  · exact h

theorem not_mem_signed {c : Char} (hc : c ∉ ['(', '-', ')']) (h : c ∉ s.toList)
    (negative : Bool) : c ∉ (signed negative s).toList := by
  simp only [List.mem_cons, List.not_mem_nil, or_false, not_or] at hc
  have hne : ∀ c' ∈ s.toList, c' ≠ c := fun c' hc' heq => h (heq ▸ hc')
  intro hmem
  exact forall_mem_signed (P := (· ≠ c)) (Ne.symm hc.1) (Ne.symm hc.2.1) (Ne.symm hc.2.2) hne
    negative c hmem rfl

theorem mem_signed {c : Char} (h : c ∈ s.toList) (negative : Bool) :
    c ∈ (signed negative s).toList := by
  unfold signed
  split <;> simp [h]

/-- A text without a parenthesis and its sign can be told from each other. -/
theorem signed_inj (hs : '(' ∉ s.toList) (ht : '(' ∉ t.toList)
    (h : signed negative s = signed negative' t) : negative = negative' ∧ s = t := by
  have hopen : ∀ r, '(' ∈ (signed true r).toList := fun r => by simp [signed]
  cases negative <;> cases negative'
  · exact ⟨rfl, h⟩
  · exact absurd (h ▸ hopen t : '(' ∈ (signed false s).toList) hs
  · exact absurd (h ▸ hopen s : '(' ∈ (signed false t).toList) ht
  · have hlist := congrArg String.toList h
    exact ⟨rfl, String.toList_injective (by simpa [signed] using hlist)⟩

/-! ### Integers -/

theorem uint_inj {v w : UInt32} (h : uint v = uint w) : v = w := by
  have hlist := congrArg String.toList h
  simp only [uint, String.toList_append, List.append_cancel_right_eq, Nat.toList_repr] at hlist
  exact UInt32.toNat_inj.1 (toDigits_inj.1 hlist)

theorem int_inj {v w : Int32} (h : int v = int w) : v = w := by
  have hdigits : ∀ n : ℕ, '(' ∉ (Nat.repr n).toList := fun n hn =>
    absurd (isDigits_repr n '(' hn) (by decide)
  obtain ⟨hsign, habs⟩ := signed_inj (hdigits _) (hdigits _) h
  have hlist := congrArg String.toList habs
  rw [Nat.toList_repr, Nat.toList_repr, toDigits_inj] at hlist
  rw [decide_eq_decide] at hsign
  exact Int32.toInt_inj.1 (by omega)

/-! ### Reals -/

/-- A number beyond the range of a type has a plus sign, which no other number has, and the marker
of the type takes nothing from the signs that tell numbers apart. -/
structure Marks (huge mark : String) : Prop where
  /-- An exponent is in the number. -/
  exponent_mem : 'e' ∈ huge.toList
  /-- A plus sign is in the number. -/
  plus_mem : '+' ∈ huge.toList
  /-- Else it is written as all numbers are. -/
  huge : ∀ c ∈ huge.toList, isNumeral c = true ∨ c = '+'
  /-- The marker has none of these signs. -/
  mark : ∀ c ∈ mark.toList, c ∉ ['/', '+', '(']

theorem marks_single : Marks "4e+100" "" := ⟨by decide, by decide, by simp [isNumeral], by simp⟩

theorem marks_double : Marks "4e+400" "lf" := ⟨by decide, by decide, by simp [isNumeral], by simp⟩

/-- The text of a finite magnitude. -/
def finite (mark : String) (x : Decimal.Magnitude) : String := x.shortest.write realLayout ++ mark

theorem Marks.not_mem_finite (h : Marks huge mark) {c : Char} (hc : c ∈ ['/', '+', '('])
    (x : Decimal.Magnitude) : c ∉ (finite mark x).toList := by
  have hnumeral : ∀ c ∈ ['/', '+', '('], isNumeral c = false := by simp [isNumeral]
  rw [finite, String.toList_append, List.mem_append, not_or]
  refine ⟨fun hmem => ?_, fun hmem => h.mark c hmem hc⟩
  have hreal := (Decimal.isReal_write x.shortest realLayout).isNumeral c hmem
  rw [hnumeral c hc] at hreal
  cases hreal

theorem Marks.not_mem_huge (h : Marks huge mark) {c : Char} (hc : c ∈ ['/', '(']) :
    c ∉ (huge ++ mark).toList := by
  have hnumeral : ∀ c ∈ ['/', '('], isNumeral c = false ∧ c ≠ '+' ∧ c ∈ ['/', '+', '('] := by
    simp [isNumeral]
  obtain ⟨hnot, hplus, hc⟩ := hnumeral c hc
  rw [String.toList_append, List.mem_append, not_or]
  refine ⟨fun hmem => ?_, fun hmem => h.mark c hmem hc⟩
  rcases h.huge c hmem with hreal | hreal
  · rw [hnot] at hreal
    cases hreal
  · exact hplus hreal

/-- Magnitudes with the same text are the same. -/
theorem finite_inj (hF : 0 < F.fractionBits) {c c' : ℕ}
    (h : finite mark (F.ofCode c) = finite mark (F.ofCode c')) : c = c' := by
  have hlist := congrArg String.toList h
  simp only [finite, String.toList_append, List.append_cancel_right_eq] at hlist
  -- the decimals have the same value, and this value reads back as both magnitudes
  have hvalue : (F.ofCode c).shortest.value = (F.ofCode c').shortest.value := by
    rw [← Decimal.readText_write _ realLayout, hlist, Decimal.readText_write]
  have hrounds := (F.ofCode c').rounds_shortest
  rw [← hvalue] at hrounds
  exact Decimal.Format.code_eq_of_rounds hF (F.ofCode c).rounds_shortest hrounds

/-- A quotient is written for what is not a number, and only for that. -/
theorem Marks.slash_mem_real_iff (h : Marks huge mark) :
    '/' ∈ (real F huge mark bits).toList ↔ F.read bits = .notANumber := by
  cases hread : F.read bits with
  | notANumber => simp [real, hread]
  | infinite negative =>
    simp only [real, hread, reduceCtorEq, iff_false]
    exact not_mem_signed (by decide) (h.not_mem_huge (by decide)) negative
  | finite negative x =>
    simp only [real, hread, reduceCtorEq, iff_false]
    exact not_mem_signed (by decide) (h.not_mem_finite (by decide) x) negative

/-- A plus sign is written for infinities, and only for these. -/
theorem Marks.plus_mem_real_iff (h : Marks huge mark) :
    '+' ∈ (real F huge mark bits).toList ↔ ∃ negative, F.read bits = .infinite negative := by
  cases hread : F.read bits with
  | notANumber =>
    have hmark : '+' ∉ mark.toList := fun hmem => h.mark '+' hmem (by decide)
    simp [real, hread, hmark]
  | infinite negative =>
    refine iff_of_true ?_ ⟨negative, rfl⟩
    simp only [real, hread]
    exact mem_signed (by simp [h.plus_mem]) negative
  | finite negative x =>
    simp only [real, hread, reduceCtorEq, exists_false, iff_false]
    exact not_mem_signed (by decide) (h.not_mem_finite (by decide) x) negative

/-- The text of a real channel tells its bit pattern, up to those that are not numbers. -/
theorem real_eq_iff (hF : 0 < F.fractionBits) (hmarks : Marks huge mark)
    (hbits : bits < 2 ^ F.fractionBits * 2 ^ F.exponentBits * 2)
    (hbits' : bits' < 2 ^ F.fractionBits * 2 ^ F.exponentBits * 2) :
    real F huge mark bits = real F huge mark bits' ↔ F.Alike bits bits' := by
  constructor
  · intro h
    have hslash : F.read bits' = .notANumber ↔ F.read bits = .notANumber := by
      rw [← hmarks.slash_mem_real_iff, ← h, hmarks.slash_mem_real_iff]
    have hplus : (∃ negative, F.read bits' = .infinite negative) ↔
        ∃ negative, F.read bits = .infinite negative := by
      rw [← hmarks.plus_mem_real_iff, ← h, hmarks.plus_mem_real_iff]
    cases hread : F.read bits with
    | notANumber => exact .inr ⟨hread, hslash.2 hread⟩
    | infinite negative =>
      obtain ⟨negative', hread'⟩ := hplus.2 ⟨negative, hread⟩
      obtain ⟨rfl, hcode⟩ := Decimal.Format.read_eq_infinite hread
      obtain ⟨rfl, hcode'⟩ := Decimal.Format.read_eq_infinite hread'
      simp only [real, hread, hread'] at h
      have hopen := hmarks.not_mem_huge (c := '(') (by decide)
      obtain ⟨hsign, -⟩ := signed_inj hopen hopen h
      exact .inl (Decimal.Format.eq_of_code hbits hbits' hsign (hcode.trans hcode'.symm))
    | finite negative x =>
      cases hread' : F.read bits' with
      | notANumber => simp [hread, hread'] at hslash
      | infinite => simp [hread, hread'] at hplus
      | finite negative' x' =>
        obtain ⟨rfl, rfl⟩ := Decimal.Format.read_eq_finite hread
        obtain ⟨rfl, rfl⟩ := Decimal.Format.read_eq_finite hread'
        simp only [real, hread, hread'] at h
        have hopen := hmarks.not_mem_finite (c := '(') (by decide)
        obtain ⟨hsign, htext⟩ := signed_inj (hopen _) (hopen _) h
        exact .inl (Decimal.Format.eq_of_code hbits hbits' hsign (finite_inj hF htext))
  · rintro (rfl | ⟨hread, hread'⟩)
    · rfl
    · simp only [real, hread, hread']

theorem float_eq_iff {v w : UInt32} :
    float v = float w ↔ Decimal.Format.single.Alike v.toNat w.toNat :=
  real_eq_iff (by decide) marks_single v.toNat_lt w.toNat_lt

theorem double_eq_iff {v w : UInt64} :
    double v = double w ↔ Decimal.Format.double.Alike v.toNat w.toNat :=
  real_eq_iff (by decide) marks_double v.toNat_lt w.toNat_lt

/-! ### Kinds -/

/-- The characters that channels of a kind are written with. -/
def writes : Scalar → Char → Bool
  | .bool, c => c ∈ ['t', 'r', 'u', 'e', 'f', 'a', 'l', 's']
  | .int, c => c.isDigit || c ∈ ['(', '-', ')']
  | .uint, c => c.isDigit || c == 'u'
  | .float, c => isNumeral c || c ∈ ['(', ')', '/', '+']
  | .double, c => isNumeral c || c ∈ ['(', ')', '/', '+', 'l', 'f']

/-- The kind of channel that a text shows. -/
def shownKind (text : String) : Scalar :=
  -- the truth values have the letters of other kinds too, so they come first
  if 'r' ∈ text.toList ∨ 's' ∈ text.toList then .bool
  else if 'u' ∈ text.toList then .uint
  else if 'l' ∈ text.toList then .double
  else if '.' ∈ text.toList ∨ 'e' ∈ text.toList then .float
  else .int

/-- A text is of a kind: it has the characters of the kind only, and it shows the kind. -/
structure IsOf (k : Scalar) (text : String) : Prop where
  /-- No other characters are in the text. -/
  writes : ∀ c ∈ text.toList, writes k c = true
  /-- The kind can be told. -/
  shownKind_eq : shownKind text = k

theorem not_mem_of_writes {k : Scalar} (h : ∀ c ∈ t.toList, writes k c = true) (c : Char)
    (hc : writes k c = false) : c ∉ t.toList := by
  intro hmem
  rw [h c hmem] at hc
  cases hc

theorem isOf_bool (b : Bool) : IsOf .bool (if b then "true" else "false") := by
  cases b <;> exact ⟨by simp [writes], by decide⟩

theorem isOf_int (v : Int32) : IsOf .int (int v) := by
  have hwrites : ∀ c ∈ (int v).toList, writes .int c = true := by
    refine forall_mem_signed (by decide) (by decide) (by decide) (fun c hc => ?_) _
    simp [writes, isDigits_repr v.toInt.natAbs c hc]
  have hnot := not_mem_of_writes hwrites
  refine ⟨hwrites, ?_⟩
  simp [shownKind, hnot 'r' rfl, hnot 's' rfl, hnot 'u' rfl, hnot 'l' rfl, hnot '.' rfl,
    hnot 'e' rfl]

theorem isOf_uint (v : UInt32) : IsOf .uint (uint v) := by
  have hwrites : ∀ c ∈ (uint v).toList, writes .uint c = true := by
    rw [uint, String.toList_append]
    refine List.forall_mem_append.2 ⟨fun c hc => ?_, by simp [writes]⟩
    simp [writes, isDigits_repr v.toNat c hc]
  have hmem : 'u' ∈ (uint v).toList := by simp [uint]
  have hnot := not_mem_of_writes hwrites
  exact ⟨hwrites, by simp [shownKind, hmem, hnot 'r' rfl, hnot 's' rfl]⟩

/-- A real channel is written with numbers, signs and the marker. -/
theorem forall_mem_real {P : Char → Prop} (hmarks : Marks huge mark)
    (hnumeral : ∀ c, isNumeral c = true → P c) (hsigns : ∀ c ∈ ['(', ')', '/', '+'], P c)
    (hmark : ∀ c ∈ mark.toList, P c) : ∀ c ∈ (real F huge mark bits).toList, P c := by
  have hsigned : ∀ {text : String} (negative : Bool), (∀ c ∈ text.toList, P c) →
      ∀ c ∈ (signed negative (text ++ mark)).toList, P c := by
    intro text negative htext
    refine forall_mem_signed (hsigns _ (by decide)) (hnumeral _ rfl) (hsigns _ (by decide)) ?_
      negative
    rw [String.toList_append]
    exact List.forall_mem_append.2 ⟨htext, hmark⟩
  have hquotient : ∀ text : List Char,
      (∀ c ∈ text, isNumeral c = true ∨ c ∈ ['(', ')', '/', '+']) → ∀ c ∈ text, P c :=
    fun text h c hc => (h c hc).elim (hnumeral c) (hsigns c)
  unfold real
  split
  · simp only [String.toList_append, List.forall_mem_append]
    exact ⟨⟨⟨⟨hquotient _ (by simp [isNumeral]), hmark⟩, hquotient _ (by simp [isNumeral])⟩,
      hmark⟩, hquotient _ (by simp [isNumeral])⟩
  · refine hsigned _ fun c hc => ?_
    rcases hmarks.huge c hc with hc | rfl
    · exact hnumeral c hc
    · exact hsigns '+' (by decide)
  · exact hsigned _ fun c hc => hnumeral c ((Decimal.isReal_write _ _).isNumeral c hc)

theorem Marks.point_or_exponent_mem_real (h : Marks huge mark) :
    '.' ∈ (real F huge mark bits).toList ∨ 'e' ∈ (real F huge mark bits).toList := by
  unfold real
  split
  · exact .inl (by simp)
  · exact .inr (mem_signed (by simp [h.exponent_mem]) _)
  next x _ =>
    have hreal : ∀ {text : List Char}, IsReal text → '.' ∈ text ∨ 'e' ∈ text := by
      rintro text (_ | _) <;> simp
    refine (hreal (Decimal.isReal_write x.shortest realLayout)).imp ?_ ?_ <;>
    · intro hmem
      exact mem_signed (by simp [hmem]) _

theorem mem_real_of_mem_mark {c : Char} (hc : c ∈ mark.toList) :
    c ∈ (real F huge mark bits).toList := by
  unfold real
  split
  · simp [hc]
  · exact mem_signed (by simp [hc]) _
  · exact mem_signed (by simp [hc]) _

theorem isOf_float (v : UInt32) : IsOf .float (float v) := by
  have hwrites : ∀ c ∈ (float v).toList, writes .float c = true :=
    forall_mem_real marks_single (fun c hc => by simp [writes, hc]) (by simp [writes])
      (by simp [writes])
  have hmem : '.' ∈ (float v).toList ∨ 'e' ∈ (float v).toList :=
    marks_single.point_or_exponent_mem_real
  have hnot := not_mem_of_writes hwrites
  refine ⟨hwrites, ?_⟩
  simp only [shownKind, hnot 'r' rfl, hnot 's' rfl, hnot 'u' rfl, hnot 'l' rfl, or_self,
    if_false, if_pos hmem]

theorem isOf_double (v : UInt64) : IsOf .double (double v) := by
  have hwrites : ∀ c ∈ (double v).toList, writes .double c = true :=
    forall_mem_real marks_double (fun c hc => by simp [writes, hc]) (by simp [writes])
      (by simp [writes])
  have hmem : 'l' ∈ (double v).toList := mem_real_of_mem_mark (by decide)
  have hnot := not_mem_of_writes hwrites
  refine ⟨hwrites, ?_⟩
  simp [shownKind, hmem, hnot 'r' rfl, hnot 's' rfl, hnot 'u' rfl]

end Literal

/-! ### Lists of channels -/

theorem map_eq_map_iff_forall₂ {α β : Type} {f : α → β} {R : α → α → Prop}
    (h : ∀ {a b}, f a = f b ↔ R a b) {as bs : List α} :
    as.map f = bs.map f ↔ List.Forall₂ R as bs := by
  rw [← List.forall₂_eq_eq_eq, List.forall₂_map_left_iff, List.forall₂_map_right_iff]
  simp only [h]

namespace Channels

/-- The same channels, up to what patterns that are not numbers carry. -/
inductive Agree : Channels → Channels → Prop
  | bools (values : List Bool) : Agree (.bools values) (.bools values)
  | ints (values : List Int32) : Agree (.ints values) (.ints values)
  | uints (values : List UInt32) : Agree (.uints values) (.uints values)
  | floats {values values' : List UInt32}
      (h : List.Forall₂ (fun v w => Decimal.Format.single.Alike v.toNat w.toNat) values values') :
      Agree (.floats values) (.floats values')
  | doubles {values values' : List UInt64}
      (h : List.Forall₂ (fun v w => Decimal.Format.double.Alike v.toNat w.toNat) values values') :
      Agree (.doubles values) (.doubles values')

theorem isOf_texts (c : Channels) : ∀ t ∈ c.texts, Literal.IsOf c.scalar t := by
  cases c with
  | bools => exact List.forall_mem_map.2 fun b _ => Literal.isOf_bool b
  | ints => exact List.forall_mem_map.2 fun v _ => Literal.isOf_int v
  | uints => exact List.forall_mem_map.2 fun v _ => Literal.isOf_uint v
  | floats => exact List.forall_mem_map.2 fun v _ => Literal.isOf_float v
  | doubles => exact List.forall_mem_map.2 fun v _ => Literal.isOf_double v

/-- Channels of one kind are written the same exactly if they agree. -/
theorem texts_eq_iff {c c' : Channels} (hscalar : c.scalar = c'.scalar) :
    c.texts = c'.texts ↔ c.Agree c' := by
  constructor
  · intro h
    cases c <;> cases c' <;> cases hscalar
    case bools.bools.refl values values' =>
      obtain rfl : values = values' := List.map_injective_iff.2 (by decide) h
      exact .bools values
    case ints.ints.refl values values' =>
      obtain rfl : values = values' := List.map_injective_iff.2 (fun _ _ => Literal.int_inj) h
      exact .ints values
    case uints.uints.refl values values' =>
      obtain rfl : values = values' := List.map_injective_iff.2 (fun _ _ => Literal.uint_inj) h
      exact .uints values
    case floats.floats.refl => exact .floats ((map_eq_map_iff_forall₂ Literal.float_eq_iff).1 h)
    case doubles.doubles.refl =>
      exact .doubles ((map_eq_map_iff_forall₂ Literal.double_eq_iff).1 h)
  · rintro (_ | _ | _ | h | h)
    · rfl
    · rfl
    · rfl
    · exact (map_eq_map_iff_forall₂ Literal.float_eq_iff).2 h
    · exact (map_eq_map_iff_forall₂ Literal.double_eq_iff).2 h

end Channels

end ShaderFlow
