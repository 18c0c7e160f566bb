import ShaderFlow.Proofs.Function.Run
import ShaderFlow.Proofs.Text.Ascii
import ShaderFlow.Proofs.Text.Numerals
import ShaderFlow.Proofs.Text.Reading
import ShaderFlow.Proofs.Text.Tokens

/-!
# Selections and integers

A component is selected by a point and a letter, but after an integer the point belongs to the
number: `5.x` is the real number `5.` and a stray letter. `Alphabet.SelectsFromInteger` says that a
text has such a place.

The reader `selection` gets stuck at the letter of such a place, so a text that it comes through has
none (`not_selectsFromInteger`). It keeps the last run of characters in mind as far as that matters
(`Scan`). Only an integer that stands alone leaves it with a number that a point could still join
(`Literal.reads_text`), and a function leaves it so only if it passes on such an argument
(`Function.readsExpr_template`).
-/

namespace ShaderFlow

/-- A maximal run of identifier characters consists of digits, is no fraction and no exponent, and a
point and a letter come right after it. -/
def Alphabet.SelectsFromInteger (A : Alphabet) (text : List Char) : Prop :=
  ∃ before digits letter after, text = before ++ (digits ++ '.' :: letter :: after) ∧
    digits ≠ [] ∧ IsDigits digits ∧ A.letter letter = true ∧
    ∀ c ∈ before.getLast?, A.isIdent c = false ∧ c ≠ '.' ∧ c ≠ '+' ∧ c ≠ '-'

/-! ### The reader -/

/-- What the end of a text is. -/
inductive Scan where
  /-- Nothing that goes on. -/
  | fresh
  /-- A run of digits that may be an integer. -/
  | number
  /-- A point after such a run. -/
  | point
  /-- Any other run of identifier characters. -/
  | word
  /-- A sign, or a point that is not after an integer. -/
  | mark
  deriving DecidableEq, Repr

namespace Scan

/-- A point after the text is not taken for that of a number. -/
def isSolid : Scan → Bool
  | number | point => false
  | fresh | word | mark => true

/-- The text ends in the middle of something that is not an integer. -/
def isTrailing : Scan → Bool
  | word | mark => true
  | fresh | number | point => false

theorem isSolid_of_isTrailing {q : Scan} (h : q.isTrailing = true) : q.isSolid = true := by
  cases q with
  | word | mark => rfl
  | fresh | number | point => cases h

end Scan

/-- Looks for a letter that comes after an integer and a point, and gets stuck there. -/
def selection (A : Alphabet) : Reader Scan where
  step q c :=
    if c.isDigit then some (if q = .fresh ∨ q = .number then .number else .word)
    else if A.isIdent c then (if q = .point ∧ A.letter c = true then none else some .word)
    else if c = '.' then some (if q = .number then .point else .mark)
    else if c = '+' ∨ c = '-' then some .mark
    else some .fresh

variable {A : Alphabet} {q q' : Scan} {s t : List Char}

theorem not_isAlpha_of_isDigit {c : Char} (h : c.isDigit = true) : c.isAlpha = false := by
  have hle : c.toNat ≤ 57 :=
    UInt32.le_iff_toNat_le.1 (of_decide_eq_true (Bool.and_eq_true_iff.1 h).2)
  have hlt : ∀ letter : Char, 57 < letter.toNat → ¬ letter.val ≤ c.val := by
    intro letter hletter hc
    have hc' : letter.toNat ≤ c.toNat := UInt32.le_iff_toNat_le.1 hc
    omega
  have hupper : c.isUpper = false := decide_eq_false fun hc => hlt 'A' (by decide) hc.1
  have hlower : c.isLower = false :=
    Bool.and_eq_false_iff.2 (Or.inl (decide_eq_false (hlt 'a' (by decide))))
  exact Bool.or_eq_false_iff.2 ⟨hupper, hlower⟩

theorem selection_step_digit {c : Char} (hc : c.isDigit = true) :
    (selection A).step q c =
      some (if q = .fresh ∨ q = .number then .number else .word) := by
  simp [selection, hc]

theorem selection_step_break {c : Char} (hc : A.isIdent c = false) (hpoint : c ≠ '.')
    (hplus : c ≠ '+') (hminus : c ≠ '-') : (selection A).step q c = some .fresh := by
  have hdigit : c.isDigit = false := by
    simp only [Alphabet.isIdent, Bool.or_eq_false_iff] at hc
    exact hc.1.2
  simp [selection, hc, hdigit, hpoint, hplus, hminus]

theorem selection_reads_digits (hs : IsDigits s) :
    ∃ q, (q = .fresh ∧ s = [] ∨ q = .number) ∧ (selection A).Reads .fresh s q := by
  cases s with
  | nil => exact ⟨.fresh, Or.inl ⟨rfl, rfl⟩, Reader.reads_nil⟩
  | cons c s =>
    obtain ⟨hc, hs⟩ := List.forall_mem_cons.1 hs
    obtain ⟨q, rfl, hreads⟩ := Reader.reads_of_forall (R := selection A) (P := (· = Scan.number))
      rfl fun c hc q hq => ⟨.number, by simp [selection_step_digit (hs c hc), hq], rfl⟩
    exact ⟨.number, Or.inr rfl,
      Reader.reads_cons.2 ⟨.number, by simp [selection_step_digit hc], hreads⟩⟩

/-- The letter after an integer and a point is where the reader gets stuck. -/
theorem selection_step_letter {c : Char} (hc : A.letter c = true) :
    (selection A).step .point c = none := by
  have hdigit : c.isDigit = false := by
    by_contra h
    have hdigit : c.isDigit = true := by simpa using h
    rw [A.letter_eq c (isAscii_of_isDigit hdigit)] at hc
    exact absurd hc (by simp [not_isAlpha_of_isDigit hdigit])
  simp [selection, Alphabet.isIdent, hdigit, hc]

/-- The reader does not come through a text that selects from an integer. -/
theorem not_selectsFromInteger (h : (selection A).Reads .fresh s q) :
    ¬ A.SelectsFromInteger s := by
  rintro ⟨before, digits, letter, after, rfl, hne, hdigits, hletter, hbefore⟩
  obtain ⟨q₁, hq₁, h⟩ := Reader.reads_append.1 h
  -- the run begins after nothing, or after a character that leaves nothing
  have hfresh : q₁ = .fresh := by
    rcases List.eq_nil_or_concat' before with rfl | ⟨front, c, rfl⟩
    · exact (Option.some.inj hq₁).symm
    · obtain ⟨hc, hpoint, hplus, hminus⟩ := hbefore c (by simp)
      obtain ⟨q₀, -, hlast⟩ := Reader.reads_append.1 hq₁
      obtain ⟨q₂, hstep, hnil⟩ := Reader.reads_cons.1 hlast
      rw [selection_step_break hc hpoint hplus hminus] at hstep
      cases hstep
      exact (Option.some.inj hnil).symm
  subst hfresh
  obtain ⟨q₂, hq₂, h⟩ := Reader.reads_append.1 h
  have hnumber : q₂ = .number := by
    obtain ⟨q₃, hq₃, hreads⟩ := selection_reads_digits (A := A) hdigits
    cases Option.some.inj (hreads.symm.trans hq₂)
    simpa [hne] using hq₃
  subst hnumber
  obtain ⟨q₃, hpoint, h⟩ := Reader.reads_cons.1 h
  obtain ⟨q₄, hstuck, -⟩ := Reader.reads_cons.1 h
  have hdot : A.isIdent '.' = false := Alphabet.isIdent_of_isMark rfl
  have hstep : (selection A).step .number '.' = some .point := by simp [selection, hdot]
  rw [hstep] at hpoint
  cases hpoint
  rw [selection_step_letter hletter] at hstuck
  cases hstuck

/-! ### Texts -/

theorem selection_step_ascii {c : Char} (hc : c.toNat < 128) :
    (selection A).step q c = (selection .ascii).step q c := by
  have hletter : A.letter c = Alphabet.ascii.letter c := A.letter_eq c hc
  have hident : A.isIdent c = Alphabet.ascii.isIdent c := by simp only [Alphabet.isIdent, hletter]
  simp only [selection, hletter, hident]

/-- A text of the first 128 characters is read in the same way with any alphabet. -/
theorem selection_read_ascii (hs : IsAscii s) :
    (selection A).read q s = (selection .ascii).read q s := by
  induction s generalizing q with
  | nil => rfl
  | cons c s ih =>
    obtain ⟨hc, hs⟩ := List.forall_mem_cons.1 hs
    simp only [Reader.read, List.foldlM_cons, selection_step_ascii hc]
    exact Option.bind_congr fun q' _ => ih hs

theorem selection_reads_ascii (hs : IsAscii s) (h : (selection .ascii).Reads q s q') :
    (selection A).Reads q s q' :=
  (selection_read_ascii hs).trans h

theorem selection_readsExpr_ascii {hole : Nat → Scan → Option Scan} {e : Expr}
    (he : ∀ s ∈ e.texts, IsAscii s.toList) (h : (selection .ascii).ReadsExpr hole q e q') :
    (selection A).ReadsExpr hole q e q' := by
  obtain ⟨atoms⟩ := e
  unfold Reader.ReadsExpr Expr.texts at *
  induction atoms generalizing q with
  | nil => exact h
  | cons a atoms ih =>
    rw [List.foldlM_cons] at h ⊢
    obtain ⟨q₁, ha, h⟩ := Option.bind_eq_some_iff.1 h
    refine Option.bind_eq_some_iff.2 ⟨q₁, ?_, ih (fun s hs => he s ?_) h⟩
    · cases a with
      | text s => exact selection_reads_ascii (he s (by simp [Atom.text?])) ha
      | temporary i => exact ha
    · obtain ⟨x, hx, hs⟩ := List.mem_filterMap.1 hs
      exact List.mem_filterMap.2 ⟨x, List.mem_cons_of_mem _ hx, hs⟩

/-- A plain identifier. -/
def Alphabet.IsName (A : Alphabet) : List Char → Prop
  | [] => False
  | c :: rest => A.isIdent c = true ∧ c.isDigit = false ∧ rest.all A.isIdent = true

instance : (text : List Char) → Decidable (A.IsName text)
  | [] => isFalse id
  | c :: rest => inferInstanceAs
      (Decidable (A.isIdent c = true ∧ c.isDigit = false ∧ rest.all A.isIdent = true))

/-- A character that may stand in the middle of a name or a number. -/
def Alphabet.isTrailing (A : Alphabet) (c : Char) : Bool :=
  A.isIdent c || c == '.' || c == '+' || c == '-'

theorem selection_step_ident {c : Char} (hc : A.isIdent c = true) (hq : q.isTrailing = true) :
    (selection A).step q c = some .word := by
  cases q <;> simp_all [selection, Scan.isTrailing]

theorem selection_step_point (hq : q.isSolid = true) : (selection A).step q '.' = some .mark := by
  have hdot : A.isIdent '.' = false := Alphabet.isIdent_of_isMark rfl
  cases q <;> simp_all [selection, Scan.isSolid]

theorem selection_step_sign {c : Char} (hc : c = '+' ∨ c = '-') :
    (selection A).step q c = some .mark := by
  rcases hc with rfl | rfl
  · simp [selection, Alphabet.isIdent_of_isMark (A := A) (c := '+') rfl]
  · simp [selection, Alphabet.isIdent_of_isMark (A := A) (c := '-') rfl]

/-- In the middle of a name or a number, nothing begins an integer. -/
theorem selection_reads_trailing (hs : ∀ c ∈ s, A.isTrailing c = true) (hq : q.isTrailing = true) :
    ∃ q', q'.isTrailing = true ∧ (selection A).Reads q s q' := by
  refine Reader.reads_of_forall hq fun c hc q hq => ?_
  have hc := hs c hc
  simp only [Alphabet.isTrailing, Bool.or_eq_true, beq_iff_eq] at hc
  rcases hc with ((hc | rfl) | hc) | hc
  · exact ⟨.word, selection_step_ident hc hq, rfl⟩
  · exact ⟨.mark, selection_step_point (Scan.isSolid_of_isTrailing hq), rfl⟩
  · exact ⟨.mark, selection_step_sign (Or.inl hc), rfl⟩
  · exact ⟨.mark, selection_step_sign (Or.inr hc), rfl⟩

/-- A name is a word, unless it comes right after an integer and a point. -/
theorem Alphabet.IsName.reads (h : A.IsName s) (hq : q ≠ .point) :
    (selection A).Reads q s .word := by
  cases s with
  | nil => cases h
  | cons c rest =>
    obtain ⟨hc, hdigit, hrest⟩ := h
    rw [List.all_eq_true] at hrest
    obtain ⟨q', rfl, hreads⟩ := Reader.reads_of_forall (R := selection A) (P := (· = Scan.word))
      rfl fun c hc q hq => ⟨.word, selection_step_ident (hrest c hc) (by rw [hq]; rfl), rfl⟩
    exact Reader.reads_cons.2 ⟨.word, by simp [selection, hc, hdigit, hq], hreads⟩

theorem Alphabet.IsName.append (h : A.IsName s) (ht : ∀ c ∈ t, A.isIdent c = true) :
    A.IsName (s ++ t) := by
  cases s with
  | nil => cases h
  | cons c rest =>
    obtain ⟨hc, hdigit, hrest⟩ := h
    rw [List.all_eq_true] at hrest
    exact ⟨hc, hdigit, List.all_eq_true.2 (List.forall_mem_append.2 ⟨hrest, ht⟩)⟩

/-- A selection of components after what is not an integer. -/
theorem selection_reads_components (hs : ∀ c ∈ s, A.isIdent c = true) (hq : q.isSolid = true) :
    ∃ q', q'.isSolid = true ∧ (selection A).Reads q ('.' :: s) q' := by
  have htrailing : ∀ c ∈ s, A.isTrailing c = true := fun c hc => by
    simp [Alphabet.isTrailing, hs c hc]
  obtain ⟨q', hq', hreads⟩ := selection_reads_trailing (q := .mark) htrailing rfl
  exact ⟨q', Scan.isSolid_of_isTrailing hq',
    Reader.reads_cons.2 ⟨.mark, selection_step_point hq, hreads⟩⟩

/-- A character that is no part of names and numbers, such as a bracket, a comma or a space. -/
def isBreak (c : Char) : Bool := isMark c && c != '.' && c != '+' && c != '-'

theorem selection_reads_break {c : Char} (hc : isBreak c = true)
    (h : (selection A).Reads .fresh s q') : (selection A).Reads q (c :: s) q' := by
  simp only [isBreak, Bool.and_eq_true, bne_iff_ne] at hc
  obtain ⟨⟨⟨hmark, hpoint⟩, hplus⟩, hminus⟩ := hc
  exact Reader.reads_cons.2 ⟨.fresh,
    selection_step_break (Alphabet.isIdent_of_isMark hmark) hpoint hplus hminus, h⟩

/-! ### Numbers -/

theorem isTrailing_ascii (hs : IsAscii s) (h : s.all Alphabet.ascii.isTrailing = true) :
    ∀ c ∈ s, A.isTrailing c = true := by
  intro c hc
  have hletter : A.letter c = Alphabet.ascii.letter c := A.letter_eq c (hs c hc)
  simpa only [Alphabet.isTrailing, Alphabet.isIdent, hletter] using List.all_eq_true.1 h c hc

theorem isTrailing_of_isNumeral {c : Char} (hc : isNumeral c = true) : A.isTrailing c = true := by
  have he : A.isIdent 'e' = true := by simp [Alphabet.isIdent, A.letter_eq 'e' (by decide)]
  simp only [isNumeral, Bool.or_eq_true, beq_iff_eq] at hc
  rcases hc with ((hc | rfl) | rfl) | rfl
  · simp [Alphabet.isTrailing, Alphabet.isIdent_of_isDigit hc]
  · simp [Alphabet.isTrailing]
  · simp [Alphabet.isTrailing, he]
  · simp [Alphabet.isTrailing]

/-- A number with a fraction or an exponent is not an integer. -/
theorem IsReal.reads (h : IsReal s) :
    ∃ q, q.isTrailing = true ∧ (selection A).Reads .fresh s q := by
  cases h with
  | @fraction whole more c hwhole hc hmore =>
    obtain ⟨q, hq, hreads⟩ := selection_reads_digits (A := A) hwhole
    obtain ⟨q', hq', htrail⟩ := selection_reads_trailing (A := A) (q := .word)
      (fun c hc => isTrailing_of_isNumeral (hmore c hc)) rfl
    have hdot : A.isIdent '.' = false := Alphabet.isIdent_of_isMark rfl
    refine ⟨q', hq', hreads.append ?_⟩
    -- after no digits the point is a mark, after some it is that of the number
    rcases hq with ⟨rfl, -⟩ | rfl
    · exact Reader.reads_cons.2 ⟨.mark, selection_step_point rfl,
        Reader.reads_cons.2 ⟨.word, by simp [selection_step_digit hc], htrail⟩⟩
    · exact Reader.reads_cons.2 ⟨.point, by simp [selection, hdot],
        Reader.reads_cons.2 ⟨.word, by simp [selection_step_digit hc], htrail⟩⟩
  | @exponent whole more hwhole hmore =>
    obtain ⟨q, hq, hreads⟩ := selection_reads_digits (A := A) hwhole
    obtain ⟨q', hq', htrail⟩ := selection_reads_trailing (A := A) (q := .word)
      (fun c hc => isTrailing_of_isNumeral (hmore c hc)) rfl
    have he : A.isIdent 'e' = true := by simp [Alphabet.isIdent, A.letter_eq 'e' (by decide)]
    refine ⟨q', hq', hreads.append (Reader.reads_cons.2 ⟨.word, ?_, htrail⟩)⟩
    rcases hq with ⟨rfl, -⟩ | rfl <;> simp [selection, he]

theorem Ty.reads_name (t : Ty) : (selection A).Reads .fresh t.name.toList .word := by
  have hall : ∀ t ∈ Ty.all, (selection .ascii).Reads .fresh t.name.toList .word := by decide
  exact selection_reads_ascii t.isAscii_name (hall t t.mem_all)

/-! ### Literals -/

namespace Literal

/-- An integer of one channel that is not negative is written as digits and no more. -/
def isBareInteger (l : Literal) : Bool :=
  match l.channels with
  | .ints [value] => decide (0 ≤ value.toInt)
  | _ => false

theorem reads_signed {text : String} (hfresh : (selection A).Reads .fresh text.toList q)
    (htrailing : ∀ c ∈ text.toList, A.isTrailing c = true) (negative : Bool) :
    ∃ q', (q' = .fresh ∨ negative = false ∧ q' = q) ∧
      (selection A).Reads .fresh (signed negative text).toList q' := by
  unfold signed
  cases negative with
  | false => exact ⟨q, Or.inr ⟨rfl, rfl⟩, hfresh⟩
  | true =>
    obtain ⟨q', -, hreads⟩ := selection_reads_trailing (q := .mark) htrailing rfl
    refine ⟨.fresh, Or.inl rfl, ?_⟩
    have hopen : (selection A).Reads .fresh "(-".toList .mark :=
      selection_reads_ascii (by decide) (by decide)
    rw [if_pos rfl, String.toList_append, String.toList_append]
    exact (hopen.append hreads).append
      (selection_reads_break rfl Reader.reads_nil)

theorem isTrailing_repr (n : Nat) : ∀ c ∈ (Nat.repr n).toList, A.isTrailing c = true :=
  fun c hc => isTrailing_of_isNumeral ((isDigits_repr n).isNumeral c hc)

theorem reads_repr (n : Nat) : (selection A).Reads .fresh (Nat.repr n).toList .number := by
  obtain ⟨q, hq, hreads⟩ := selection_reads_digits (A := A) (isDigits_repr n)
  obtain ⟨-, hnil⟩ | rfl := hq
  · simp at hnil
  · exact hreads

theorem reads_int (value : Int32) :
    ∃ q, (q.isSolid = true ∨ q = .number ∧ 0 ≤ value.toInt) ∧
      (selection A).Reads .fresh (int value).toList q := by
  obtain ⟨q, hq, hreads⟩ := reads_signed (reads_repr (A := A) value.toInt.natAbs)
    (isTrailing_repr _) (value.toInt < 0)
  refine ⟨q, ?_, hreads⟩
  rcases hq with rfl | ⟨hsign, rfl⟩
  · exact Or.inl rfl
  · exact Or.inr ⟨rfl, by simpa using hsign⟩

theorem reads_uint (value : UInt32) : (selection A).Reads .fresh (uint value).toList .word := by
  rw [uint, String.toList_append]
  exact (reads_repr _).append (selection_reads_ascii (by decide) (by decide))

/-- A real number is never taken for an integer, whatever its marker is. -/
theorem reads_real (F : Decimal.Format) {huge mark : String}
    (hhuge : ∃ q, q.isTrailing = true ∧ (selection A).Reads .fresh huge.toList q)
    (htrailing : ∀ c ∈ huge.toList, A.isTrailing c = true)
    (hmark : ∀ c ∈ mark.toList, A.isTrailing c = true) (bits : Nat) :
    ∃ q, q.isSolid = true ∧ (selection A).Reads .fresh (real F huge mark bits).toList q := by
  have hsigned : ∀ {text : String} (negative : Bool),
      (∃ q, q.isTrailing = true ∧ (selection A).Reads .fresh text.toList q) →
      (∀ c ∈ text.toList, A.isTrailing c = true) →
      ∃ q, q.isSolid = true ∧
        (selection A).Reads .fresh (signed negative (text ++ mark)).toList q := by
    rintro text negative ⟨q, hq, hreads⟩ htext
    obtain ⟨q', hq', hmarked⟩ := selection_reads_trailing hmark hq
    have hall : ∀ c ∈ (text ++ mark).toList, A.isTrailing c = true := by
      rw [String.toList_append]
      exact List.forall_mem_append.2 ⟨htext, hmark⟩
    obtain ⟨q'', hq'', hreads⟩ := reads_signed
      (by rw [String.toList_append]; exact hreads.append hmarked) hall negative
    refine ⟨q'', ?_, hreads⟩
    rcases hq'' with rfl | ⟨-, rfl⟩
    · rfl
    · exact Scan.isSolid_of_isTrailing hq'
  unfold real
  split
  · -- a quotient in parentheses
    have hopen : (selection A).Reads .fresh "(0.0".toList .word :=
      selection_reads_ascii (by decide) (by decide)
    have hquotient : (selection A).Reads .fresh "0.0".toList .word :=
      selection_reads_ascii (by decide) (by decide)
    obtain ⟨q₁, hq₁, hfirst⟩ := selection_reads_trailing hmark (q := .word) rfl
    refine ⟨.fresh, rfl, ?_⟩
    simp only [String.toList_append]
    exact (((hopen.append hfirst).append
      (selection_reads_break rfl hquotient)).append
        hfirst).append
          (selection_reads_break rfl Reader.reads_nil)
  · exact hsigned _ hhuge htrailing
  · exact hsigned _ (Decimal.isReal_write _ _).reads fun c hc =>
      isTrailing_of_isNumeral ((Decimal.isReal_write _ _).isNumeral c hc)

theorem reads_float (bits : UInt32) :
    ∃ q, q.isSolid = true ∧ (selection A).Reads .fresh (float bits).toList q :=
  reads_real _ ⟨.word, rfl, selection_reads_ascii (by decide) (by decide)⟩
    (isTrailing_ascii (by decide) (by decide)) (isTrailing_ascii (by decide) (by decide)) _

theorem reads_double (bits : UInt64) :
    ∃ q, q.isSolid = true ∧ (selection A).Reads .fresh (double bits).toList q :=
  reads_real _ ⟨.word, rfl, selection_reads_ascii (by decide) (by decide)⟩
    (isTrailing_ascii (by decide) (by decide)) (isTrailing_ascii (by decide) (by decide)) _

/-- A channel is taken for an integer only if it is one and not negative. -/
theorem reads_texts (channels : Channels) : ∀ s ∈ channels.texts,
    ∃ q, (q.isSolid = true ∨ q = .number ∧ ∃ values value, channels = .ints values ∧
      value ∈ values ∧ 0 ≤ value.toInt) ∧ (selection A).Reads .fresh s.toList q := by
  intro s hs
  cases channels with
  | bools values =>
    obtain ⟨x, -, rfl⟩ := List.mem_map.1 hs
    refine ⟨.word, Or.inl rfl, ?_⟩
    split
    · exact selection_reads_ascii (by decide) (by decide)
    · exact selection_reads_ascii (by decide) (by decide)
  | ints values =>
    obtain ⟨x, hx, rfl⟩ := List.mem_map.1 hs
    obtain ⟨q, hq, hreads⟩ := reads_int (A := A) x
    exact ⟨q, hq.imp_right fun ⟨hnumber, hsign⟩ => ⟨hnumber, values, x, rfl, hx, hsign⟩, hreads⟩
  | uints values =>
    obtain ⟨x, -, rfl⟩ := List.mem_map.1 hs
    exact ⟨.word, Or.inl rfl, reads_uint x⟩
  | floats values =>
    obtain ⟨x, -, rfl⟩ := List.mem_map.1 hs
    obtain ⟨q, hq, hreads⟩ := reads_float (A := A) x
    exact ⟨q, Or.inl hq, hreads⟩
  | doubles values =>
    obtain ⟨x, -, rfl⟩ := List.mem_map.1 hs
    obtain ⟨q, hq, hreads⟩ := reads_double (A := A) x
    exact ⟨q, Or.inl hq, hreads⟩

/-- A literal is taken for an integer only if it stands alone and is one. -/
theorem reads_text (l : Literal) :
    ∃ q, (q.isSolid = true ∨ q = .number ∧ l.isBareInteger = true) ∧
      (selection A).Reads .fresh l.text.toList q := by
  have htexts := reads_texts (A := A) l.channels
  unfold text
  split
  next hscalar =>
    have hlength : l.channels.texts.length = 1 := by
      rw [l.channels.length_texts, l.length_eq, Ty.channels_of_isScalar hscalar]
    obtain ⟨s, hs⟩ := List.length_eq_one_iff.1 hlength
    obtain ⟨q, hq, hreads⟩ := htexts s (by simp [hs])
    refine ⟨q, hq.imp_right ?_, by simpa [hs] using hreads⟩
    rintro ⟨hnumber, values, value, hvalues, hmem, hsign⟩
    refine ⟨hnumber, ?_⟩
    have hone : values.length = 1 := by simpa [hvalues, Channels.texts] using hlength
    obtain ⟨value', rfl⟩ := List.length_eq_one_iff.1 hone
    cases List.mem_singleton.1 hmem
    simp [isBareInteger, hvalues, hsign]
  next =>
    obtain ⟨q, -, hlist⟩ : ∃ q, True ∧
        (selection A).Reads .fresh (", ".intercalate l.channels.texts).toList q := by
      refine Reader.reads_intercalate (P := fun _ => True) trivial ?_ fun s hs => ?_
      · intro q' _
        exact selection_reads_break rfl
          (selection_reads_ascii (by decide) (by decide))
      · obtain ⟨q, -, hreads⟩ := htexts s hs
        exact ⟨q, trivial, hreads⟩
    refine ⟨.fresh, Or.inl rfl, ?_⟩
    simp only [String.toList_append]
    exact ((l.ty.reads_name.append
      (selection_reads_break rfl Reader.reads_nil)).append
        hlist).append
          (selection_reads_break rfl Reader.reads_nil)

end Literal

/-! ### Templates -/

/-- Arguments that are read when all is fresh, and leave the reader in these states. -/
def holes (states : List Scan) (i : Nat) (q : Scan) : Option Scan :=
  if q = .fresh then states[i]? else none

namespace Op

variable {states : List Scan}

/-- Whether the operation writes a selection right after its argument. -/
def appends : Op → Bool
  | swizzle .. => true
  | split input _ => !input.isScalar
  | premultiply => true
  | _ => false

/-- Whether the value of the operation is its only argument. -/
def passes : Op → Bool
  | split input _ => input.isScalar
  | combine output => output.isScalar
  | _ => false

theorem readsExpr_call {function : String} (h : (selection A).Reads .fresh function.toList .word) :
    (selection A).ReadsExpr (holes states) .fresh
      (.call function ((placeholders states.length).map Operand.expr)) .fresh := by
  have hopen : (selection A).Reads .fresh (function ++ "(").toList .fresh := by
    rw [String.toList_append]
    exact h.append (selection_reads_break rfl Reader.reads_nil)
  obtain ⟨q, -, hjoin⟩ : ∃ q, True ∧ (selection A).ReadsExpr (holes states) .fresh
      (.join (.text ", ") ((placeholders states.length).map Operand.expr)) q := by
    refine Reader.readsExpr_join (P := fun _ => True) trivial ?_ fun e he => ?_
    · intro q _
      exact selection_reads_break rfl (selection_reads_break rfl Reader.reads_nil)
    · obtain ⟨i, hi, rfl⟩ : ∃ i < states.length, Expr.temporary i = e := by
        simpa [placeholders] using he
      exact ⟨states[i], trivial, Reader.readsExpr_temporary.2 (by simp [holes, hi])⟩
  exact ((Reader.readsExpr_text.2 hopen).append hjoin).append
    (Reader.readsExpr_text.2 (selection_reads_break rfl Reader.reads_nil))

theorem readsExpr_argument (q : Scan) (rest : List Scan) :
    (selection A).ReadsExpr (holes (q :: rest)) .fresh (.temporary 0) q :=
  Reader.readsExpr_temporary.2 rfl

theorem readsExpr_binary {operator : String} (h : operator ∈ ["+", "-", "*"]) (a b : Scan) :
    (selection A).ReadsExpr (holes [a, b]) .fresh
      (binary operator (.temporary 0) (.temporary 1)) .fresh := by
  simp only [List.mem_cons, List.not_mem_nil, or_false] at h
  rcases h with rfl | rfl | rfl <;>
    exact selection_readsExpr_ascii (by decide) (by cases a <;> cases b <;> decide)

theorem readsExpr_premultiplied {q : Scan} (hq : q.isSolid = true) :
    (selection A).ReadsExpr (holes [q]) .fresh premultiplied .fresh := by
  refine selection_readsExpr_ascii (by decide) ?_
  cases q with
  | fresh | word | mark => decide
  | number | point => cases hq

theorem readsExpr_cosine (a b : Scan) :
    (selection A).ReadsExpr (holes [a, b]) .fresh cosine .fresh :=
  selection_readsExpr_ascii (by decide) (by cases a <;> cases b <;> decide)

theorem readsExpr_reflectance (a b : Scan) :
    (selection A).ReadsExpr (holes [a, b]) .fresh reflectance .fresh :=
  selection_readsExpr_ascii (by decide) (by cases a <;> cases b <;> decide)

theorem isIdent_of_mem_pattern {input : Ty} {pattern : String}
    (h : selects input pattern = true) : ∀ c ∈ pattern.toList, A.isIdent c = true := by
  have hsets : ∀ letters ∈ letterSets, letters.all Char.isAlpha = true := by decide
  obtain ⟨letters, hletters, hsub⟩ := exists_letters h
  intro c hc
  have halpha : c.isAlpha = true := List.all_eq_true.1 (hsets letters hletters) c (hsub hc)
  simp [Alphabet.isIdent, A.letter_eq c (isAscii_pattern h c hc), halpha]

theorem isIdent_componentLetter (channel : Nat) : A.isIdent (componentLetter channel) = true := by
  have hletter : (componentLetter channel).toNat < 128 ∧
      (componentLetter channel).isAlpha = true := by
    unfold componentLetter
    split <;> decide
  simp [Alphabet.isIdent, A.letter_eq _ hletter.1, hletter.2]

/-- The template of an operation can be read if it writes no selection right after an integer. Only
an operation that passes on its argument can leave the reader with an integer. -/
theorem readsExpr_expand {op : Op} (valid : op.check = .ok ())
    (hcall : ∀ function inputs output, op = .call function inputs output →
      A.IsName function.toList) (hlen : states.length = op.signature.arity)
    (happends : op.appends = true → ∀ q ∈ states, q.isSolid = true) :
    ∃ q, (q.isSolid = true ∨ op.passes = true ∧ states.head? = some q) ∧
      (selection A).ReadsExpr (holes states) .fresh
        (op.script (placeholders op.signature.arity)).expand.expr q := by
  have hcalled : ∀ {function : String}, (selection A).Reads .fresh function.toList .word →
      (selection A).ReadsExpr (holes states) .fresh
        (.call function ((placeholders op.signature.arity).map Operand.expr)) .fresh :=
    fun h => hlen ▸ readsExpr_call h
  cases op with
  | multiply ty =>
    refine ⟨.fresh, Or.inl rfl, ?_⟩
    obtain ⟨a, b, rfl⟩ := List.length_eq_two.1 hlen
    simp only [script, scriptWith]
    split
    · exact hcalled (selection_reads_ascii (by decide) (by decide))
    · exact readsExpr_binary (by decide) a b
  | add | subtract | scale | matrixMultiply =>
    obtain ⟨a, b, rfl⟩ := List.length_eq_two.1 hlen
    exact ⟨.fresh, Or.inl rfl, readsExpr_binary (by decide) a b⟩
  | dot | cross | normalize | length | mix | clamp =>
    exact ⟨.fresh, Or.inl rfl, hcalled (selection_reads_ascii (by decide) (by decide))⟩
  | call function inputs output =>
    have hname := hcall function inputs output rfl
    exact ⟨.fresh, Or.inl rfl, hcalled (hname.reads (by decide))⟩
  | saturate | luminance =>
    obtain ⟨a, rfl⟩ := List.length_eq_one_iff.1 hlen
    refine ⟨.fresh, Or.inl rfl, selection_readsExpr_ascii (of_decide_eq_true rfl) ?_⟩
    cases a <;> exact of_decide_eq_true rfl
  | transformPoint | transformDirection =>
    obtain ⟨a, b, rfl⟩ := List.length_eq_two.1 hlen
    refine ⟨.word, Or.inl rfl, selection_readsExpr_ascii (of_decide_eq_true rfl) ?_⟩
    cases a <;> cases b <;> exact of_decide_eq_true rfl
  | premultiply =>
    obtain ⟨a, rfl⟩ := List.length_eq_one_iff.1 hlen
    exact ⟨.fresh, Or.inl rfl, readsExpr_premultiplied (happends rfl a List.mem_cons_self)⟩
  | fresnel =>
    obtain ⟨a, b, c, rfl⟩ := List.length_eq_three.1 hlen
    refine ⟨.fresh, Or.inl rfl, selection_readsExpr_ascii (of_decide_eq_true rfl) ?_⟩
    cases a <;> cases b <;> cases c <;> exact of_decide_eq_true rfl
  | swizzle input pattern =>
    have hselects : selects input pattern = true := by
      by_contra h
      simp [check, h] at valid
    obtain ⟨a, rfl⟩ := List.length_eq_one_iff.1 hlen
    obtain ⟨q, hq, hreads⟩ := selection_reads_components (A := A)
      (isIdent_of_mem_pattern hselects) (happends rfl a List.mem_cons_self)
    refine ⟨q, Or.inl hq, (readsExpr_argument a []).append (Reader.readsExpr_text.2 ?_)⟩
    rw [String.toList_append]
    exact hreads
  | split input channel =>
    obtain ⟨a, rfl⟩ := List.length_eq_one_iff.1 hlen
    rw [expand_split, selectChannel]
    split_ifs with hscalar hmatrix
    · exact ⟨a, Or.inr ⟨hscalar, rfl⟩, readsExpr_argument a []⟩
    · refine ⟨.fresh, Or.inl rfl, (readsExpr_argument a []).append (Reader.readsExpr_text.2 ?_)⟩
      simp only [String.toList_append]
      have hopen : (selection A).Reads a "[".toList .fresh :=
        selection_reads_break rfl Reader.reads_nil
      have hnext : (selection A).Reads .number "][".toList .fresh :=
        selection_reads_ascii (by decide) (by decide)
      exact (((hopen.append (Literal.reads_repr _)).append hnext).append
        (Literal.reads_repr _)).append (selection_reads_break rfl Reader.reads_nil)
    · have hsolid := happends (by simp [appends, hscalar]) a List.mem_cons_self
      obtain ⟨q, hq, hreads⟩ := selection_reads_components (A := A)
        (List.forall_mem_singleton.2 (isIdent_componentLetter channel)) hsolid
      refine ⟨q, Or.inl hq, (readsExpr_argument a []).append (Reader.readsExpr_text.2 ?_)⟩
      rw [String.toList_append, String.toList_singleton]
      exact hreads
  | combine output =>
    cases hscalar : output.isScalar with
    | true =>
      rw [arity_combine_of_isScalar hscalar] at hlen
      obtain ⟨a, rfl⟩ := List.length_eq_one_iff.1 hlen
      rw [expand_combine_placeholders hscalar]
      exact ⟨a, Or.inr ⟨hscalar, rfl⟩, readsExpr_argument a []⟩
    | false =>
      rw [expand_combine hscalar]
      exact ⟨.fresh, Or.inl rfl, hcalled output.reads_name⟩

end Op

namespace Function

variable {f : Function} {path : Option String} {states : List Scan}

/-- Whether the function writes a selection right after its argument. -/
def appends : Function → Bool
  | library op _ => op.appends
  | _ => false

/-- Whether the value of the function is its only argument. -/
def passes : Function → Bool
  | library op _ => op.passes
  | _ => false

/-- Whether the function is an integer that stands alone. -/
def isBareInteger : Function → Bool
  | constant value => value.isBareInteger
  | _ => false

/-- The template of a function can be read if it writes no selection right after an integer. Only
an integer that stands alone, or is passed on, leaves the reader with an integer. -/
theorem readsExpr_template (hf : f.IsOwn) (hcall : ∀ function ∈ f.calls?, A.IsName function.toList)
    (hpath : ∀ p ∈ path, ∃ q, q.isSolid = true ∧ (selection A).Reads .fresh p.toList q)
    (hlen : states.length = f.signature.arity)
    (happends : f.appends = true → ∀ q ∈ states, q.isSolid = true) :
    ∃ q, (q.isSolid = true ∨ q = .number ∧ f.isBareInteger = true ∨
        f.passes = true ∧ states.head? = some q) ∧
      (selection A).ReadsExpr (holes states) .fresh (f.template path) q := by
  cases f with
  | constant value =>
    obtain ⟨q, hq, hreads⟩ := value.reads_text (A := A)
    exact ⟨q, hq.imp_right Or.inl, Reader.readsExpr_text.2 hreads⟩
  | builtin v =>
    obtain ⟨q, hq, hreads⟩ : ∃ q, q.isSolid = true ∧
        (selection A).Reads .fresh (path.getD v.name).toList q := by
      cases path with
      | some p => exact hpath p rfl
      | none =>
        have hnames : ∀ v ∈ Builtin.all, IsAscii v.name.toList ∧
            (selection .ascii).Reads .fresh v.name.toList .word := by decide
        obtain ⟨hascii, hreads⟩ := hnames v v.mem_all
        exact ⟨.word, rfl, selection_reads_ascii hascii hreads⟩
    exact ⟨q, Or.inl hq, Reader.readsExpr_text.2 hreads⟩
  | sample t =>
    obtain ⟨a, rfl⟩ := List.length_eq_one_iff.1 hlen
    obtain ⟨q, hreads⟩ : ∃ q,
        (selection A).Reads .fresh (path.getD "textures[0]").toList q := by
      cases path with
      | some p =>
        obtain ⟨q, -, hreads⟩ := hpath p rfl
        exact ⟨q, hreads⟩
      | none => exact ⟨.fresh, selection_reads_ascii (by decide) (by decide)⟩
    have hopen : (selection A).Reads .fresh
        ("texture(" ++ path.getD "textures[0]" ++ ", ").toList .fresh := by
      simp only [String.toList_append]
      have htexture : (selection A).Reads .fresh "texture(".toList .fresh :=
        selection_reads_ascii (by decide) (by decide)
      exact (htexture.append hreads).append
        (selection_reads_break rfl (selection_reads_break rfl Reader.reads_nil))
    refine ⟨.fresh, Or.inl rfl, ?_⟩
    exact ((Reader.readsExpr_text.2 hopen).append (Op.readsExpr_argument a [])).append
      (Reader.readsExpr_text.2 (selection_reads_break rfl Reader.reads_nil))
  | library op valid =>
    obtain ⟨q, hq, hreads⟩ := op.readsExpr_expand (A := A) valid
      (by rintro function inputs output rfl; exact hcall function rfl) hlen happends
    exact ⟨q, hq.imp_right Or.inr, hreads⟩
  | user u => exact absurd rfl (hf u)

end Function

end ShaderFlow
