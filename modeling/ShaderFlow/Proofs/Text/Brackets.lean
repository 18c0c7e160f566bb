import Mathlib.Algebra.Ring.Int.Defs
import ShaderFlow.Proofs.Function.Run
import ShaderFlow.Proofs.Text.Ascii
import ShaderFlow.Proofs.Text.Numerals
import ShaderFlow.Proofs.Text.Reading

/-!
# Texts that brackets enclose

A text is enclosed if its brackets match and everything that separates, a space, a comma or a
semicolon, stands within brackets. Such a text can be put anywhere in an expression without being
taken apart there.

The definition counts brackets over the beginnings of the text. The reader `nesting` does the same
in one go and refuses texts that are not enclosed (`enclosed_iff`); it comes back to the depth at
which an enclosed text begins, whatever that is (`Enclosed.reads`). So a template makes an enclosed
expression from enclosed ones if the reader comes through its own texts
(`Expr.Bracketed.enclosed_subst`), and all templates of the library are such
(`Function.bracketed_template`).
-/

namespace ShaderFlow

/-! ### Depth -/

/-- How much deeper a character leads into brackets. -/
def bracketWeight (c : Char) : Int :=
  if c = '(' ∨ c = '[' then 1 else if c = ')' ∨ c = ']' then -1 else 0

/-- The number of brackets that a text opens, less those that it closes. -/
def bracketDepth (text : List Char) : Int := (text.map bracketWeight).sum

/-- A character that separates the parts of an expression. -/
def isSeparator (c : Char) : Bool := c == ' ' || c == ',' || c == ';'

/-- The brackets of the text match, and every separator is within brackets. -/
structure Enclosed (text : List Char) : Prop where
  /-- No bracket is closed that has not been opened. -/
  nonneg : ∀ before, before <+: text → 0 ≤ bracketDepth before
  /-- Every bracket is closed. -/
  balanced : bracketDepth text = 0
  /-- Separators are within brackets. -/
  within : ∀ before c after, text = before ++ c :: after → isSeparator c = true →
    bracketDepth before ≠ 0

@[simp]
theorem bracketDepth_nil : bracketDepth [] = 0 := rfl

@[simp]
theorem bracketDepth_cons (c : Char) (text : List Char) :
    bracketDepth (c :: text) = bracketWeight c + bracketDepth text := by
  simp [bracketDepth]

/-! ### The reader -/

/-- Counts open brackets. It gets stuck on a bracket that closes none, and on a separator that is
not within brackets. -/
def nesting : Reader Nat where
  step depth c :=
    if c = '(' ∨ c = '[' then some (depth + 1)
    else if c = ')' ∨ c = ']' then (if depth = 0 then none else some (depth - 1))
    else if depth = 0 ∧ isSeparator c = true then none
    else some depth

theorem nesting_step_eq_some {d d' : Nat} {c : Char} :
    nesting.step d c = some d' ↔
      (d' : Int) = d + bracketWeight c ∧ (isSeparator c = true → d ≠ 0) := by
  simp only [nesting, bracketWeight]
  split_ifs with hopen hclose hdepth hseparator
  · have hnone : isSeparator c = false := by rcases hopen with rfl | rfl <;> rfl
    simp only [Option.some.injEq, hnone, Bool.false_eq_true, false_implies, and_true]
    omega
  · subst hdepth
    simp only [false_iff]
    omega
  · have hnone : isSeparator c = false := by rcases hclose with rfl | rfl <;> rfl
    simp only [Option.some.injEq, hnone, Bool.false_eq_true, false_implies, and_true]
    omega
  · simp [hseparator]
  · have hdeep : isSeparator c = true → d ≠ 0 := fun hc hd => hseparator ⟨hd, hc⟩
    simp only [Option.some.injEq, Int.add_zero, iff_true_intro hdeep, and_true]
    omega

/-- The reader comes through a text if no beginning of it leads out of all brackets, and separators
stand deeper than that. -/
theorem nesting_reads_iff {d d' : Nat} {text : List Char} :
    nesting.Reads d text d' ↔
      (∀ before, before <+: text → 0 ≤ d + bracketDepth before) ∧
        d + bracketDepth text = d' ∧
        ∀ before c after, text = before ++ c :: after → isSeparator c = true →
          d + bracketDepth before ≠ 0 := by
  induction text generalizing d with
  | nil =>
    constructor
    · intro h
      cases h
      exact ⟨fun before hbefore => by simp [List.prefix_nil.1 hbefore], by simp, by simp⟩
    · rintro ⟨-, hend, -⟩
      rw [bracketDepth_nil, Int.add_zero, Int.natCast_inj] at hend
      rw [hend]
      exact Reader.reads_nil
  | cons c text ih =>
    simp only [Reader.reads_cons, nesting_step_eq_some, ih]
    constructor
    · rintro ⟨d₁, ⟨hd₁, hc⟩, hnonneg, hend, hwithin⟩
      refine ⟨fun before hbefore => ?_, by simp; omega, fun before a after heq ha => ?_⟩
      · rcases List.prefix_cons_iff.1 hbefore with rfl | ⟨rest, rfl, hrest⟩
        · simp
        · have := hnonneg rest hrest
          simp
          omega
      · rcases List.cons_eq_append_iff.1 heq with ⟨rfl, hsame⟩ | ⟨rest, rfl, htext⟩
        · cases hsame
          simpa using hc ha
        · have := hwithin rest a after htext ha
          simp
          omega
    · rintro ⟨hnonneg, hend, hwithin⟩
      have hfirst : 0 ≤ d + bracketWeight c := by simpa using hnonneg [c] (by simp)
      obtain ⟨d₁, hd₁⟩ := Int.eq_ofNat_of_zero_le hfirst
      refine ⟨d₁, ⟨hd₁.symm, fun hc => ?_⟩, fun before hbefore => ?_, ?_,
        fun before a after heq ha => ?_⟩
      · simpa using hwithin [] c text rfl hc
      · have := hnonneg (c :: before) (List.cons_prefix_cons.2 ⟨rfl, hbefore⟩)
        simp at this
        omega
      · simp at hend
        omega
      · have := hwithin (c :: before) a after (by rw [heq]; rfl) ha
        simp at this
        omega

/-- A text is enclosed if the reader comes back to depth zero. -/
theorem enclosed_iff {text : List Char} : Enclosed text ↔ nesting.Reads 0 text 0 := by
  rw [nesting_reads_iff]
  simp only [Int.ofNat_zero, Int.zero_add]
  exact ⟨fun h => ⟨h.nonneg, h.balanced, h.within⟩, fun h => ⟨h.1, h.2.1, h.2.2⟩⟩

instance (text : List Char) : Decidable (Enclosed text) := decidable_of_iff _ enclosed_iff.symm

example : Enclosed "mix(a[1], (-2))".toList ∧ ¬ Enclosed "a + b".toList := by decide

namespace Enclosed

variable {s t : List Char}

theorem reads (h : Enclosed s) (d : Nat) : nesting.Reads d s d := by
  rw [nesting_reads_iff, h.balanced]
  refine ⟨fun before hbefore => ?_, by simp, fun before c after heq hc => ?_⟩
  · have := h.nonneg before hbefore
    omega
  · have hle := h.nonneg before ⟨c :: after, heq.symm⟩
    have hne := h.within before c after heq hc
    omega

theorem append (hs : Enclosed s) (ht : Enclosed t) : Enclosed (s ++ t) :=
  enclosed_iff.2 ((hs.reads 0).append (ht.reads 0))

theorem join {l : List String} (h : ∀ s ∈ l, Enclosed s.toList) :
    Enclosed (String.join l).toList :=
  enclosed_iff.2 (Reader.reads_join fun s hs => (h s hs).reads 0)

theorem reads_intercalate {l : List String} (h : ∀ s ∈ l, Enclosed s.toList) :
    nesting.Reads 1 (", ".intercalate l).toList 1 := by
  obtain ⟨d, rfl, hreads⟩ : ∃ d, d = 1 ∧ nesting.Reads 1 (", ".intercalate l).toList d := by
    refine Reader.reads_intercalate (P := (· = 1)) rfl ?_ fun s hs => ⟨1, rfl, (h s hs).reads 1⟩
    rintro _ rfl
    decide
  exact hreads

end Enclosed

/-! ### Characters that neither open, close nor separate -/

/-- The characters that matter for brackets. -/
def delimiters : List Char := ['(', '[', ')', ']', ' ', ',', ';']

theorem nesting_step_of_not_mem {c : Char} (h : c ∉ delimiters) (d : Nat) :
    nesting.step d c = some d := by
  simp only [delimiters, List.mem_cons, List.not_mem_nil, or_false, not_or] at h
  simp [nesting, isSeparator, h]

theorem enclosed_of_not_mem {text : List Char} (h : ∀ c ∈ text, c ∉ delimiters) :
    Enclosed text := by
  obtain ⟨d, rfl, hreads⟩ := Reader.reads_of_forall (R := nesting) (P := (· = 0)) (s := text) rfl
    fun c hc d hd => ⟨d, nesting_step_of_not_mem (h c hc) d, hd⟩
  exact enclosed_iff.2 hreads

theorem enclosed_of_isNumeral {text : List Char} (h : ∀ c ∈ text, isNumeral c = true) :
    Enclosed text := by
  have hnone : delimiters.all (!isNumeral ·) = true := by decide
  refine enclosed_of_not_mem fun c hc hmem => ?_
  simpa [h c hc] using List.all_eq_true.1 hnone c hmem

theorem enclosed_repr (n : Nat) : Enclosed (Nat.repr n).toList :=
  enclosed_of_isNumeral (isDigits_repr n).isNumeral

theorem Ty.enclosed_name (t : Ty) : Enclosed t.name.toList := by
  have hall : ∀ t ∈ Ty.all, Enclosed t.name.toList := by decide
  exact hall t t.mem_all

theorem enclosed_componentLetter (channel : Nat) :
    Enclosed (String.singleton (componentLetter channel)).toList := by
  unfold componentLetter
  split <;> decide

theorem Op.enclosed_pattern {input : Ty} {pattern : String} (h : selects input pattern = true) :
    Enclosed pattern.toList := by
  have hsets : ∀ letters ∈ letterSets, letters.all (· ∉ delimiters) = true := by decide
  obtain ⟨letters, hletters, hsub⟩ := exists_letters h
  refine enclosed_of_not_mem fun c hc => ?_
  exact of_decide_eq_true (List.all_eq_true.1 (hsets letters hletters) c (hsub hc))

/-! ### Literals -/

namespace Literal

theorem enclosed_signed {text : String} (h : Enclosed text.toList) (negative : Bool) :
    Enclosed (signed negative text).toList := by
  unfold signed
  split
  · rw [enclosed_iff]
    simp only [String.toList_append]
    exact ((show nesting.Reads 0 "(-".toList 1 by decide).append (h.reads 1)).append (by decide)
  · exact h

theorem enclosed_real (F : Decimal.Format) {huge mark : String} (hhuge : Enclosed huge.toList)
    (hmark : Enclosed mark.toList) (bits : Nat) : Enclosed (real F huge mark bits).toList := by
  unfold real
  split
  · rw [enclosed_iff]
    simp only [String.toList_append]
    have hopen : nesting.Reads 0 "(0.0".toList 1 := by decide
    have hquotient : nesting.Reads 1 "/0.0".toList 1 := by decide
    exact (((hopen.append (hmark.reads 1)).append hquotient).append (hmark.reads 1)).append
      (by decide)
  · refine enclosed_signed ?_ _
    rw [String.toList_append]
    exact hhuge.append hmark
  next magnitude _ =>
    refine enclosed_signed ?_ _
    rw [String.toList_append]
    exact (enclosed_of_isNumeral (Decimal.isReal_write _ _).isNumeral).append hmark

theorem enclosed_texts (channels : Channels) : ∀ s ∈ channels.texts, Enclosed s.toList := by
  intro s hs
  cases channels <;> obtain ⟨x, -, rfl⟩ := List.mem_map.1 hs
  · split <;> decide
  · exact enclosed_signed (enclosed_repr _) _
  · rw [uint, String.toList_append]
    exact (enclosed_repr _).append (by decide)
  · exact enclosed_real _ (by decide) (by decide) _
  · exact enclosed_real _ (by decide) (by decide) _

theorem enclosed_text (l : Literal) : Enclosed l.text.toList := by
  have htexts := enclosed_texts l.channels
  unfold text
  split
  · exact .join htexts
  · rw [enclosed_iff]
    simp only [String.toList_append]
    have hopen : nesting.Reads 0 "(".toList 1 := by decide
    exact (((l.ty.enclosed_name.reads 0).append hopen).append
      (Enclosed.reads_intercalate htexts)).append (by decide)

end Literal

/-! ### Templates -/

namespace Expr

variable {t : Expr} {D : Nat → Expr} {stem : String}

/-- The brackets of the template's own texts match, and every separator is within them. -/
def Bracketed (t : Expr) : Prop := nesting.ReadsExpr (fun _ d => some d) 0 t 0

instance : Decidable t.Bracketed :=
  inferInstanceAs (Decidable (nesting.ReadsExpr (fun _ d => some d) 0 t 0))

/-- Enclosed expressions make an enclosed expression. -/
theorem Bracketed.enclosed_subst (h : t.Bracketed)
    (hD : ∀ i, Enclosed ((D i).render stem).toList) :
    Enclosed ((t.subst D).render stem).toList := by
  refine enclosed_iff.2 (Reader.Reads.render_subst h fun i d d' hd => ?_)
  cases hd
  exact (hD i).reads d

theorem bracketed_temporary (i : Nat) : (temporary i).Bracketed := rfl

theorem bracketed_text {s : String} (h : Enclosed s.toList) : (text s).Bracketed :=
  Reader.readsExpr_text.2 (h.reads 0)

theorem bracketed_append_text (i : Nat) {s : String} (h : Enclosed s.toList) :
    (temporary i ++ text s).Bracketed :=
  (bracketed_temporary i).append (Reader.readsExpr_text.2 (h.reads 0))

/-- A call keeps its arguments within its parentheses. -/
theorem bracketed_call {function : String} (h : Enclosed function.toList) (n : Nat) :
    (call function ((placeholders n).map Operand.expr)).Bracketed := by
  have hopen : nesting.Reads 0 (function ++ "(").toList 1 := by
    rw [String.toList_append]
    exact (h.reads 0).append (by decide)
  obtain ⟨d, rfl, hjoin⟩ : ∃ d, d = 1 ∧ nesting.ReadsExpr (fun _ d => some d) 1
      (join (text ", ") ((placeholders n).map Operand.expr)) d := by
    refine Reader.readsExpr_join (P := (· = 1)) rfl ?_ fun e he => ?_
    · rintro _ rfl
      decide
    · obtain ⟨i, -, rfl⟩ : ∃ i ∈ List.range n, temporary i = e := by
        simpa [placeholders] using he
      exact ⟨1, rfl, rfl⟩
  exact ((Reader.readsExpr_text.2 hopen).append hjoin).append
    (Reader.readsExpr_text.2 (by decide))

end Expr

namespace Op

theorem bracketed_premultiplied : premultiplied.Bracketed := by decide

theorem bracketed_cosine : cosine.Bracketed := by decide

theorem bracketed_reflectance : reflectance.Bracketed := by decide

/-- The templates of operations keep their separators within brackets of their own. -/
theorem bracketed_expand {op : Op} (valid : op.check = .ok ())
    (hcall : ∀ function inputs output, op = .call function inputs output →
      Enclosed function.toList) :
    (op.script (placeholders op.signature.arity)).expand.expr.Bracketed := by
  cases op with
  | multiply ty =>
    simp only [script, scriptWith]
    split
    · exact Expr.bracketed_call (by decide) _
    · exact of_decide_eq_true rfl
  | swizzle input pattern =>
    have hselects : selects input pattern = true := by
      by_contra h
      simp [check, h] at valid
    refine Expr.bracketed_append_text 0 ?_
    rw [String.toList_append]
    exact Enclosed.append (by decide) (enclosed_pattern hselects)
  | split input channel =>
    rw [expand_split, selectChannel]
    split_ifs
    · exact Expr.bracketed_temporary 0
    · refine Expr.bracketed_append_text 0 (enclosed_iff.2 ?_)
      simp only [String.toList_append]
      have hopen : nesting.Reads 0 "[".toList 1 := by decide
      have hnext : nesting.Reads 1 "][".toList 1 := by decide
      exact (((hopen.append ((enclosed_repr _).reads 1)).append hnext).append
        ((enclosed_repr _).reads 1)).append (by decide)
    · refine Expr.bracketed_append_text 0 ?_
      rw [String.toList_append]
      exact Enclosed.append (by decide) (enclosed_componentLetter channel)
  | combine output =>
    cases hscalar : output.isScalar with
    | true =>
      rw [expand_combine_placeholders hscalar]
      exact Expr.bracketed_temporary 0
    | false =>
      rw [expand_combine hscalar]
      exact Expr.bracketed_call output.enclosed_name _
  | call function inputs output => exact Expr.bracketed_call (hcall function inputs output rfl) _
  | dot | cross | normalize | length | mix | clamp => exact Expr.bracketed_call (by decide) _
  | _ => exact of_decide_eq_true rfl

end Op

namespace Function

variable {f : Function} {path : Option String}

theorem bracketed_template (hf : f.IsOwn)
    (hcall : ∀ function ∈ f.calls?, Enclosed function.toList)
    (hpath : ∀ p ∈ path, Enclosed p.toList) : (f.template path).Bracketed := by
  cases f with
  | constant value => exact Expr.bracketed_text value.enclosed_text
  | builtin v =>
    refine Expr.bracketed_text ?_
    cases path with
    | none =>
      have hnames : ∀ v ∈ Builtin.all, Enclosed v.name.toList := by decide
      exact hnames v v.mem_all
    | some p => exact hpath p rfl
  | sample t =>
    have haccess : Enclosed (path.getD "textures[0]").toList := by
      cases path with
      | none => decide
      | some p => exact hpath p rfl
    have hopen : nesting.Reads 0 ("texture(" ++ path.getD "textures[0]" ++ ", ").toList 1 := by
      simp only [String.toList_append]
      have htexture : nesting.Reads 0 "texture(".toList 1 := by decide
      exact (htexture.append (haccess.reads 1)).append (by decide)
    exact ((Reader.readsExpr_text.2 hopen).append (by rfl)).append
      (Reader.readsExpr_text.2 (by decide))
  | library op valid =>
    refine op.bracketed_expand valid ?_
    rintro function inputs output rfl
    exact hcall function rfl
  | user u => exact absurd rfl (hf u)

end Function

end ShaderFlow
