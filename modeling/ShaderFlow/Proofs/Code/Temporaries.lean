import Mathlib.Data.List.Nodup
import ShaderFlow.Code.Script
import ShaderFlow.Proofs.Text.Tokens

/-!
# Temporaries in the order of their declarations

A block numbers its temporaries as it declares them. `Block.Counted` says that the numbers in the
declarations count up from zero without gap, and that the counter is the number of declarations.
It makes the names of temporaries distinct, whatever the stem (`Block.Counted.named`).

A script adds lines at the end and keeps the count, and a temporary that it answers is one that it
was given or one that a line of the block declares with the same type (`Script.run_continues`).
That the script is honest is all that is asked of it, so this holds of functions that users have
written as of those of the library.
-/

namespace ShaderFlow

namespace Line

/-- Whether the line declares a temporary. -/
def isDeclaration (l : Line) : Bool := l.declared?.isSome

/-- The name of the temporary that a line declares. -/
def declaredName? (stem : String) (l : Line) : Option String := l.declared?.map (Atom.name stem)

end Line

namespace Block

variable {b b' b'' : Block} {v : Operand} {l : Line}

/-- The numbers of the temporaries that are declared, in the order of the lines. -/
def declared (b : Block) : List Nat := b.lines.toList.filterMap Line.declared?

/-- The declarations are numbered from zero, and the next number is how many there are. -/
def Counted (b : Block) : Prop := b.declared = List.range b.next

/-- The declarations name the temporaries by the stem and the numbers from zero on, no name is
declared twice, and the counter is the number of declarations. -/
structure Named (stem : String) (b : Block) : Prop where
  /-- The names in the order of the lines. -/
  names : b.lines.toList.filterMap (Line.declaredName? stem) =
    (List.range b.next).map (Atom.name stem)
  /-- No name is declared twice. -/
  nodup : (b.lines.toList.filterMap (Line.declaredName? stem)).Nodup
  /-- The counter. -/
  next_eq : b.next = b.lines.toList.countP Line.isDeclaration

/-- A value is at hand unless it is a temporary that no line declares with its type. -/
def HasAtHand (b : Block) (v : Operand) : Prop :=
  ∀ ty i, v = .temporary ty i → ∃ e, .declare ty i e ∈ b.lines.toList

/-- A line declares a temporary of the value's type, and its name is the value's text. -/
def Declares (stem : String) (b : Block) (v : Operand) : Prop :=
  ∃ i e, v.expr.render stem = Atom.name stem i ∧ .declare v.ty i e ∈ b.lines.toList

/-- The second block begins with the lines of the first, and its declarations are counted. -/
structure Continues (b b' : Block) : Prop where
  /-- Lines are added at the end. -/
  lines : b.lines.toList <+: b'.lines.toList
  /-- The declarations are counted. -/
  counted : b'.Counted

/-! ### Counting -/

theorem counted_empty : Counted {} := rfl

theorem Counted.declare (h : b.Counted) (ty : Ty) (e : Expr) : (b.declare ty e).Counted := by
  unfold Counted declared at h ⊢
  simp [Block.declare, Line.declared?, h, List.range_succ]

theorem Counted.push (h : b.Counted) (hl : l.declared? = none) : (b.push l).Counted := by
  unfold Counted declared at h ⊢
  simp [Block.push, hl, h]

theorem Counted.append (h : b.Counted) {more : List Line} (hmore : ∀ l ∈ more, l.declared? = none) :
    Counted { b with lines := b.lines ++ more.toArray } := by
  unfold Counted declared at h ⊢
  simp [h, List.filterMap_eq_nil_iff.2 hmore]

/-- Numbers that count up from zero make distinct names. -/
theorem Counted.named (h : b.Counted) (stem : String) : b.Named stem := by
  have hnames : b.lines.toList.filterMap (Line.declaredName? stem) =
      (List.range b.next).map (Atom.name stem) := by
    rw [← h, declared, List.map_filterMap]
    rfl
  refine ⟨hnames, ?_, ?_⟩
  · rw [hnames]
    exact List.Nodup.map (fun _ _ => Atom.name_inj.1) List.nodup_range
  · have hlength : b.declared.length = b.next := by rw [h, List.length_range]
    rw [← hlength, declared, List.length_filterMap_eq_countP]
    rfl

/-! ### Values at hand -/

theorem hasAtHand_of_not_isTemporary (h : v.isTemporary = false) : b.HasAtHand v := by
  rintro ty i rfl
  cases h

theorem HasAtHand.mono (h : b.HasAtHand v) (hlines : b.lines.toList <+: b'.lines.toList) :
    b'.HasAtHand v := by
  intro ty i hv
  obtain ⟨e, he⟩ := h ty i hv
  exact ⟨e, hlines.subset he⟩

theorem HasAtHand.declares (h : b.HasAtHand v) (hv : v.isTemporary = true) (stem : String) :
    b.Declares stem v := by
  cases v with
  | inline ty e => cases hv
  | temporary ty i =>
    obtain ⟨e, he⟩ := h ty i rfl
    exact ⟨i, e, Expr.render_temporary stem i, he⟩

theorem hasAtHand_fresh (b : Block) (ty : Ty) (e : Expr) :
    (b.declare ty e).HasAtHand (b.fresh ty) := by
  intro ty' i hv
  cases hv
  exact ⟨e, by simp [Block.declare]⟩

theorem Continues.refl (h : b.Counted) : b.Continues b := ⟨List.prefix_refl _, h⟩

theorem Continues.trans (h : b.Continues b') (h' : b'.Continues b'') : b.Continues b'' :=
  ⟨h.lines.trans h'.lines, h'.counted⟩

theorem continues_declare (h : b.Counted) (ty : Ty) (e : Expr) :
    b.Continues (b.declare ty e) :=
  ⟨by simp [Block.declare], h.declare ty e⟩

theorem continues_push (h : b.Counted) (hl : l.declared? = none) : b.Continues (b.push l) :=
  ⟨by simp [Block.push], h.push hl⟩

end Block

/-! ### Scripts -/

namespace Script

/-- What a script may answer is at hand in the block that it leaves behind. -/
theorem run_continues (stem : String) {script : Script} {known : List Operand} {b : Block}
    (hb : b.Counted) (hknown : ∀ v ∈ known, b.HasAtHand v) (h : script.Honest known) :
    b.Continues (script.run stem b).1 ∧ (script.run stem b).1.HasAtHand (script.run stem b).2 := by
  -- by induction on the script, with the block and the values at hand in it growing
  have hfresh : ∀ {b : Block} {known : List Operand}, (∀ v ∈ known, b.HasAtHand v) →
      ∀ ty e, ∀ v ∈ b.fresh ty :: known, (b.declare ty e).HasAtHand v := by
    intro b known hknown ty e
    refine List.forall_mem_cons.2 ⟨b.hasAtHand_fresh ty e, fun v hv => ?_⟩
    exact (hknown v hv).mono (by simp [Block.declare])
  induction script generalizing known b with
  | declare ty e next ih =>
    obtain ⟨hrun, hanswer⟩ := ih _ (hb.declare ty e) (hfresh hknown ty e) (h b.next)
    exact ⟨(Block.continues_declare hb ty e).trans hrun, hanswer⟩
  | share v next ih =>
    obtain ⟨hsame, hnew⟩ := h
    rw [run]
    split
    · exact ih _ hb hknown hsame
    · obtain ⟨hrun, hanswer⟩ :=
        ih _ (hb.declare v.ty v.expr) (hfresh hknown v.ty v.expr) (hnew b.next)
      exact ⟨(Block.continues_declare hb v.ty v.expr).trans hrun, hanswer⟩
  | statement e next ih =>
    have hpush : b.Continues (b.push (.statement e)) := Block.continues_push hb rfl
    obtain ⟨hrun, hanswer⟩ :=
      ih hpush.counted (fun v hv => (hknown v hv).mono hpush.lines) h
    exact ⟨hpush.trans hrun, hanswer⟩
  | answer v =>
    refine ⟨.refl hb, ?_⟩
    by_cases hv : v.isTemporary = true
    · exact hknown v (h hv)
    · exact Block.hasAtHand_of_not_isTemporary (v := v) (by simpa using hv)

end Script

end ShaderFlow
