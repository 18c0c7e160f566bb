import Mathlib.Data.List.Forall2
import ShaderFlow.Proofs.Function.Run
import ShaderFlow.Proofs.Text.Legible
import ShaderFlow.Stage.Emission

/-!
# Expressions that stand for others

An expression may mention temporaries that the lines of a block declare. It is faithful to another
one if the two have the same text whenever each temporary has the text of its declaration. Sharing
an operand keeps it faithful (`Expr.Faithful.share`), and a function of faithful arguments gives a
faithful value, whatever it shares and declares (`Function.faithful_run`).
-/

namespace ShaderFlow

variable {A : Alphabet} {stem : String} {b b' : Block}

namespace Block

/-- Each temporary has the text of its declaration. -/
def Satisfied (b : Block) (D : Nat → String) : Prop :=
  ∀ ty i e, .declare ty i e ∈ b.lines.toList → D i = e.renderWith D

/-- All lines declare temporaries, with the numbers in order and by legible expressions. -/
structure Tidy (A : Alphabet) (stem : String) (b : Block) : Prop where
  /-- The lines declare temporaries with the numbers in order. -/
  numbered : Line.Numbered A stem b.lines.toList.reverse
  /-- The next temporary has the next number. -/
  next_eq : b.next = b.lines.size

/-- A block that stays tidy and keeps its lines. -/
structure Grows (A : Alphabet) (stem : String) (b b' : Block) : Prop where
  /-- The block is tidy. -/
  tidy : b'.Tidy A stem
  /-- More temporaries are declared. -/
  next_le : b.next ≤ b'.next
  /-- Lines are kept. -/
  lines : b.lines.toList ⊆ b'.lines.toList

theorem tidy_empty : Tidy A stem {} := ⟨trivial, rfl⟩

theorem Grows.refl (h : b.Tidy A stem) : b.Grows A stem b :=
  ⟨h, Nat.le_refl _, List.Subset.refl _⟩

theorem Grows.trans {b'' : Block} (h : b.Grows A stem b') (h' : b'.Grows A stem b'') :
    b.Grows A stem b'' :=
  ⟨h'.tidy, Nat.le_trans h.next_le h'.next_le, List.Subset.trans h.lines h'.lines⟩

theorem Grows.satisfied (h : b.Grows A stem b') {D : Nat → String} (hD : b'.Satisfied D) :
    b.Satisfied D :=
  fun ty i e hmem => hD ty i e (h.lines hmem)

theorem Tidy.declare (h : b.Tidy A stem) {e : Expr} (he : e.Legible A stem b.next) (ty : Ty) :
    b.Grows A stem (b.declare ty e) where
  tidy := by
    refine ⟨?_, by simp [Block.declare, h.next_eq]⟩
    rw [Block.declare, Array.toList_push, List.reverse_concat]
    have hlength : b.lines.toList.reverse.length = b.next := by simp [h.next_eq]
    refine ⟨⟨ty, e, ?_, ?_⟩, h.numbered⟩
    · rw [hlength]
    · rwa [hlength]
  next_le := Nat.le_succ _
  lines := by simp [Block.declare]

end Block

namespace Expr

variable {e e' : Expr}

/-- The expression is legible, and has the text of another one when each temporary has the text of
its declaration. -/
structure Faithful (A : Alphabet) (stem : String) (b : Block) (e e' : Expr) : Prop where
  /-- The expression is legible. -/
  legible : e.Legible A stem b.next
  /-- The texts are the same. -/
  same : ∀ D, b.Satisfied D → e.renderWith D = e'.renderWith D

theorem faithful_empty : empty.Faithful A stem b empty :=
  ⟨⟨rfl, by simp, by simp⟩, fun _ _ => rfl⟩

theorem Faithful.mono (h : e.Faithful A stem b e') (hb : b.Grows A stem b') :
    e.Faithful A stem b' e' :=
  ⟨h.legible.mono hb.next_le, fun D hD => h.same D (hb.satisfied hD)⟩

/-- A temporary that is declared is faithful to what its declaration is faithful to. -/
theorem Faithful.declare (h : e.Faithful A stem b e') (ty : Ty) :
    (temporary b.next).Faithful A stem (b.declare ty e) e' where
  legible := legible_temporary (Nat.lt_succ_self _)
  same D hD := by
    have hi : D b.next = e.renderWith D := hD ty b.next e (by simp [Block.declare])
    rw [← h.same D fun ty i e hmem => hD ty i e (by simp [Block.declare, hmem])]
    simp [hi]

theorem Faithful.share {v : Operand} (h : v.expr.Faithful A stem b e') (hb : b.Tidy A stem) :
    b.Grows A stem (b.share stem v).1 ∧
      (b.share stem v).2.expr.Faithful A stem (b.share stem v).1 e' := by
  unfold Block.share
  split
  · exact ⟨.refl hb, h⟩
  · exact ⟨hb.declare h.legible v.ty, h.declare v.ty⟩

/-- A template is faithful if what is filled in is. -/
theorem Guarded.faithful_subst {D D' : Nat → Expr} (he : e.Guarded)
    (hclean : ∀ s ∈ e.texts, A.Clean stem s)
    (h : ∀ i ∈ e.temporaries, (D i).Faithful A stem b (D' i)) :
    (e.subst D).Faithful A stem b (e.subst D') where
  legible := he.legible_subst hclean fun i hi => (h i hi).legible
  same T hT := by
    rw [renderWith_subst, renderWith_subst]
    exact renderWith_congr fun i hi => (h i hi).same T hT

end Expr

namespace Function

variable {f : Function} {path : Option String} {args wholes : List Operand}

theorem faithful_argument
    (h : List.Forall₂ (fun v w => Expr.Faithful A stem b v.expr w.expr) args wholes) (i : Nat) :
    (Op.argument args i).Faithful A stem b (Op.argument wholes i) := by
  induction h generalizing i with
  | nil => exact Expr.faithful_empty
  | cons hvw _ ih =>
    cases i with
    | zero => exact hvw
    | succ i => exact ih i

/-- A function of faithful arguments writes lines and answers a value that are faithful to its
naive expression. -/
theorem faithful_run (hf : f.IsOwn) (hclean : ∀ s ∈ (f.template path).texts, A.Clean stem s)
    (hb : b.Tidy A stem) (hlen : args.length = f.signature.arity)
    (h : List.Forall₂ (fun v w => Expr.Faithful A stem b v.expr w.expr) args wholes) :
    b.Grows A stem ((f.script path args).run stem b).1 ∧
      ((f.script path args).run stem b).2.expr.Faithful A stem
        ((f.script path args).run stem b).1 (f.script path wholes).expand.expr := by
  rcases script_eq_answer hf path with ⟨hanswer, -⟩ | ⟨valid, rfl⟩ | ⟨valid, rfl⟩
  · -- no line is written, and the value is the template with the arguments filled in
    rw [hanswer args]
    refine ⟨.refl hb, ?_⟩
    have hlen' : wholes.length = f.signature.arity := h.length_eq ▸ hlen
    rw [Script.run, expand_expr_eq hf hlen, expand_expr_eq hf hlen']
    exact (guarded_template hf).faithful_subst hclean fun i _ => faithful_argument h i
  · -- the color is shared, and the value mentions what it is shared as
    obtain ⟨color, rfl⟩ := List.length_eq_one_iff.1 hlen
    obtain ⟨whole, _, hcolor, hnil, rfl⟩ := List.forall₂_cons_left_iff.1 h
    cases hnil
    obtain ⟨hgrows, hshared⟩ := hcolor.share hb
    rw [run_premultiply, expand_premultiply]
    rw [template_premultiply] at hclean
    exact ⟨hgrows, Expr.Guarded.faithful_subst (by decide) hclean fun _ _ => hshared⟩
  · obtain ⟨normal, view, f0, rfl⟩ := List.length_eq_three.1 hlen
    obtain ⟨normal', _, hnormal, h₁, rfl⟩ := List.forall₂_cons_left_iff.1 h
    obtain ⟨view', _, hview, h₂, rfl⟩ := List.forall₂_cons_left_iff.1 h₁
    obtain ⟨f0', _, hf0, hnil, rfl⟩ := List.forall₂_cons_left_iff.1 h₂
    cases hnil
    rw [template_fresnel] at hclean
    have hreflectance : ∀ s ∈ Op.reflectance.texts, A.Clean stem s := fun s hs =>
      hclean s ((Expr.texts_subst _ _).2 (Or.inl hs))
    have hcosine : ∀ s ∈ Op.cosine.texts, A.Clean stem s := fun s hs => by
      refine hclean s ((Expr.texts_subst _ _).2 (Or.inr ⟨1, by decide, ?_⟩))
      exact (Expr.texts_subst _ _).2 (Or.inl hs)
    obtain ⟨hgrows, hshared⟩ := hf0.share hb
    -- the cosine is declared after the shared argument, so its own arguments are faithful there
    have hcos : (Op.cosine.subst (pair normal.expr view.expr)).Faithful A stem
        (b.share stem f0).1 (Op.cosine.subst (pair normal'.expr view'.expr)) := by
      refine Expr.Guarded.faithful_subst (by decide) hcosine fun i _ => ?_
      cases i with
      | zero => exact hnormal.mono hgrows
      | succ i => exact hview.mono hgrows
    have hdeclared := hgrows.tidy.declare hcos.legible .float
    rw [run_fresnel, expand_fresnel]
    refine ⟨hgrows.trans hdeclared, ?_⟩
    refine Expr.Guarded.faithful_subst (by decide) hreflectance fun i _ => ?_
    cases i with
    | zero => exact hshared.mono hdeclared
    | succ i => exact hcos.declare .float

theorem faithful_settle {e : Expr} {code : Block × Operand} (shared trivial : Bool)
    (hgrows : b.Grows A stem code.1) (h : code.2.expr.Faithful A stem code.1 e) :
    b.Grows A stem (Emission.settle shared trivial code).1 ∧
      (Emission.settle shared trivial code).2.expr.Faithful A stem
        (Emission.settle shared trivial code).1 e := by
  unfold Emission.settle
  split
  · exact ⟨hgrows.trans (hgrows.tidy.declare h.legible code.2.ty), h.declare code.2.ty⟩
  · exact ⟨hgrows, h⟩

end Function

end ShaderFlow
