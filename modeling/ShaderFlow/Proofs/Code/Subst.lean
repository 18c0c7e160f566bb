import Mathlib.Algebra.BigOperators.Group.List.Basic
import ShaderFlow.Code.Script

/-!
# Expressions in place of temporaries

`Expr.subst` puts expressions in the place of temporaries, and `Expr.renderWith` texts. Both go
through the pieces one by one, so what is known of the texts and the temporaries of an expression
is known of the result.
-/

namespace ShaderFlow

namespace Atom

/-- The text of a piece. -/
def text? : Atom → Option String
  | text s => some s
  | temporary _ => none

/-- The number of the temporary that a piece refers to. -/
def temporary? : Atom → Option Nat
  | text _ => none
  | temporary i => some i

/-- The pieces that stand for a piece. -/
def subst (D : Nat → Expr) : Atom → List Atom
  | text s => [text s]
  | temporary i => (D i).atoms

/-- The piece as text, with a text for each temporary. -/
def renderWith (D : Nat → String) : Atom → String
  | text s => s
  | temporary i => D i

end Atom

namespace Expr

variable {a b e : Expr} {D : Nat → Expr}

/-- The texts of an expression in order. -/
def texts (e : Expr) : List String := e.atoms.filterMap Atom.text?

/-- The temporaries that an expression refers to, in order. -/
def temporaries (e : Expr) : List Nat := e.atoms.filterMap Atom.temporary?

/-- The expression with another one in the place of each temporary. -/
def subst (D : Nat → Expr) (e : Expr) : Expr := ⟨e.atoms.flatMap (Atom.subst D)⟩

/-- The expression as text, with a text for each temporary. -/
def renderWith (D : Nat → String) (e : Expr) : String :=
  String.join (e.atoms.map (Atom.renderWith D))

theorem render_eq_renderWith (stem : String) (e : Expr) :
    e.render stem = e.renderWith (Atom.name stem) := by
  have hatom : Atom.render stem = Atom.renderWith (Atom.name stem) := by
    funext a
    cases a <;> rfl
  rw [render, renderWith, hatom]

/-! ### Parts of expressions -/

@[simp]
theorem texts_empty : empty.texts = [] := rfl

@[simp]
theorem texts_text (s : String) : (text s).texts = [s] := rfl

@[simp]
theorem texts_temporary (i : Nat) : (temporary i).texts = [] := rfl

@[simp]
theorem texts_append (a b : Expr) : (a ++ b).texts = a.texts ++ b.texts := by
  simp [texts]

@[simp]
theorem temporaries_empty : empty.temporaries = [] := rfl

@[simp]
theorem temporaries_text (s : String) : (text s).temporaries = [] := rfl

@[simp]
theorem temporaries_temporary (i : Nat) : (temporary i).temporaries = [i] := rfl

@[simp]
theorem temporaries_append (a b : Expr) :
    (a ++ b).temporaries = a.temporaries ++ b.temporaries := by
  simp [temporaries]

@[simp]
theorem subst_empty (D : Nat → Expr) : empty.subst D = empty := rfl

@[simp]
theorem subst_text (D : Nat → Expr) (s : String) : (text s).subst D = text s := rfl

@[simp]
theorem subst_temporary (D : Nat → Expr) (i : Nat) : (temporary i).subst D = D i := by
  simp [subst, temporary, Atom.subst]

@[simp]
theorem subst_append (D : Nat → Expr) (a b : Expr) :
    (a ++ b).subst D = a.subst D ++ b.subst D := by
  ext1
  simp [subst]

@[simp]
theorem renderWith_text (D : Nat → String) (s : String) : (text s).renderWith D = s := by
  simp [renderWith, text, Atom.renderWith]

@[simp]
theorem renderWith_temporary (D : Nat → String) (i : Nat) : (temporary i).renderWith D = D i := by
  simp [renderWith, temporary, Atom.renderWith]

theorem subst_join (D : Nat → Expr) (separator : String) (es : List Expr) :
    (join (text separator) es).subst D = join (text separator) (es.map (subst D)) := by
  induction es with
  | nil => rfl
  | cons e es ih =>
    cases es with
    | nil => rfl
    | cons e' es =>
      simp only [List.map_cons, join, subst_append, subst_text] at ih ⊢
      rw [ih]

theorem temporaries_join (separator : String) (es : List Expr) :
    (join (text separator) es).temporaries = es.flatMap temporaries := by
  induction es with
  | nil => rfl
  | cons e es ih =>
    cases es with
    | nil => simp [join]
    | cons e' es =>
      simp only [join, temporaries_append, temporaries_text, ih, List.flatMap_cons]
      simp

theorem temporaries_call (function : String) (es : List Expr) :
    (call function es).temporaries = es.flatMap temporaries := by
  simp [call, temporaries_join]

/-! ### Expressions after substitution -/

theorem texts_subst (D : Nat → Expr) (e : Expr) {s : String} :
    s ∈ (e.subst D).texts ↔ s ∈ e.texts ∨ ∃ i ∈ e.temporaries, s ∈ (D i).texts := by
  obtain ⟨atoms⟩ := e
  simp only [subst, texts, temporaries]
  induction atoms with
  | nil => simp
  | cons a atoms ih =>
    cases a with
    | text t => simp [Atom.subst, Atom.text?, Atom.temporary?, ih, or_assoc]
    | temporary i => simp [Atom.subst, Atom.text?, Atom.temporary?, ih, or_left_comm]

theorem temporaries_subst (D : Nat → Expr) (e : Expr) :
    (e.subst D).temporaries = e.temporaries.flatMap fun i => (D i).temporaries := by
  obtain ⟨atoms⟩ := e
  simp only [subst, temporaries]
  induction atoms with
  | nil => rfl
  | cons a atoms ih =>
    cases a with
    | text t => simpa [Atom.subst, Atom.temporary?, List.filterMap_cons] using ih
    | temporary i => simpa [Atom.subst, Atom.temporary?, List.filterMap_cons] using ih

theorem renderWith_subst (T : Nat → String) (D : Nat → Expr) (e : Expr) :
    (e.subst D).renderWith T = e.renderWith fun i => (D i).renderWith T := by
  obtain ⟨atoms⟩ := e
  simp only [subst, renderWith]
  induction atoms with
  | nil => rfl
  | cons a atoms ih =>
    cases a with
    | text t => simpa [Atom.subst, Atom.renderWith] using ih
    | temporary i => simpa [Atom.subst, Atom.renderWith, String.join_append] using ih

theorem renderWith_congr {T T' : Nat → String} (h : ∀ i ∈ e.temporaries, T i = T' i) :
    e.renderWith T = e.renderWith T' := by
  obtain ⟨atoms⟩ := e
  refine congrArg String.join (List.map_congr_left fun a ha => ?_)
  cases a with
  | text t => rfl
  | temporary i => exact h i (List.mem_filterMap.2 ⟨_, ha, rfl⟩)

end Expr

namespace Operand

@[simp]
theorem expr_inline (ty : Ty) (e : Expr) : (inline ty e).expr = e := rfl

@[simp]
theorem expr_temporary (ty : Ty) (i : Nat) : (temporary ty i).expr = .temporary i := rfl

end Operand

end ShaderFlow
