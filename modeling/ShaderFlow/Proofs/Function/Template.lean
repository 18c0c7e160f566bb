import ShaderFlow.Function.Basic
import ShaderFlow.Proofs.Code.Subst
import ShaderFlow.Proofs.Text.Tokens

/-!
# Templates of functions

The naive expression of a function is a template with its arguments filled in, one temporary of
the template for each slot (`Function.expand_expr_eq`). The texts of the template are the
function's own. They keep the arguments apart from each other and from the rest
(`Function.guarded_template`).

All functions but two mention each argument once and write no line (`Function.script_eq_answer`).
Nothing is known of the functions that a user has written.
-/

namespace ShaderFlow

/-! ### Marks between pieces -/

namespace Atom

/-- Whether the piece is a text that begins with a mark. -/
def opens : Atom → Bool
  | text s => s.toList.head?.any isMark
  | temporary _ => false

/-- Whether the piece is a text that ends with a mark. -/
def closes : Atom → Bool
  | text s => s.toList.getLast?.any isMark
  | temporary _ => false

theorem opens_append {s t : String} (h : (text s).opens = true) :
    (text (s ++ t)).opens = true := by
  simp only [opens, String.toList_append, List.head?_append] at h ⊢
  cases hs : s.toList.head? with
  | none => simp [hs] at h
  | some c => simpa [hs] using h

theorem closes_append {s t : String} (h : (text t).closes = true) :
    (text (s ++ t)).closes = true := by
  simp only [closes, String.toList_append, List.getLast?_append] at h ⊢
  cases ht : t.toList.getLast? with
  | none => simp [ht] at h
  | some c => simpa [ht] using h

end Atom

namespace Expr

variable {a b e : Expr} {s : String}

/-- Any two neighbouring pieces have a mark between them. -/
def Guarded (e : Expr) : Prop := e.atoms.IsChain fun a b => (a.closes || b.opens) = true

instance : Decidable e.Guarded :=
  inferInstanceAs (Decidable (e.atoms.IsChain fun a b => (a.closes || b.opens) = true))

theorem guarded_text (s : String) : (text s).Guarded := .singleton _

theorem guarded_temporary (i : Nat) : (temporary i).Guarded := .singleton _

theorem Guarded.append_text (h : e.Guarded) (hs : (Atom.text s).opens = true) :
    (e ++ text s).Guarded := by
  refine List.isChain_append.2 ⟨h, .singleton _, fun x _ y hy => ?_⟩
  cases hy
  simp [hs]

theorem Guarded.text_append (h : e.Guarded) (hs : (Atom.text s).closes = true) :
    (text s ++ e).Guarded := by
  refine List.isChain_append.2 ⟨.singleton _, h, fun x hx y _ => ?_⟩
  cases hx
  simp [hs]

theorem Guarded.between (ha : a.Guarded) (hb : b.Guarded) (hopens : (Atom.text s).opens = true)
    (hcloses : (Atom.text s).closes = true) : (a ++ text s ++ b).Guarded := by
  refine List.isChain_append.2 ⟨ha.append_text hopens, hb, fun x hx y _ => ?_⟩
  have hlast : (a ++ text s).atoms.getLast? = some (.text s) := by simp [text]
  cases hlast.symm.trans hx
  simp [hcloses]

theorem guarded_join {es : List Expr} (h : ∀ e ∈ es, e.Guarded) :
    (join (text ", ") es).Guarded := by
  induction es with
  | nil => exact .nil
  | cons e es ih =>
    have he := h e List.mem_cons_self
    have hes := ih fun e he => h e (List.mem_cons_of_mem _ he)
    cases es with
    | nil => exact he
    | cons e' es => exact he.between hes (by decide) (by decide)

theorem guarded_call (function : String) {es : List Expr} (h : ∀ e ∈ es, e.Guarded) :
    (call function es).Guarded := by
  exact Guarded.append_text
    (Guarded.text_append (guarded_join h) (Atom.closes_append (by decide))) (by decide)

end Expr

/-! ### Operations -/

/-- Operands that stand for the arguments of a function. -/
def placeholders (n : Nat) : List Operand := (List.range n).map (.temporary .float)

namespace Op

variable {args args' : List Operand} {D : Nat → Expr}

@[simp] theorem expr_operand (slot : Nat) : (operand args slot).expr = argument args slot := rfl

theorem argument_eq_getElem {slot : Nat} (h : slot < args.length) :
    argument args slot = args[slot].expr := by
  rw [argument, operand, List.getElem?_eq_getElem h, Option.getD_some]

theorem argument_subst (h : args.map Operand.expr = args'.map fun v => v.expr.subst D)
    (slot : Nat) : argument args slot = (argument args' slot).subst D := by
  have hlen : args.length = args'.length := by simpa using congrArg List.length h
  by_cases hslot : slot < args.length
  · have hget := congrArg (fun es : List Expr => es[slot]?) h
    simpa [argument_eq_getElem, hslot, hlen ▸ hslot] using hget
  · have hslot' : ¬slot < args'.length := hlen ▸ hslot
    rw [argument, argument, operand, operand, List.getElem?_eq_none (Nat.le_of_not_lt hslot),
      List.getElem?_eq_none (Nat.le_of_not_lt hslot')]
    rfl

theorem expand_split (input : Ty) (channel : Nat) :
    ((split input channel).script args).expand.expr =
      selectChannel input channel (argument args 0) := rfl

theorem expand_combine_of_isScalar {output : Ty} (h : output.isScalar = true) :
    ((combine output).script args).expand.expr = argument args 0 := by
  simp only [script, scriptWith, h]
  rfl

theorem expand_combine {output : Ty} (h : output.isScalar = false) :
    ((combine output).script args).expand.expr = .call output.name (args.map Operand.expr) := by
  simp only [script, scriptWith, h]
  rfl

theorem arity_combine_of_isScalar {output : Ty} (h : output.isScalar = true) :
    (combine output).signature.arity = 1 := by
  simp [signature, Signature.arity, Ty.channels_of_isScalar h]

theorem expand_combine_placeholders {output : Ty} (h : output.isScalar = true) :
    ((combine output).script (placeholders (combine output).signature.arity)).expand.expr =
      .temporary 0 := by
  rw [expand_combine_of_isScalar h, arity_combine_of_isScalar h]
  rfl

theorem selectChannel_subst (input : Ty) (channel : Nat) (e : Expr) :
    (selectChannel input channel e).subst D = selectChannel input channel (e.subst D) := by
  unfold selectChannel
  split_ifs <;> simp

/-- What an operation makes of its arguments, it makes of them after a substitution. -/
theorem expand_subst (op : Op) (h : args.map Operand.expr = args'.map fun v => v.expr.subst D) :
    (op.script args).expand.expr = ((op.script args').expand.expr).subst D := by
  have harg := argument_subst h
  have hcall : ∀ function, Expr.call function (args.map Operand.expr) =
      (Expr.call function (args'.map Operand.expr)).subst D := by
    simp [Expr.call, Expr.subst_join, h, Function.comp_def]
  cases op with
  | multiply ty =>
    simp only [script, scriptWith]
    split_ifs
    · exact hcall _
    · simp [Script.expand, binary, harg]
  | split input channel => rw [expand_split, expand_split, selectChannel_subst, harg]
  | combine output =>
    cases hscalar : output.isScalar with
    | false => rw [expand_combine hscalar, expand_combine hscalar, hcall]
    | true => rw [expand_combine_of_isScalar hscalar, expand_combine_of_isScalar hscalar, harg]
  | dot | cross | normalize | length | mix | clamp | call => exact hcall _
  | premultiply => simp [script, scriptWith, Script.expand, scaledByAlpha, harg]
  | fresnel => simp [script, scriptWith, Script.expand, cosineBetween, reflected, harg]
  | transformPoint | transformDirection =>
    simp [script, scriptWith, Script.expand, transform, harg]
  | add | subtract | scale | matrixMultiply =>
    simp [script, scriptWith, Script.expand, binary, harg]
  | saturate | swizzle | luminance => simp [script, scriptWith, Script.expand, harg]

/-- All operations but two write no line. -/
theorem script_eq_answer (op : Op) :
    (∀ args, op.script args = .answer (op.script args).expand) ∨ op = .premultiply ∨
      op = .fresnel := by
  cases op with
  | premultiply => exact Or.inr (Or.inl rfl)
  | fresnel => exact Or.inr (Or.inr rfl)
  | multiply ty =>
    refine Or.inl fun args => ?_
    simp only [script, scriptWith]
    split <;> rfl
  | combine output =>
    refine Or.inl fun args => ?_
    simp only [script, scriptWith]
    split <;> rfl
  | _ => exact Or.inl fun args => rfl

theorem guarded_placeholders (n : Nat) : ∀ e ∈ (placeholders n).map Operand.expr, e.Guarded := by
  intro e he
  simp only [placeholders, List.map_map, List.mem_map] at he
  obtain ⟨i, -, rfl⟩ := he
  exact Expr.guarded_temporary i

theorem guarded_expand (op : Op) :
    (op.script (placeholders op.signature.arity)).expand.expr.Guarded := by
  have hcall := fun function => Expr.guarded_call function
    (guarded_placeholders op.signature.arity)
  cases op with
  | multiply ty =>
    simp only [script, scriptWith]
    split
    · exact hcall _
    · exact of_decide_eq_true rfl
  | split input channel =>
    rw [expand_split, selectChannel]
    split_ifs
    · exact Expr.guarded_temporary 0
    · refine (Expr.guarded_temporary 0).append_text ?_
      simp only [String.append_assoc]
      exact Atom.opens_append rfl
    · exact (Expr.guarded_temporary 0).append_text (Atom.opens_append rfl)
  | swizzle input pattern =>
    exact (Expr.guarded_temporary 0).append_text (Atom.opens_append rfl)
  | combine output =>
    cases hscalar : output.isScalar with
    | true =>
      rw [expand_combine_placeholders hscalar]
      exact Expr.guarded_temporary 0
    | false =>
      rw [expand_combine hscalar]
      exact hcall _
  | dot | cross | normalize | length | mix | clamp | call => exact hcall _
  | _ => exact of_decide_eq_true rfl

theorem temporaries_placeholders (n : Nat) :
    ((placeholders n).map Operand.expr).flatMap Expr.temporaries = List.range n := by
  simp [placeholders, List.flatMap_map, Function.comp_def]

theorem temporaries_expand {op : Op} (hpremultiply : op ≠ .premultiply) (hfresnel : op ≠ .fresnel) :
    (op.script (placeholders op.signature.arity)).expand.expr.temporaries =
      List.range op.signature.arity := by
  have hcall : ∀ function, (Expr.call function
      ((placeholders op.signature.arity).map Operand.expr)).temporaries =
        List.range op.signature.arity := fun function => by
    rw [Expr.temporaries_call, temporaries_placeholders]
  cases op with
  | premultiply => exact absurd rfl hpremultiply
  | fresnel => exact absurd rfl hfresnel
  | multiply ty =>
    simp only [script, scriptWith]
    split
    · exact hcall _
    · rfl
  | split input channel =>
    rw [expand_split, selectChannel]
    split_ifs <;> rfl
  | combine output =>
    cases hscalar : output.isScalar with
    | true =>
      rw [expand_combine_placeholders hscalar, arity_combine_of_isScalar hscalar]
      rfl
    | false => rw [expand_combine hscalar, hcall]
  | dot | cross | normalize | length | mix | clamp | call => exact hcall _
  | _ => rfl

end Op

/-! ### Functions -/

namespace Function

variable {f : Function} {path : Option String}

/-- The function is not one that a user has written. -/
def IsOwn (f : Function) : Prop := ∀ u, f ≠ .user u

instance (f : Function) : Decidable f.IsOwn :=
  match f with
  | user u => .isFalse fun h => h u rfl
  | constant _ | builtin _ | sample _ | library .. => .isTrue fun _ h => by cases h

/-- The expression of a function, with temporaries for the arguments and nothing shared. Its texts
are what the function writes itself: fixed text, with the literal, the access expression, the
called name or the letters of a selection in it. -/
def template (f : Function) (path : Option String) : Expr :=
  (f.script path (placeholders f.signature.arity)).expand.expr

/-- The naive expression of a function is its template with the arguments filled in. -/
theorem expand_expr_eq (hf : f.IsOwn) {args : List Operand}
    (hlen : args.length = f.signature.arity) :
    (f.script path args).expand.expr = (f.template path).subst (Op.argument args) := by
  cases f with
  | constant value | builtin v => rfl
  | sample t => simp [template, script, scriptWith, Script.expand, signature, placeholders,
      Signature.arity, Op.argument_eq_getElem]
  | library op valid =>
    refine op.expand_subst (List.ext_getElem ?_ fun i hi _ => ?_)
    · simp [placeholders, hlen]
    · have hi' : i < args.length := by simpa using hi
      simp [placeholders, Op.argument_eq_getElem hi']
  | user u => exact absurd rfl (hf u)

theorem guarded_template (hf : f.IsOwn) : (f.template path).Guarded := by
  cases f with
  | constant value | builtin v => exact Expr.guarded_text _
  | sample t =>
    exact Expr.Guarded.append_text
      (Expr.Guarded.text_append (Expr.guarded_temporary 0) (Atom.closes_append rfl)) rfl
  | library op valid => exact op.guarded_expand
  | user u => exact absurd rfl (hf u)

/-- All functions but two write no line and mention each argument once. -/
theorem script_eq_answer (hf : f.IsOwn) (path : Option String) :
    ((∀ args, f.script path args = .answer (f.script path args).expand) ∧
        (f.template path).temporaries = List.range f.signature.arity) ∨
      (∃ valid, f = .library .premultiply valid) ∨ ∃ valid, f = .library .fresnel valid := by
  cases f with
  | constant value | builtin v | sample t => exact Or.inl ⟨fun args => rfl, rfl⟩
  | library op valid =>
    by_cases hpremultiply : op = .premultiply
    · subst hpremultiply
      exact Or.inr (Or.inl ⟨valid, rfl⟩)
    by_cases hfresnel : op = .fresnel
    · subst hfresnel
      exact Or.inr (Or.inr ⟨valid, rfl⟩)
    refine Or.inl ⟨?_, Op.temporaries_expand hpremultiply hfresnel⟩
    rcases op.script_eq_answer with h | h | h
    · exact h
    · exact absurd h hpremultiply
    · exact absurd h hfresnel
  | user u => exact absurd rfl (hf u)

end Function

end ShaderFlow
