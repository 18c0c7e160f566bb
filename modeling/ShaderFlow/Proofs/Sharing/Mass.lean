import Mathlib.Algebra.GroupWithZero.Nat
import ShaderFlow.Proofs.Function.Run
import ShaderFlow.Proofs.Stage.Step
import ShaderFlow.Proofs.Text.Ascii

/-!
# How often a character is written

The mass of a character in an expression is the number of times it stands in the texts of it.
For a character beyond the first 128 that the names of temporaries do not have, this is the number
of times it is written.

A function writes each of its arguments once: what it adds to the lines and what it answers have
the mass of its arguments and of the name it calls (`Function.mass_run`). An argument that is
mentioned more often is shared first, and what is left of it has no mass (`Block.mass_share`).
-/

namespace ShaderFlow

variable {c : Char} {stem : String}

/-! ### Expressions and lines -/

namespace Expr

variable {e : Expr}

/-- How often a character stands in the texts of an expression. -/
def mass (c : Char) (e : Expr) : Nat := (e.texts.map fun s => s.toList.count c).sum

@[simp]
theorem mass_empty : empty.mass c = 0 := rfl

@[simp]
theorem mass_text (s : String) : (text s).mass c = s.toList.count c := by
  simp [mass]

@[simp]
theorem mass_temporary (i : Nat) : (temporary i).mass c = 0 := rfl

@[simp]
theorem mass_append (a b : Expr) : (a ++ b).mass c = a.mass c + b.mass c := by
  simp [mass]

theorem mass_subst (D : Nat → Expr) (e : Expr) :
    (e.subst D).mass c = e.mass c + (e.temporaries.map fun i => (D i).mass c).sum := by
  obtain ⟨atoms⟩ := e
  simp only [subst, mass, texts, temporaries]
  induction atoms with
  | nil => rfl
  | cons a atoms ih =>
    cases a with
    | text s =>
      simp only [List.flatMap_cons, Atom.subst, List.singleton_append, List.filterMap_cons,
        Atom.text?, Atom.temporary?, List.map_cons, List.sum_cons, ih]
      omega
    | temporary i =>
      simp only [List.flatMap_cons, Atom.subst, List.filterMap_append, List.filterMap_cons,
        Atom.text?, Atom.temporary?, List.map_append, List.sum_append, List.map_cons,
        List.sum_cons, ih]
      omega

theorem mass_join (separator : String) (hsep : c ∉ separator.toList) (es : List Expr) :
    (join (text separator) es).mass c = (es.map (mass c)).sum := by
  induction es with
  | nil => rfl
  | cons e es ih =>
    cases es with
    | nil => simp [join]
    | cons e' es =>
      simp only [join, mass_append, mass_text, List.count_eq_zero_of_not_mem hsep, ih,
        List.map_cons, List.sum_cons, Nat.add_zero]

theorem mass_call (hc : 128 ≤ c.toNat) (function : String) (es : List Expr) :
    (call function es).mass c = function.toList.count c + (es.map (mass c)).sum := by
  have hopen : c ∉ "(".toList := IsAscii.not_mem (by decide) hc
  have hclose : c ∉ ")".toList := IsAscii.not_mem (by decide) hc
  rw [call, mass_append, mass_append, mass_join _ (IsAscii.not_mem (by decide) hc), mass_text,
    mass_text, String.toList_append, List.count_append, List.count_eq_zero_of_not_mem hopen,
    List.count_eq_zero_of_not_mem hclose, Nat.add_zero, Nat.add_zero]

theorem mass_eq_zero (hc : 128 ≤ c.toNat) (h : ∀ s ∈ e.texts, IsAscii s.toList) :
    e.mass c = 0 := by
  refine List.sum_eq_zero fun n hn => ?_
  obtain ⟨s, hs, rfl⟩ := List.mem_map.1 hn
  exact List.count_eq_zero_of_not_mem ((h s hs).not_mem hc)

theorem not_mem_name (hc : 128 ≤ c.toNat) (hstem : c ∉ stem.toList) (i : Nat) :
    c ∉ (Atom.name stem i).toList := by
  rw [Atom.name, String.toList_append, List.mem_append, not_or]
  exact ⟨hstem, (isAscii_repr i).not_mem hc⟩

/-- The mass is the number of times that a character is written. -/
theorem count_render (hc : 128 ≤ c.toNat) (hstem : c ∉ stem.toList) (e : Expr) :
    (e.render stem).toList.count c = e.mass c := by
  obtain ⟨atoms⟩ := e
  simp only [render, mass, texts, String.toList_join]
  induction atoms with
  | nil => rfl
  | cons a atoms ih =>
    cases a with
    | text s => simp [Atom.render, Atom.text?, ih]
    | temporary i =>
      simp [Atom.render, Atom.text?, List.filterMap_cons, ih,
        List.count_eq_zero_of_not_mem (not_mem_name hc hstem i)]

theorem mass_eq_zero_of_isPlain (hc : 128 ≤ c.toNat) (hstem : c ∉ stem.toList)
    (h : e.isPlain stem = true) : e.mass c = 0 := by
  rw [← count_render hc hstem]
  refine List.count_eq_zero_of_not_mem fun hmem => ?_
  exact absurd (isAscii_of_isNameChar (List.all_eq_true.1 h c hmem)) (Nat.not_lt.2 hc)

end Expr

/-- How often a character stands in the texts of a line. -/
def Line.mass (c : Char) : Line → Nat
  | declare _ _ e | statement e | assign _ e => e.mass c

namespace Block

variable {b : Block}

/-- How often a character stands in the texts of a block. -/
def mass (c : Char) (b : Block) : Nat := (b.lines.toList.map (Line.mass c)).sum

theorem mass_declare (ty : Ty) (e : Expr) : (b.declare ty e).mass c = b.mass c + e.mass c := by
  simp [mass, declare, Line.mass]

/-- Sharing puts the mass of an operand into the block. -/
theorem mass_share (hc : 128 ≤ c.toNat) (hstem : c ∉ stem.toList) (v : Operand) :
    (b.share stem v).1.mass c = b.mass c + v.expr.mass c ∧
      (b.share stem v).2.expr.mass c = 0 := by
  unfold share
  split
  next h =>
    -- what is not declared is a temporary or a plain name, and neither has mass
    have hzero : v.expr.mass c = 0 := by
      rcases Bool.or_eq_true_iff.1 h with htemporary | hplain
      · cases v with
        | inline ty e => cases htemporary
        | temporary ty i => rfl
      · exact Expr.mass_eq_zero_of_isPlain hc hstem hplain
    simp [hzero]
  next => exact ⟨mass_declare v.ty v.expr, rfl⟩

end Block

/-! ### Functions -/

theorem Function.exists_of_mem_calls? {f : Function} (h : c ∈ (f.calls?.getD "").toList) :
    ∃ name inputs output valid, f = .library (.call name inputs output) valid ∧
      c ∈ name.toList := by
  cases f with
  | library op valid =>
    cases op with
    | call name inputs output => exact ⟨name, inputs, output, valid, rfl, h⟩
    | _ => cases h
  | _ => cases h

theorem Op.mass_placeholders (n : Nat) :
    (((placeholders n).map Operand.expr).map (Expr.mass c)).sum = 0 := by
  refine List.sum_eq_zero fun m hm => ?_
  simp only [placeholders, List.map_map, List.mem_map] at hm
  obtain ⟨i, -, rfl⟩ := hm
  rfl

/-- All texts of an operation are plain but the name it calls. -/
theorem Op.mass_expand (hc : 128 ≤ c.toNat) {op : Op} (valid : op.check = .ok ()) :
    (op.script (placeholders op.signature.arity)).expand.expr.mass c =
      ((Function.library op valid).calls?.getD "").toList.count c := by
  have hcall : ∀ function, (Expr.call function
      ((placeholders op.signature.arity).map Operand.expr)).mass c = function.toList.count c := by
    intro function
    rw [Expr.mass_call hc, mass_placeholders, Nat.add_zero]
  have hfixed : ∀ function : String, IsAscii function.toList → (Expr.call function
      ((placeholders op.signature.arity).map Operand.expr)).mass c = 0 := by
    intro function hfunction
    rw [hcall, List.count_eq_zero_of_not_mem (hfunction.not_mem hc)]
  cases op with
  | call function inputs output => exact hcall function
  | dot | cross | normalize | length | mix | clamp => exact hfixed _ (by decide)
  | multiply ty =>
    simp only [script, scriptWith]
    split
    · exact hfixed _ (by decide)
    · exact Expr.mass_eq_zero hc (of_decide_eq_true rfl)
  | split input channel =>
    rw [expand_split, selectChannel]
    split_ifs
    · rfl
    · refine Expr.mass_eq_zero hc fun s hs => ?_
      cases List.mem_singleton.1 hs
      simp only [String.toList_append]
      exact (((IsAscii.append (by decide) (isAscii_repr _)).append (by decide)).append
        (isAscii_repr _)).append (by decide)
    · refine Expr.mass_eq_zero hc fun s hs => ?_
      cases List.mem_singleton.1 hs
      rw [String.toList_append]
      exact IsAscii.append (by decide) (isAscii_componentLetter channel)
  | swizzle input pattern =>
    -- the letters come from a caller, but a valid selection has no others
    refine Expr.mass_eq_zero hc fun s hs => ?_
    cases List.mem_singleton.1 hs
    rw [String.toList_append]
    have hselects : selects input pattern = true := by
      by_contra hnot
      simp [check, hnot] at valid
    exact IsAscii.append (by decide) (isAscii_pattern hselects)
  | combine output =>
    cases hscalar : output.isScalar with
    | true =>
      rw [expand_combine_placeholders hscalar]
      rfl
    | false =>
      rw [expand_combine hscalar, hfixed _ output.isAscii_name]
      rfl
  | _ => exact Expr.mass_eq_zero hc (of_decide_eq_true rfl)

namespace Function

variable {f : Function} {path : Option String} {args : List Operand} {b : Block}

theorem mass_template (hc : 128 ≤ c.toNat) (hf : f.IsOwn)
    (hpath : ∀ text, path = some text → c ∉ text.toList) :
    (f.template path).mass c = (f.calls?.getD "").toList.count c := by
  have haccess : ∀ fallback : String, IsAscii fallback.toList →
      c ∉ (path.getD fallback).toList := by
    intro fallback hfallback
    cases path with
    | none => exact hfallback.not_mem hc
    | some text => exact hpath text rfl
  cases f with
  | constant value =>
    exact Expr.mass_eq_zero hc fun s hs => List.mem_singleton.1 hs ▸ value.isAscii_text
  | builtin v =>
    have hname : IsAscii v.name.toList := by cases v <;> decide
    exact (Expr.mass_text _).trans (List.count_eq_zero_of_not_mem (haccess _ hname))
  | sample t =>
    have hopen : c ∉ "texture(".toList := IsAscii.not_mem (by decide) hc
    have hcomma : c ∉ ", ".toList := IsAscii.not_mem (by decide) hc
    have hclose : c ∉ ")".toList := IsAscii.not_mem (by decide) hc
    have hpath := haccess "textures[0]" (by decide)
    change (Expr.text ("texture(" ++ path.getD "textures[0]" ++ ", ") ++ .temporary 0 ++
      .text ")").mass c = 0
    simp only [Expr.mass_append, Expr.mass_text, Expr.mass_temporary, String.toList_append,
      List.count_append, List.count_eq_zero_of_not_mem hopen,
      List.count_eq_zero_of_not_mem hcomma, List.count_eq_zero_of_not_mem hclose,
      List.count_eq_zero_of_not_mem hpath, Nat.add_zero]
  | library op valid => exact Op.mass_expand hc valid
  | user u => exact absurd rfl (hf u)

theorem sum_mass_argument (args : List Operand) :
    ((List.range args.length).map fun i => (Op.argument args i).mass c).sum =
      (args.map fun v => v.expr.mass c).sum := by
  congr 1
  refine List.ext_getElem (by simp) fun i hi _ => ?_
  have hi' : i < args.length := by simpa using hi
  simp [Op.argument_eq_getElem hi']

/-- A function writes each of its arguments once. -/
theorem mass_run (hc : 128 ≤ c.toNat) (hstem : c ∉ stem.toList) (hf : f.IsOwn)
    (hlen : args.length = f.signature.arity) (path : Option String) (b : Block) :
    ((f.script path args).run stem b).1.mass c + ((f.script path args).run stem b).2.expr.mass c =
      b.mass c + (f.template path).mass c + (args.map fun v => v.expr.mass c).sum := by
  rcases script_eq_answer hf path with ⟨hanswer, hlinear⟩ | ⟨valid, rfl⟩ | ⟨valid, rfl⟩
  · -- the template mentions each argument once
    rw [hanswer args, Script.run, expand_expr_eq hf hlen, Expr.mass_subst, hlinear, ← hlen,
      sum_mass_argument, Nat.add_assoc]
  · -- the color is mentioned three times, but its mass is in the block by then
    obtain ⟨color, rfl⟩ := List.length_eq_one_iff.1 hlen
    obtain ⟨hblock, hzero⟩ := Block.mass_share (b := b) hc hstem color
    have htemporaries : Op.premultiplied.temporaries = [0, 0, 0] := rfl
    rw [run_premultiply, template_premultiply]
    simp only [Operand.expr_inline, Expr.mass_subst, hblock, hzero, htemporaries, List.map_cons,
      List.map_nil, List.sum_cons, List.sum_nil]
    omega
  · -- the two directions go into the declaration of the cosine, and the rest is shared
    obtain ⟨normal, view, f0, rfl⟩ := List.length_eq_three.1 hlen
    obtain ⟨hblock, hzero⟩ := Block.mass_share (b := b) hc hstem f0
    rw [run_fresnel, template_fresnel]
    have hcosine : Op.cosine.temporaries = [0, 1] := rfl
    have hreflectance : Op.reflectance.temporaries = [0, 0, 1] := rfl
    simp only [Operand.expr_inline, Expr.mass_subst, Block.mass_declare, hblock, hcosine,
      hreflectance, List.map_cons, List.map_nil, List.sum_cons, List.sum_nil, pair, hzero,
      Expr.mass_temporary]
    omega

/-- A value that is cheap enough to be written at every use has no mass. -/
theorem mass_of_isTrivial (hc : 128 ≤ c.toNat) (hf : f.IsOwn)
    (hpath : ∀ text, path = some text → c ∉ text.toList) (htrivial : f.isTrivial = true) :
    ((f.script path args).run stem b).2.expr.mass c = 0 := by
  have htemplate := mass_template hc hf hpath
  cases f with
  | constant value | builtin v => exact htemplate
  | sample t | library op valid => cases htrivial
  | user u => exact absurd rfl (hf u)

end Function

namespace Emission

variable {o : Options} {n : Node} {args : List Operand} {path : Option String} {b : Block}

/-- The code of a node has the mass of its arguments and of the name it calls, and none of it is
left in a value that is used more than once. -/
theorem mass_code (hc : 128 ≤ c.toNat) (hstem : c ∉ o.stem.toList) (hf : n.function.IsOwn)
    (hlen : args.length = n.function.signature.arity)
    (hpath : ∀ text, path = some text → c ∉ text.toList) (shared : Bool) :
    (code o shared n args path b).1.mass c + (code o shared n args path b).2.expr.mass c =
        b.mass c + (n.function.calls?.getD "").toList.count c +
          (args.map fun v => v.expr.mass c).sum ∧
      (shared = true → (code o shared n args path b).2.expr.mass c = 0) := by
  have hrun := Function.mass_run hc hstem hf hlen path b
  rw [Function.mass_template hc hf hpath] at hrun
  unfold code settle
  split
  next =>
    refine ⟨?_, fun _ => rfl⟩
    rw [Block.mass_declare, ← hrun]
    rfl
  next hkeep =>
    refine ⟨hrun, fun hshared => ?_⟩
    cases htrivial : n.function.isTrivial with
    | true => exact Function.mass_of_isTrivial hc hf hpath htrivial
    | false =>
      simp only [hshared, htrivial, Bool.true_and, Bool.not_false, Bool.and_true,
        Bool.not_eq_true', Bool.not_eq_false] at hkeep
      cases hvalue : ((n.function.script path args).run o.stem b).2 with
      | inline ty e => simp [hvalue, Operand.isTemporary] at hkeep
      | temporary ty i => rfl

end Emission

end ShaderFlow
