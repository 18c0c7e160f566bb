import ShaderFlow.Proofs.Function.Template

/-!
# The code of the functions that write lines

Two functions mention an argument more than once, and so share it first. One of them declares a
temporary of its own as well. `Block.share` is what sharing does to a block, and
`Function.run_premultiply` and `Function.run_fresnel` say what the two functions write.
-/

namespace ShaderFlow

/-- The block and the operand after an operand is shared. -/
def Block.share (stem : String) (b : Block) (v : Operand) : Block × Operand :=
  if v.isTemporary || v.expr.isPlain stem then (b, v) else (b.declare v.ty v.expr, b.fresh v.ty)

theorem Script.run_share (stem : String) (v : Operand) (next : Operand → Script) (b : Block) :
    (share v next).run stem b = (next (b.share stem v).2).run stem (b.share stem v).1 := by
  rw [run, Block.share]
  split <;> rfl

namespace Op

/-- The template of a color with its channels scaled by its alpha. -/
def premultiplied : Expr := scaledByAlpha (.temporary 0)

/-- The template of the cosine between two directions. -/
def cosine : Expr := cosineBetween (.temporary 0) (.temporary 1)

/-- The template of the share of light reflected, by the share at a right angle and a cosine. -/
def reflectance : Expr := reflected (.temporary 0) (.temporary 1)

end Op

/-- Two expressions in the place of the first two temporaries. -/
def pair (a b : Expr) : Nat → Expr
  | 0 => a
  | _ => b

namespace Function

variable {stem : String} {path : Option String} {b : Block}

/-- The name that the function calls, if its caller has chosen one. -/
def calls? : Function → Option String
  | library (.call function _ _) _ => some function
  | _ => none

theorem run_premultiply (valid : Op.premultiply.check = .ok ()) (color : Operand) :
    ((library .premultiply valid).script path [color]).run stem b =
      ((b.share stem color).1,
        .inline .vec4 (Op.premultiplied.subst fun _ => (b.share stem color).2.expr)) := by
  simp [script, scriptWith, Op.scriptWith, Script.run_share, Script.run, Op.premultiplied,
    Op.scaledByAlpha, Op.signature, Op.operand]

theorem expand_premultiply (valid : Op.premultiply.check = .ok ()) (color : Operand) :
    ((library .premultiply valid).script path [color]).expand =
      .inline .vec4 (Op.premultiplied.subst fun _ => color.expr) := by
  simp [script, scriptWith, Op.scriptWith, Script.expand, Op.premultiplied, Op.scaledByAlpha,
    Op.signature, Op.operand]

theorem template_premultiply (valid : Op.premultiply.check = .ok ()) :
    (library .premultiply valid).template path = Op.premultiplied := rfl

theorem run_fresnel (valid : Op.fresnel.check = .ok ()) (normal view f0 : Operand) :
    ((library .fresnel valid).script path [normal, view, f0]).run stem b =
      ((b.share stem f0).1.declare .float (Op.cosine.subst (pair normal.expr view.expr)),
        .inline .float (Op.reflectance.subst
          (pair (b.share stem f0).2.expr (.temporary (b.share stem f0).1.next)))) := by
  simp [script, scriptWith, Op.scriptWith, Script.run_share, Script.run, Op.cosine,
    Op.cosineBetween, Op.reflectance, Op.reflected, Op.signature, Op.operand, pair, Block.fresh]

theorem expand_fresnel (valid : Op.fresnel.check = .ok ()) (normal view f0 : Operand) :
    ((library .fresnel valid).script path [normal, view, f0]).expand =
      .inline .float (Op.reflectance.subst
        (pair f0.expr (Op.cosine.subst (pair normal.expr view.expr)))) := by
  simp [script, scriptWith, Op.scriptWith, Script.expand, Op.cosine, Op.cosineBetween,
    Op.reflectance, Op.reflected, Op.signature, Op.operand, pair]

theorem template_fresnel (valid : Op.fresnel.check = .ok ()) :
    (library .fresnel valid).template path = Op.reflectance.subst (pair (.temporary 2)
      (Op.cosine.subst (pair (.temporary 0) (.temporary 1)))) := rfl

end Function

end ShaderFlow
