import ShaderFlow.Code.Block

/-!
# Scripts

A script says how a function's code is written: which temporaries it declares, which statements
it adds, and which value it answers. It is data, so the same script can be given two meanings.

* `Script.run` writes the lines into a block and answers the value;
* `Script.expand` writes no line: each temporary is replaced by the expression it would hold.

`Script.Honest` says that a script answers no temporary but one it was given or has declared.
-/

namespace ShaderFlow

/-- Code that is still to be written. -/
inductive Script where
  /-- Declares a temporary and goes on with it. -/
  | declare (ty : Ty) (value : Expr) (next : Operand → Script)
  /-- Goes on with a value that may be mentioned more than once: a temporary stands in for it
  unless it is a temporary or a plain name already. -/
  | share (value : Operand) (next : Operand → Script)
  /-- Adds a raw statement. -/
  | statement (text : Expr) (next : Script)
  /-- Answers a value. -/
  | answer (value : Operand)

namespace Script

/-- Writes the code into a block. -/
def run (stem : String) : Script → Block → Block × Operand
  | declare ty value next, b => run stem (next (b.fresh ty)) (b.declare ty value)
  | share value next, b =>
    if value.isTemporary || value.expr.isPlain stem then run stem (next value) b
    else run stem (next (b.fresh value.ty)) (b.declare value.ty value.expr)
  | statement text next, b => run stem next (b.push (.statement text))
  | answer value, b => (b, value)

/-- The value as one expression in which nothing is shared. -/
def expand : Script → Operand
  | declare ty value next => expand (next (.inline ty value))
  | share value next => expand (next value)
  | statement _ next => expand next
  | answer value => value

/-- Every temporary that the script may answer is among `known` or declared by the script. -/
def Honest (known : List Operand) : Script → Prop
  | declare ty _ next =>
    ∀ index, Honest (.temporary ty index :: known) (next (.temporary ty index))
  | share value next =>
    Honest known (next value) ∧
      ∀ index, Honest (.temporary value.ty index :: known) (next (.temporary value.ty index))
  | statement _ next => Honest known next
  | answer value => value.isTemporary = true → value ∈ known

end Script

end ShaderFlow
