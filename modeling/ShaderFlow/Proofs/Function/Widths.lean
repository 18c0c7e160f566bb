import ShaderFlow.Proofs.Function.Run

/-!
# Arguments that are there, values that are as wide as they should be

The code of a function reads its arguments by slot, and what is missing counts as empty. With the
arguments that the signature asks for, nothing is missing: with lookups that fail for a missing
argument the code is there and is the same (`Function.script?_eq_some`).

The value that a function answers has the type of its output. Only a scalar that is put together
from one channel is different: its value is the argument, and so of the same kind as the argument.
Whatever is seen of types, be it the number of channels or the whole type, a function keeps it: if
the arguments look like the inputs, the value looks like the output (`Function.keeps_of_isOwn`).
-/

namespace ShaderFlow

/-! ### Arguments -/

namespace Op

/-- The code of the operation with each argument that it reads looked up, if all are there. -/
def script? (op : Op) (args : List Operand) : Option Script :=
  op.scriptWith (fun slot => args[slot]?) args

/-- An operation reads no argument but those of its inputs. -/
theorem script?_eq_some {op : Op} {args : List Operand}
    (hlen : args.length = op.signature.arity) : op.script? args = some (op.script args) := by
  cases op with
  | dot | cross | normalize | length | mix | clamp | call => rfl
  | multiply ty =>
    obtain ⟨a, b, rfl⟩ := List.length_eq_two.1 hlen
    simp only [script?, script, scriptWith]
    split <;> rfl
  | combine output =>
    simp only [script?, script, scriptWith]
    split
    next hscalar =>
      rw [arity_combine_of_isScalar hscalar] at hlen
      obtain ⟨value, rfl⟩ := List.length_eq_one_iff.1 hlen
      rfl
    next => rfl
  | add | subtract | scale | matrixMultiply | transformPoint | transformDirection =>
    obtain ⟨a, b, rfl⟩ := List.length_eq_two.1 hlen
    rfl
  | saturate | swizzle | split | premultiply | luminance =>
    obtain ⟨a, rfl⟩ := List.length_eq_one_iff.1 hlen
    rfl
  | fresnel =>
    obtain ⟨a, b, c, rfl⟩ := List.length_eq_three.1 hlen
    rfl

end Op

namespace Function

/-- The code of a function with each argument that it reads looked up, if all are there. -/
def script? (f : Function) (access : Option String) (args : List Operand) : Option Script :=
  f.scriptWith (fun slot => args[slot]?) access args

/-- With as many arguments as there are inputs, no argument that a function reads is missing. -/
theorem script?_eq_some {f : Function} {args : List Operand}
    (hlen : args.length = f.signature.arity) (path : Option String) :
    f.script? path args = some (f.script path args) := by
  cases f with
  | constant value | builtin v | user u => rfl
  | sample t =>
    obtain ⟨coordinates, rfl⟩ := List.length_eq_one_iff.1 hlen
    rfl
  | library op valid => exact Op.script?_eq_some hlen

end Function

/-! ### Values -/

namespace Op

variable {args : List Operand}

/-- The value of an operation has the type of its output, or the operation passes on its only
argument as a scalar. -/
theorem run_ty (op : Op) (hlen : args.length = op.signature.arity) (stem : String) (b : Block) :
    ((op.script args).run stem b).2.ty = op.signature.output ∨
      ∃ output value, op = .combine output ∧ output.isScalar = true ∧ args = [value] ∧
        ((op.script args).run stem b).2 = value := by
  cases op with
  | multiply ty =>
    refine Or.inl ?_
    simp only [script, scriptWith]
    split <;> rfl
  | combine output =>
    simp only [script, scriptWith]
    split
    next hscalar =>
      rw [arity_combine_of_isScalar hscalar] at hlen
      obtain ⟨value, rfl⟩ := List.length_eq_one_iff.1 hlen
      exact Or.inr ⟨output, value, rfl, hscalar, rfl, rfl⟩
    next => exact Or.inl rfl
  | premultiply =>
    refine Or.inl ?_
    simp only [script, scriptWith, pure_bind, Id.run_pure, Script.run_share]
    rfl
  | fresnel =>
    refine Or.inl ?_
    simp only [script, scriptWith, pure_bind, Id.run_pure, Script.run_share]
    rfl
  | _ => exact Or.inl rfl

end Op

namespace Function

/-- Whatever is seen of types, a value looks like the output if the arguments look like the
inputs. -/
def Keeps {α : Type} (look : Ty → α) (f : Function) : Prop :=
  ∀ path args stem b, args.map (fun v => look v.ty) = f.signature.inputs.map (fun i => look i.ty) →
    look ((f.script path args).run stem b).2.ty = look f.signature.output

/-- The leaves and the operations of the library keep what is seen of types. -/
theorem keeps_of_isOwn {α : Type} (look : Ty → α) {f : Function} (hf : f.IsOwn) :
    f.Keeps look := by
  intro path args stem b hargs
  cases f with
  | constant value | builtin v | sample t => rfl
  | library op valid =>
    have hlen : args.length = op.signature.inputs.length := by
      simpa [signature] using congrArg List.length hargs
    rcases op.run_ty hlen stem b with hty | ⟨output, value, rfl, hscalar, rfl, hrun⟩
    · exact congrArg look hty
    · -- the argument looks like the input, which is of the type of the output
      have hvalue : look value.ty = look output.element := by
        simpa [signature, Op.signature, Ty.channels_of_isScalar hscalar] using hargs
      change look (((Op.combine output).script [value]).run stem b).2.ty = look output
      rw [hrun, hvalue, Ty.element_of_isScalar hscalar]
  | user u => exact absurd rfl (hf u)

end Function

end ShaderFlow
