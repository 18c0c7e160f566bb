import ShaderFlow.Capability
import ShaderFlow.Function.Op
import ShaderFlow.Literal

/-!
# Functions of nodes

A node computes one function: a literal, a builtin of the backend, a texture sample, an operation
of the library, or a function that the user has written. A library operation comes with the proof
that it exists for its types, and a user's function with the proof that it answers no temporary
it has not been given or declared.
-/

namespace ShaderFlow

/-- A function that the user has written. -/
structure UserFunction where
  /-- The name. -/
  name : String
  /-- The inputs and the output. -/
  signature : Signature
  /-- What it depends on. -/
  requirement : Option Requirement
  /-- Whether its value is cheap enough to be written out at every use. -/
  isTrivial : Bool
  /-- The code, given the access expression of what it depends on and the arguments. -/
  script : Option String → List Operand → Script
  /-- A temporary that it answers was given or declared. -/
  honest : ∀ access args, (script access args).Honest args

/-- What a node computes. -/
inductive Function where
  /-- A literal. -/
  | constant (value : Literal)
  /-- A value that the backend provides. -/
  | builtin (b : Builtin)
  /-- A texture at given coordinates. -/
  | sample (t : Texture)
  /-- An operation of the library. -/
  | library (op : Op) (valid : op.check = .ok ())
  /-- A function that the user has written. -/
  | user (f : UserFunction)

namespace Function

/-- The operation of the library, if it exists for its types. -/
def ofOp (op : Op) : Except Error Function :=
  match h : op.check with
  | .ok () => .ok (.library op h)
  | .error e => .error e

/-- The name of the function. -/
def name : Function → String
  | constant _ => "constant"
  | builtin b => b.name
  | sample _ => "texture_sample"
  | library op _ => op.name
  | user f => f.name

/-- The inputs and the output. -/
def signature : Function → Signature
  | constant value => .leaf value.ty
  | builtin b => .leaf b.ty
  | sample _ => ⟨[⟨"uv", .vec2⟩], .vec4⟩
  | library op _ => op.signature
  | user f => f.signature

/-- What the function depends on. -/
def requirement : Function → Option Requirement
  | builtin b => some (.builtin b)
  | sample t => some (.texture t)
  | user f => f.requirement
  | constant _ | library .. => none

/-- Whether the value is cheap enough to be written out at every use. -/
def isTrivial : Function → Bool
  | constant _ | builtin _ => true
  | sample _ | library .. => false
  | user f => f.isTrivial

/-- The code, given the access expression of what the function depends on and the arguments; those
that it reads by slot are looked up by `arg`. What a user's function reads is its own matter. -/
def scriptWith {m : Type → Type} [Monad m] (arg : Nat → m Operand) :
    Function → Option String → List Operand → m Script
  | constant value, _, _ => return .answer (.inline value.ty (.text value.text))
  | builtin b, access, _ => return .answer (.inline b.ty (.text (access.getD b.name)))
  | sample _, access, _ =>
    return .answer (.inline .vec4 (.text ("texture(" ++ access.getD "textures[0]" ++ ", ") ++
      (← arg 0).expr ++ .text ")"))
  | library op _, _, args => op.scriptWith arg args
  | user f, access, args => return f.script access args

/-- The code, given the access expression of what the function depends on and the arguments. -/
def script (f : Function) (access : Option String) (args : List Operand) : Script :=
  Id.run (f.scriptWith (fun slot => pure (Op.operand args slot)) access args)

/-- A temporary that a function answers was given or declared. -/
theorem script_honest (f : Function) (access : Option String) (args : List Operand) :
    (f.script access args).Honest args := by
  cases f with
  | library op _ => exact op.script_honest args
  | user f => exact f.honest access args
  | _ => simp [script, scriptWith, Script.Honest, Operand.isTemporary]

end Function

end ShaderFlow
