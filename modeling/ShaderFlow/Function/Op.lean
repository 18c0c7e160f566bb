import ShaderFlow.Code.Script
import ShaderFlow.Error
import ShaderFlow.Signature

/-!
# The library of operations

Each operation has a signature and a script that writes its code. Some exist for certain types
only; `Op.check` says which, and why the others are refused.

An operation that mentions an operand more than once shares it first, so no operand is ever
computed twice.
-/

namespace ShaderFlow

/-- An operation of the library, with the types it works on. -/
inductive Op where
  /-- The sum, channel by channel. -/
  | add (ty : Ty)
  /-- The difference, channel by channel. -/
  | subtract (ty : Ty)
  /-- The product, channel by channel. -/
  | multiply (ty : Ty)
  /-- The product with a scalar. -/
  | scale (ty : Ty)
  /-- The inner product. -/
  | dot (ty : Ty)
  /-- The vector product in three dimensions. -/
  | cross (ty : Ty)
  /-- The vector of length one with the same direction. -/
  | normalize (ty : Ty)
  /-- The length of a vector. -/
  | length (ty : Ty)
  /-- The blend of two values by a scalar. -/
  | mix (ty : Ty)
  /-- The nearest value between two bounds, channel by channel. -/
  | clamp (ty : Ty)
  /-- The nearest value between zero and one, channel by channel. -/
  | saturate (ty : Ty)
  /-- A selection of components by their letters. -/
  | swizzle (input : Ty) (pattern : String)
  /-- One channel; those of a matrix are counted column by column. -/
  | split (input : Ty) (channel : Nat)
  /-- A vector of given channels. -/
  | combine (output : Ty)
  /-- A point moved by a matrix. -/
  | transformPoint
  /-- A direction turned by a matrix. -/
  | transformDirection
  /-- The product of a matrix with a matrix or a column. -/
  | matrixMultiply (lhs rhs : Ty)
  /-- A color with its channels scaled by its alpha. -/
  | premultiply
  /-- The brightness of a linear color. -/
  | luminance
  /-- The share of light that a surface reflects at an angle. -/
  | fresnel
  /-- A call of a function that the shading language or the backend has. -/
  | call (function : String) (inputs : List Input) (output : Ty)
  deriving DecidableEq

namespace Op

/-! ### Which types an operation works on -/

/-- Real scalars and vectors only. -/
def requireReal (ty : Ty) : Except Error Unit :=
  if ty.scalar.isReal && !ty.isMatrix then .ok () else .error (.invalidType ty.scalar ty.channels)

/-- The letters of the components of a vector, in the three spellings. -/
def letterSets : List (List Char) :=
  [['x', 'y', 'z', 'w'], ['r', 'g', 'b', 'a'], ['s', 't', 'p', 'q']]

/-- A selection takes one to four letters of one spelling, and only components that are there. -/
def selects (input : Ty) (pattern : String) : Bool :=
  decide (1 ≤ pattern.utf8ByteSize) && decide (pattern.utf8ByteSize ≤ 4) && !input.isMatrix &&
    letterSets.any fun letters =>
      pattern.toList.all fun c => decide (letters.idxOf c < input.channels)

/-- The right side of a matrix product is a matrix of the same type, or a column of the same
kind with as many rows. -/
def multiplies (lhs rhs : Ty) : Bool :=
  lhs.isMatrix && lhs.scalar == rhs.scalar &&
    (rhs == lhs || (!rhs.isMatrix && rhs.channels == lhs.rows))

/-- Whether the operation exists for its types, and why not. -/
def check : Op → Except Error Unit
  | multiply ty =>
    if ty.scalar = .bool then .error (.invalidType ty.scalar ty.channels) else .ok ()
  | dot ty | normalize ty | length ty | saturate ty => requireReal ty
  | cross ty =>
    (requireReal ty).bind fun _ =>
      if ty.channels = 3 then .ok () else .error (.typeMismatch .cross 0 3 ty.channels)
  | swizzle input pattern =>
    if selects input pattern then .ok ()
    else .error (.typeMismatch (.swizzle pattern) 0 pattern.utf8ByteSize input.channels)
  | split input channel =>
    if channel < input.channels then .ok ()
    else .error (.typeMismatch (.split channel) 0 (channel + 1) input.channels)
  | combine output =>
    if output.isMatrix then .error (.invalidType output.scalar output.channels) else .ok ()
  | matrixMultiply lhs rhs =>
    if multiplies lhs rhs then .ok ()
    else .error (.typeMismatch (.product lhs rhs) 1 lhs.rows rhs.channels)
  | _ => .ok ()

/-! ### Names and signatures -/

/-- The name of the operation. -/
def name : Op → String
  | add _ => "add"
  | subtract _ => "subtract"
  | multiply _ => "multiply"
  | scale _ => "scale"
  | dot _ => "dot"
  | cross _ => "cross"
  | normalize _ => "normalize"
  | length _ => "length"
  | mix _ => "mix"
  | clamp _ => "clamp"
  | saturate _ => "saturate"
  | swizzle .. => "swizzle"
  | split .. => "split"
  | combine _ => "combine"
  | transformPoint => "transform_point"
  | transformDirection => "transform_direction"
  | matrixMultiply .. => "matrix_multiply"
  | premultiply => "premultiply"
  | luminance => "luminance"
  | fresnel => "fresnel"
  | call function .. => function

/-- The inputs and the output of the operation. -/
def signature : Op → Signature
  | add ty | subtract ty | multiply ty | cross ty => ⟨[⟨"a", ty⟩, ⟨"b", ty⟩], ty⟩
  | scale ty => ⟨[⟨"value", ty⟩, ⟨"factor", ty.element⟩], ty⟩
  | dot ty => ⟨[⟨"a", ty⟩, ⟨"b", ty⟩], ty.element⟩
  | normalize ty | saturate ty => ⟨[⟨"value", ty⟩], ty⟩
  | length ty => ⟨[⟨"value", ty⟩], ty.element⟩
  | mix ty => ⟨[⟨"a", ty⟩, ⟨"b", ty⟩, ⟨"factor", ty.element⟩], ty⟩
  | clamp ty => ⟨[⟨"value", ty⟩, ⟨"min", ty⟩, ⟨"max", ty⟩], ty⟩
  | swizzle input pattern => ⟨[⟨"value", input⟩], .vector input.scalar pattern.utf8ByteSize⟩
  | split input _ => ⟨[⟨"value", input⟩], input.element⟩
  | combine output =>
    ⟨(["x", "y", "z", "w"].take output.channels).map (⟨·, output.element⟩), output⟩
  | transformPoint => ⟨[⟨"matrix", .mat4⟩, ⟨"point", .vec3⟩], .vec3⟩
  | transformDirection => ⟨[⟨"matrix", .mat4⟩, ⟨"direction", .vec3⟩], .vec3⟩
  | matrixMultiply lhs rhs => ⟨[⟨"lhs", lhs⟩, ⟨"rhs", rhs⟩], rhs⟩
  | premultiply => ⟨[⟨"color", .vec4⟩], .vec4⟩
  | luminance => ⟨[⟨"color", .vec3⟩], .float⟩
  | fresnel => ⟨[⟨"normal", .vec3⟩, ⟨"view", .vec3⟩, ⟨"f0", .float⟩], .float⟩
  | call _ inputs output => ⟨inputs, output⟩

/-! ### Code -/

/-- An argument; one that is missing has no text. -/
def operand (args : List Operand) (slot : Nat) : Operand :=
  args[slot]?.getD (.inline .float .empty)

/-- The expression of an argument. -/
def argument (args : List Operand) (slot : Nat) : Expr := (operand args slot).expr

/-- An operator between two expressions, in parentheses. -/
def binary (operator : String) (a b : Expr) : Expr :=
  .text "(" ++ a ++ .text (" " ++ operator ++ " ") ++ b ++ .text ")"

/-- The selection of a channel of a value of the given type. -/
def selectChannel (input : Ty) (channel : Nat) (value : Expr) : Expr :=
  if input.isScalar then value
  else if input.isMatrix then
    value ++ .text ("[" ++ Nat.repr (channel / input.rows) ++ "][" ++
      Nat.repr (channel % input.rows) ++ "]")
  else value ++ .text ("." ++ String.singleton (componentLetter channel))

/-- A matrix applied to a vector that is extended by a fourth coordinate. -/
def transform (fourth : String) (matrix vector : Expr) : Expr :=
  .text "(" ++ matrix ++ .text " * vec4(" ++ vector ++ .text (", " ++ fourth ++ ")).xyz")

/-- A color with its channels scaled by its alpha. -/
def scaledByAlpha (color : Expr) : Expr :=
  .text "vec4(" ++ color ++ .text ".rgb * " ++ color ++ .text ".a, " ++ color ++ .text ".a)"

/-- The cosine between two directions. -/
def cosineBetween (normal view : Expr) : Expr :=
  .text "clamp(dot(" ++ normal ++ .text ", " ++ view ++ .text "), 0.0, 1.0)"

/-- The share of light reflected, by the share at a right angle and the cosine. -/
def reflected (f0 cosine : Expr) : Expr :=
  .text "(" ++ f0 ++ .text " + (1.0 - " ++ f0 ++ .text ") * pow(1.0 - " ++ cosine ++
    .text ", 5.0))"

/-- The code of the operation, with the arguments that it reads by slot looked up by `arg`. A
lookup may have effects of its own, such as to fail where there is no argument. -/
def scriptWith {m : Type → Type} [Monad m] (arg : Nat → m Operand) (op : Op)
    (args : List Operand) : m Script :=
  let inline (e : Expr) : Script := .answer (.inline op.signature.output e)
  let called (function : String) : Script := inline (.call function (args.map Operand.expr))
  match op with
  | add _ => return inline (binary "+" (← arg 0).expr (← arg 1).expr)
  | subtract _ => return inline (binary "-" (← arg 0).expr (← arg 1).expr)
  | multiply ty =>
    if ty.isMatrix then return called "matrixCompMult"
    else return inline (binary "*" (← arg 0).expr (← arg 1).expr)
  | scale _ | matrixMultiply .. => return inline (binary "*" (← arg 0).expr (← arg 1).expr)
  | dot _ => return called "dot"
  | cross _ => return called "cross"
  | normalize _ => return called "normalize"
  | length _ => return called "length"
  | mix _ => return called "mix"
  | clamp _ => return called "clamp"
  | saturate _ => return inline (.text "clamp(" ++ (← arg 0).expr ++ .text ", 0.0, 1.0)")
  | swizzle _ pattern => return inline ((← arg 0).expr ++ .text ("." ++ pattern))
  | split input channel => return inline (selectChannel input channel (← arg 0).expr)
  | combine output =>
    if output.isScalar then return .answer (← arg 0) else return called output.name
  | transformPoint => return inline (transform "1.0" (← arg 0).expr (← arg 1).expr)
  | transformDirection => return inline (transform "0.0" (← arg 0).expr (← arg 1).expr)
  | premultiply => return .share (← arg 0) fun color => inline (scaledByAlpha color.expr)
  | luminance =>
    return inline (.text "dot(" ++ (← arg 0).expr ++ .text ", vec3(0.2126, 0.7152, 0.0722))")
  | fresnel => do
    let f0 ← arg 2
    let normal ← arg 0
    let view ← arg 1
    return .share f0 fun f0 =>
      .declare .float (cosineBetween normal.expr view.expr) fun cosine =>
        inline (reflected f0.expr cosine.expr)
  | call function .. => return called function

/-- The code of the operation applied to arguments. -/
def script (op : Op) (args : List Operand) : Script :=
  Id.run (op.scriptWith (fun slot => pure (operand args slot)) args)

theorem getD_mem_of_isTemporary {known : List Operand} {i : Nat} {ty : Ty} {e : Expr}
    (h : (known[i]?.getD (.inline ty e)).isTemporary = true) :
    known[i]?.getD (.inline ty e) ∈ known := by
  cases hi : known[i]? with
  | none => simp [hi, Operand.isTemporary] at h
  | some o => simpa using List.mem_of_getElem? hi

/-- An operation answers an expression of its own, or an argument it was given. -/
theorem script_honest (op : Op) (args : List Operand) : (op.script args).Honest args := by
  cases op with
  | multiply ty =>
    simp only [script, scriptWith]
    split <;> simp [Script.Honest, Operand.isTemporary]
  | combine output =>
    simp only [script, scriptWith]
    split
    · exact getD_mem_of_isTemporary
    · simp [Script.Honest, Operand.isTemporary]
  | _ => simp [script, scriptWith, Script.Honest, Operand.isTemporary]

end Op

end ShaderFlow
