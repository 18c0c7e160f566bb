import ShaderFlow.Ty

/-!
# Expressions

An expression is text with references to temporaries. Temporaries are known by number while code
is being built, and get a name, a common stem followed by the number, only when the expression is
rendered. So the choice of the stem cannot change which temporary an expression refers to.

An `Operand` is what one node hands to another: an expression of some type, or a temporary that
already holds the value.
-/

namespace ShaderFlow

/-- A piece of an expression. -/
inductive Atom where
  /-- Text of the shading language. -/
  | text (s : String)
  /-- A reference to the temporary with a number. -/
  | temporary (index : Nat)
  deriving DecidableEq, Repr

/-- Text with references to temporaries. -/
@[ext]
structure Expr where
  /-- The pieces in order. -/
  atoms : List Atom
  deriving DecidableEq, Repr

namespace Atom

/-- The name of a temporary. -/
def name (stem : String) (index : Nat) : String := stem ++ Nat.repr index

/-- The piece as text, with the names of temporaries built on `stem`. -/
def render (stem : String) : Atom → String
  | text s => s
  | temporary index => name stem index

end Atom

namespace Expr

/-- The expression without text. -/
def empty : Expr := ⟨[]⟩

/-- An expression of plain text. -/
def text (s : String) : Expr := ⟨[.text s]⟩

/-- A reference to a temporary. -/
def temporary (index : Nat) : Expr := ⟨[.temporary index]⟩

instance : Append Expr := ⟨fun a b => ⟨a.atoms ++ b.atoms⟩⟩

/-- The expression as text, with the names of temporaries built on `stem`. -/
def render (stem : String) (e : Expr) : String := String.join (e.atoms.map (Atom.render stem))

/-- Expressions with a separator between them. -/
def join (separator : Expr) : List Expr → Expr
  | [] => empty
  | [e] => e
  | e :: rest => e ++ separator ++ join separator rest

/-- A function applied to arguments. -/
def call (function : String) (args : List Expr) : Expr :=
  text (function ++ "(") ++ join (text ", ") args ++ text ")"

/-- A character of a name or of a component selection. -/
def isNameChar (c : Char) : Bool := c.isAlphanum || c == '_' || c == '.'

/-- Whether the expression is a name or a selection of one, and so costs nothing to repeat. -/
def isPlain (stem : String) (e : Expr) : Bool := (e.render stem).toList.all isNameChar

@[simp]
theorem atoms_append (a b : Expr) : (a ++ b).atoms = a.atoms ++ b.atoms := rfl

@[simp]
theorem render_append (stem : String) (a b : Expr) :
    (a ++ b).render stem = a.render stem ++ b.render stem := by
  simp [render, String.join_append]

@[simp]
theorem render_text (stem s : String) : (text s).render stem = s := by
  simp [render, text, Atom.render]

@[simp]
theorem render_temporary (stem : String) (index : Nat) :
    (temporary index).render stem = stem ++ Nat.repr index := by
  simp [render, temporary, Atom.render, Atom.name]

end Expr

/-- A value that a node hands to another. -/
inductive Operand where
  /-- An expression that is written wherever the value is used. -/
  | inline (ty : Ty) (expr : Expr)
  /-- A temporary that holds the value. -/
  | temporary (ty : Ty) (index : Nat)
  deriving DecidableEq

namespace Operand

/-- The type of the value. -/
def ty : Operand → Ty
  | inline ty _ | temporary ty _ => ty

/-- The expression to write for the value. -/
def expr : Operand → Expr
  | inline _ expr => expr
  | temporary _ index => .temporary index

/-- Whether a temporary holds the value. -/
def isTemporary : Operand → Bool
  | inline .. => false
  | temporary .. => true

end Operand

end ShaderFlow
