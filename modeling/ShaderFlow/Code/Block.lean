import ShaderFlow.Code.Expr

/-!
# Blocks of statements

The body of a shader stage is a list of lines: declarations of temporaries, raw statements, and
assignments to outputs. A `Block` also counts the temporaries it has declared, so that each new
one gets the next number.
-/

namespace ShaderFlow

/-- The letter that selects a channel of a vector. -/
def componentLetter : Nat → Char
  | 0 => 'x'
  | 1 => 'y'
  | 2 => 'z'
  | _ => 'w'

/-- What an assignment writes to. -/
inductive Place where
  /-- A whole variable. -/
  | whole (name : String)
  /-- A channel of a scalar or vector variable. -/
  | component (name : String) (channel : Nat)
  /-- An element of a matrix variable. -/
  | element (name : String) (column row : Nat)
  deriving DecidableEq, Repr

namespace Place

/-- The place as text. -/
def render : Place → String
  | whole name => name
  | component name channel => name ++ "." ++ String.singleton (componentLetter channel)
  | element name column row =>
    name ++ "[" ++ Nat.repr column ++ "][" ++ Nat.repr row ++ "]"

end Place

/-- A line of a block. -/
inductive Line where
  /-- The declaration of the temporary with a number. -/
  | declare (ty : Ty) (index : Nat) (value : Expr)
  /-- A statement of a function's own making. -/
  | statement (text : Expr)
  /-- An assignment to an output. -/
  | assign (place : Place) (value : Expr)
  deriving DecidableEq

namespace Line

/-- The statement on a line, without indentation and semicolon. -/
def body (stem : String) : Line → String
  | declare ty index value =>
    ty.name ++ " " ++ Atom.name stem index ++ " = " ++ value.render stem
  | statement text => text.render stem
  | assign place value => place.render ++ " = " ++ value.render stem

/-- The line as text. -/
def render (stem : String) (l : Line) : String := "    " ++ l.body stem ++ ";\n"

/-- The number of the temporary that a line declares. -/
def declared? : Line → Option Nat
  | declare _ index _ => some index
  | _ => none

end Line

/-- Lines of code and the number of the next temporary. -/
structure Block where
  /-- The lines in order. -/
  lines : Array Line := #[]
  /-- The number that the next temporary will have. -/
  next : Nat := 0
  deriving DecidableEq

namespace Block

variable (b : Block)

/-- Appends a line. -/
def push (l : Line) : Block := { b with lines := b.lines.push l }

/-- The block after the next temporary is declared to hold a value. -/
def declare (ty : Ty) (value : Expr) : Block :=
  ⟨b.lines.push (.declare ty b.next value), b.next + 1⟩

/-- The next temporary, as a value of the given type. -/
def fresh (ty : Ty) : Operand := .temporary ty b.next

/-- The lines as text. -/
def render (stem : String) : String := String.join (b.lines.toList.map (Line.render stem))

end Block

end ShaderFlow
