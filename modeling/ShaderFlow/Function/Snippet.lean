import ShaderFlow.Function.Basic

/-!
# Functions from templates

A user's function can be given as a snippet: statements and temporaries to write, and the value
to answer, all as templates. In a template `$` and a digit stand for an argument, `%` and a digit
for a temporary of the snippet, and `@` for the access expression; every other character stands
for itself.
-/

namespace ShaderFlow

/-- A piece of a template. -/
inductive Piece where
  /-- A character that stands for itself. -/
  | char (c : Char)
  /-- The expression of an argument. -/
  | argument (slot : Nat)
  /-- A temporary of the snippet. -/
  | temporary (number : Nat)
  /-- The access expression. -/
  | access
  deriving DecidableEq, Repr

/-- Text with places for arguments, temporaries and the access expression. -/
abbrev Template := List Piece

namespace Template

/-- The value of a decimal digit. -/
def digit (c : Char) : Nat := c.toNat - '0'.toNat

/-- Reads a template. -/
def parse : List Char → Template
  | '$' :: d :: rest =>
    if d.isDigit then .argument (digit d) :: parse rest else .char '$' :: parse (d :: rest)
  | '%' :: d :: rest =>
    if d.isDigit then .temporary (digit d) :: parse rest else .char '%' :: parse (d :: rest)
  | '@' :: rest => .access :: parse rest
  | c :: rest => .char c :: parse rest
  | [] => []
termination_by cs => cs.length

/-- The template of a text. -/
def ofString (s : String) : Template := parse s.toList

/-- The expression of a piece. -/
def fillPiece (access : Option String) (args made : List Operand) : Piece → Expr
  | .char c => .text (String.singleton c)
  | .argument slot => Op.argument args slot
  | .temporary number => Op.argument made number
  | .access => .text (access.getD "<none>")

/-- The expression of a template. -/
def fill (access : Option String) (args made : List Operand) (t : Template) : Expr :=
  .join .empty (t.map (fillPiece access args made))

end Template

/-- A step of a snippet. -/
inductive SnippetStep where
  /-- Adds a statement. -/
  | statement (text : Template)
  /-- Declares the snippet's next temporary. -/
  | declare (ty : Ty) (value : Template)
  deriving DecidableEq

/-- The value that a snippet answers. -/
inductive SnippetResult where
  /-- An expression. -/
  | inline (ty : Ty) (value : Template)
  /-- An argument. -/
  | argument (slot : Nat)
  /-- A temporary of the snippet. -/
  | temporary (number : Nat)
  deriving DecidableEq

/-- The code of a user's function as templates. -/
structure Snippet where
  /-- What is written before the value. -/
  steps : List SnippetStep
  /-- The value. -/
  result : SnippetResult
  deriving DecidableEq

namespace Snippet

/-- The value of a snippet that has made some temporaries; what is not there has no text. -/
def answer (output : Ty) (access : Option String) (args made : List Operand) :
    SnippetResult → Operand
  | .inline ty value => .inline ty (value.fill access args made)
  | .argument slot => args[slot]?.getD (.inline output .empty)
  | .temporary number => made[number]?.getD (.inline output .empty)

/-- The code of the remaining steps, after some temporaries have been made. -/
def scriptFrom (output : Ty) (access : Option String) (args : List Operand)
    (result : SnippetResult) : List SnippetStep → List Operand → Script
  | [], made => .answer (answer output access args made result)
  | .statement text :: steps, made =>
    .statement (text.fill access args made) (scriptFrom output access args result steps made)
  | .declare ty value :: steps, made =>
    .declare ty (value.fill access args made) fun t =>
      scriptFrom output access args result steps (made ++ [t])

/-- The code of the snippet. -/
def script (s : Snippet) (output : Ty) (access : Option String) (args : List Operand) : Script :=
  scriptFrom output access args s.result s.steps []

theorem scriptFrom_honest (output : Ty) (access : Option String) (args : List Operand)
    (result : SnippetResult) (steps : List SnippetStep) (made known : List Operand)
    (hargs : args ⊆ known) (hmade : made ⊆ known) :
    (scriptFrom output access args result steps made).Honest known := by
  induction steps generalizing made known with
  | nil =>
    intro h
    cases result with
    | inline ty value => simp [answer, Operand.isTemporary] at h
    | argument slot => exact hargs (Op.getD_mem_of_isTemporary h)
    | temporary number => exact hmade (Op.getD_mem_of_isTemporary h)
  | cons step steps ih =>
    cases step with
    | statement text => exact ih made known hargs hmade
    | declare ty value =>
      intro index
      refine ih _ _ (fun o ho => List.mem_cons_of_mem _ (hargs ho)) fun o ho => ?_
      rcases List.mem_append.1 ho with ho | ho
      · exact List.mem_cons_of_mem _ (hmade ho)
      · simp_all

/-- The user's function with the code of a snippet. -/
def toFunction (s : Snippet) (name : String) (signature : Signature)
    (requirement : Option Requirement) (isTrivial : Bool) : UserFunction where
  name
  signature
  requirement
  isTrivial
  script access args := s.script signature.output access args
  honest access args :=
    scriptFrom_honest _ access args s.result s.steps [] args (fun _ h => h) (by simp)

end Snippet

end ShaderFlow
