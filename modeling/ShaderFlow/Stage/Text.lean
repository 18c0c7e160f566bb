import ShaderFlow.Stage.Emission

/-!
# The text of a stage

A stage's text is the version of the language, the declarations of the resources that it uses,
those of its outputs, and a `main` function with its code. Outputs that the language itself
declares are known by the beginning of their names and are not declared again.
-/

namespace ShaderFlow

/-- The first version of the language that needs no extensions for locations and bindings. -/
def plainVersion : Nat := 450

/-- The version of the language, and the extensions that an old version needs. -/
def versionHeader (version : Nat) : String :=
  "#version " ++ Nat.repr version ++ "\n" ++
    (if version < plainVersion then
      "#extension GL_ARB_separate_shader_objects : require\n" ++
        "#extension GL_ARB_shading_language_420pack : require\n"
    else "") ++ "\n"

namespace Output

/-- Whether the language itself declares the output. -/
def isPredeclared (o : Output) : Bool := ['g', 'l', '_'].isPrefixOf o.name.toList

/-- The declaration of the output. -/
def declaration (o : Output) : String :=
  if o.isPredeclared then ""
  else "layout(location = " ++ Nat.repr o.index ++ ") out " ++ o.ty.name ++ " " ++ o.name ++ ";\n"

end Output

namespace Emission

/-- The text of the stage that was written, with the given outputs. -/
def text (o : Options) (b : Backend) (s : Emission) (outputs : List Output) : String :=
  versionHeader o.version ++
    String.join (s.used.map fun h => (b.declaration? h).getD "") ++
    String.join (outputs.map Output.declaration) ++
    "\nvoid main() \x7b\n" ++ s.block.render o.stem ++ "\x7d\n"

end Emission

end ShaderFlow
