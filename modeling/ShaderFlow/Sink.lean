import ShaderFlow.Code.Block
import ShaderFlow.Graph.Basic

/-!
# Sinks

A sink says what a graph is compiled for. It has outputs, each written by one shader stage, and
parameters, each of which takes the value of a node. Links route parameters to outputs, either to
a whole output or to one of its channels. A channel of an output is written by one link at most:
a link that would write it again is refused.
-/

namespace ShaderFlow

/-- A stage of the pipeline; each is compiled to a text of its own. -/
inductive Stage where
  | vertex
  | fragment
  deriving DecidableEq, Repr

namespace Stage

/-- The stages in the order of the pipeline. -/
def all : List Stage := [.vertex, .fragment]

/-- The name of a stage in messages and in the exchange format. -/
def label : Stage → String
  | vertex => "Vertex"
  | fragment => "Fragment"

theorem mem_all (s : Stage) : s ∈ all := by
  cases s <;> simp [all]

end Stage

/-- The part of an output that a link writes. -/
inductive Selector where
  /-- All channels. -/
  | whole
  /-- One channel; those of a matrix are counted column by column. -/
  | channel (c : Nat)
  deriving DecidableEq, Repr

/-- A variable that a stage writes. -/
structure Output where
  /-- The name of the variable. -/
  name : String
  /-- The stage that writes it. -/
  stage : Stage
  /-- The location of the variable. -/
  index : Nat
  /-- The type of the variable. -/
  ty : Ty
  deriving DecidableEq

/-- An entry point into a graph. -/
structure Parameter where
  /-- The name. -/
  name : String
  /-- The type of the value. -/
  ty : Ty
  /-- The node that computes the value. -/
  source : Option NodeId
  deriving DecidableEq

/-- A parameter routed to an output, both by number. -/
structure Link where
  /-- The parameter. -/
  parameter : Nat
  /-- The output. -/
  output : Nat
  /-- The part of the output that is written. -/
  selector : Selector
  deriving DecidableEq, Repr

namespace Selector

/-- The channels of a type that are selected, as the bits of a word. The widest types have as many
channels as the word has bits, so one bit more is needed while the mask of all is computed. -/
def word : Selector → Ty → UInt16
  | whole, ty => ((1 <<< ty.channels.toUInt32) - 1 : UInt32).toUInt16
  | channel c, _ => 1 <<< c.toUInt16

/-- The channels of a type that are selected, as a bit mask. -/
def mask (s : Selector) (ty : Ty) : Nat := (s.word ty).toNat

/-- The number that a message gives for the part that was not written. -/
def slot : Selector → Nat
  | whole => 0
  | channel c => c

/-- The number of channels that a value written there has. -/
def width : Selector → Ty → Nat
  | whole, ty => ty.channels
  | channel _, _ => 1

/-- Whether a type has the selected part. -/
def within : Selector → Ty → Bool
  | whole, _ => true
  | channel c, ty => decide (c < ty.channels)

end Selector

namespace Output

/-- The place in the output's variable that a link writes. -/
def place (o : Output) : Selector → Place
  | .whole => .whole o.name
  | .channel c =>
    if o.ty.isMatrix then .element o.name (c / o.ty.rows) (c % o.ty.rows)
    else .component o.name c

end Output

/-- What a graph is compiled for. -/
structure Sink where
  /-- The outputs by number. -/
  outputs : List Output := []
  /-- The parameters by number. -/
  parameters : List Parameter := []
  /-- The links in the order in which they were made. -/
  links : List Link := []
  deriving DecidableEq

namespace Sink

variable (k : Sink)

/-- The sink without outputs and parameters. -/
def empty : Sink := {}

/-- Adds an output and gives its number. -/
def addOutput (o : Output) : Sink × Nat :=
  ({ k with outputs := k.outputs ++ [o] }, k.outputs.length)

/-- Adds a parameter that has no source yet and gives its number. -/
def addParameter (name : String) (ty : Ty) : Sink × Nat :=
  ({ k with parameters := k.parameters ++ [⟨name, ty, none⟩] }, k.parameters.length)

/-- Makes a node of a graph the source of a parameter. -/
def bindParameter (g : Graph) (parameter : Nat) (node : NodeId) : Except Error Sink :=
  match g.outputType? node with
  | none => .error (.unknownNode node)
  | some found =>
    match k.parameters[parameter]? with
    | none => .error (.unknownParameter parameter)
    | some p =>
      if p.ty.channels = found.channels then
        .ok { k with parameters := k.parameters.set parameter { p with source := some node } }
      else .error (.typeMismatch (.parameter p.name) 0 p.ty.channels found.channels)

/-- The channels of an output of the given type that are written already, as the bits of a word. -/
def taken (output : Nat) (ty : Ty) : UInt16 :=
  (k.links.filter (·.output == output)).foldl (fun taken l => taken ||| l.selector.word ty) 0

/-- Whether a value of one type can be written to the selected part of another. -/
def fits (selector : Selector) (parameter output : Ty) : Bool :=
  parameter.channels == selector.width output && selector.within output

/-- Routes a parameter to an output. -/
def link (parameter output : Nat) (selector : Selector) : Except Error Sink :=
  match k.parameters[parameter]? with
  | none => .error (.unknownParameter parameter)
  | some p =>
    match k.outputs[output]? with
    | none => .error (.unknownOutput output)
    | some o =>
      if fits selector p.ty o.ty then
        let overlap := k.taken output o.ty &&& selector.word o.ty
        if overlap = 0 then .ok { k with links := k.links ++ [⟨parameter, output, selector⟩] }
        else .error (.outputConflict o.name overlap.toNat)
      else
        .error (.typeMismatch (.output o.name) selector.slot (selector.width o.ty) p.ty.channels)

/-- Whether a parameter is routed anywhere. -/
def isLinked (parameter : Nat) : Bool := k.links.any (·.parameter == parameter)

/-- Whether some channel of an output is written. -/
def isWritten (output : Nat) : Bool := k.links.any (·.output == output)

/-- The stages with at least one output, in the order of the pipeline. -/
def stages : List Stage := Stage.all.filter fun s => k.outputs.any (·.stage == s)

/-- The outputs of a stage. -/
def outputsOf (s : Stage) : List Output := k.outputs.filter (·.stage == s)

end Sink

end ShaderFlow
