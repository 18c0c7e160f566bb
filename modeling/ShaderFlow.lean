import ShaderFlow.Ty
import ShaderFlow.Decimal.Binary
import ShaderFlow.Decimal.Shortest
import ShaderFlow.Decimal.Layout
import ShaderFlow.Capability
import ShaderFlow.NodeId
import ShaderFlow.Error
import ShaderFlow.Literal
import ShaderFlow.Signature
import ShaderFlow.Code.Expr
import ShaderFlow.Code.Block
import ShaderFlow.Code.Script
import ShaderFlow.Function.Op
import ShaderFlow.Function.Basic
import ShaderFlow.Function.Snippet
import ShaderFlow.Graph.Basic
import ShaderFlow.Graph.Reach
import ShaderFlow.Graph.Wiring
import ShaderFlow.Sink
import ShaderFlow.Backend.Resource
import ShaderFlow.Backend.Basic
import ShaderFlow.Backend.Description
import ShaderFlow.Json.Basic
import ShaderFlow.Json.Decode
import ShaderFlow.Backend.Exchange
import ShaderFlow.Schedule
import ShaderFlow.Trace
import ShaderFlow.Requirements
import ShaderFlow.Stage.TextureArray
import ShaderFlow.Stage.Emission
import ShaderFlow.Stage.Text
import ShaderFlow.Compile
import ShaderFlow.Proofs.Basic
import ShaderFlow.Proofs.Graph.Reachable
import ShaderFlow.Proofs.Graph.WellFormed
import ShaderFlow.Proofs.Schedule.Uses
import ShaderFlow.Proofs.Schedule.Walk
import ShaderFlow.Proofs.Stage.Textures
import ShaderFlow.Proofs.Stage.Step
import ShaderFlow.Proofs.Stage.Run
import ShaderFlow.Proofs.Stage.Used
import ShaderFlow.Proofs.Sink.Routes
import ShaderFlow.Proofs.Sink.Material
import ShaderFlow.Proofs.Compile.Stages
import ShaderFlow.Proofs.Compile.Success
import ShaderFlow.Proofs.Compile.Course
import ShaderFlow.Proofs.Text.Tokens
import ShaderFlow.Proofs.Text.Ascii
import ShaderFlow.Proofs.Code.Subst
import ShaderFlow.Proofs.Function.Template
import ShaderFlow.Proofs.Function.Run
import ShaderFlow.Proofs.Function.Widths
import ShaderFlow.Proofs.Text.Legible
import ShaderFlow.Proofs.Compile.Widths
import ShaderFlow.Proofs.Compile.Textures
import ShaderFlow.Proofs.Compile.Manifest
import ShaderFlow.Proofs.Sharing.Faithful
import ShaderFlow.Proofs.Sharing.Meaning
import ShaderFlow.Proofs.Sharing.Mass
import ShaderFlow.Proofs.Sharing.Balance
import ShaderFlow.Proofs.Sharing.Once
import ShaderFlow.Proofs.Renaming.Basic
import ShaderFlow.Proofs.Renaming.Schedule
import ShaderFlow.Proofs.Renaming.Stage
import ShaderFlow.Proofs.Renaming.Compile
import ShaderFlow.Proofs.Code.Temporaries
import ShaderFlow.Proofs.Compile.Temporaries
import ShaderFlow.Proofs.Backend.Edits
import ShaderFlow.Proofs.Compile.Extension
import ShaderFlow.Proofs.Sink.Only
import ShaderFlow.Proofs.Compile.Isolation
import ShaderFlow.Proofs.Stage.Errors
import ShaderFlow.Proofs.Compile.Errors
import ShaderFlow.Proofs.Sink.Conflicts
import ShaderFlow.Proofs.Schedule.Order
import ShaderFlow.Proofs.Schedule.Postorder
import ShaderFlow.Proofs.Compile.Assignments
import ShaderFlow.Proofs.Graph.Connect
import ShaderFlow.Proofs.Graph.Stepwise
import ShaderFlow.Proofs.Schedule.Readers
import ShaderFlow.Proofs.Compile.Check
import ShaderFlow.Proofs.Backend.Numbering
import ShaderFlow.Proofs.Graph.Reorder
import ShaderFlow.Proofs.Graph.Search
import ShaderFlow.Proofs.Text.Reading
import ShaderFlow.Proofs.Text.Numerals
import ShaderFlow.Proofs.Text.Brackets
import ShaderFlow.Proofs.Compile.Composed
import ShaderFlow.Proofs.Compile.Brackets
import ShaderFlow.Proofs.Text.Selection
import ShaderFlow.Proofs.Compile.Selection
import ShaderFlow.Proofs.Backend.Locations
import ShaderFlow.Proofs.Backend.Description
import ShaderFlow.Proofs.Backend.Exchange
import ShaderFlow.Proofs.Decimal.Rounding
import ShaderFlow.Proofs.Decimal.Reading
import ShaderFlow.Proofs.Literal.Channels
import ShaderFlow.Proofs.Literal.Text
