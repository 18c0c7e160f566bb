import ShaderFlow.Stage.Text

/-!
# Compiling a sink

Every parameter of a sink needs a source. The nodes behind parameters that are routed nowhere are
checked against the backend and no more. For each stage with an output, the nodes behind its links
are scheduled and written, each link becomes an assignment, and the stage's text is put together.
The places of textures are shared by the stages.
-/

namespace ShaderFlow

/-- The result of compiling a sink. -/
structure Shader where
  /-- The text of each stage that has an output, in the order of the pipeline. -/
  stages : List (Stage × String) := []
  /-- The resources used by any stage, in order. -/
  used : List Handle := []
  /-- The textures by place in the sampler array. -/
  textures : TextureArray := {}
  deriving DecidableEq

/-- The text of a stage. -/
def Shader.stage? (s : Shader) (stage : Stage) : Option String := s.stages.lookup stage

/-- A link with what it refers to. -/
structure Route where
  /-- The output that is written. -/
  output : Output
  /-- The part of the output that is written. -/
  selector : Selector
  /-- The node whose value is written. -/
  source : NodeId
  deriving DecidableEq

namespace Sink

variable (k : Sink)

/-- The sources of the parameters that are routed nowhere, with a report of each. -/
def unlinkedSources : List (Parameter × Nat) → Traced (List NodeId)
  | [] => pure []
  | (p, i) :: rest =>
    match p.source with
    | none => .lift (.error (.unboundParameter p.name))
    | some source =>
      if k.isLinked i then unlinkedSources rest
      else do
        Traced.report (.unlinkedParameter p.name)
        let sources ← unlinkedSources rest
        return source :: sources

/-- A report of each output that no link writes. -/
def reportUnwritten : List (Output × Nat) → Traced Unit
  | [] => pure ()
  | (o, i) :: rest =>
    if k.isWritten i then reportUnwritten rest
    else do
      Traced.report (.unwrittenOutput o.name)
      reportUnwritten rest

/-- The routes of the links to a stage's outputs. -/
def routes (stage : Stage) : List Link → Except Error (List Route)
  | [] => .ok []
  | l :: rest =>
    match k.outputs[l.output]? with
    | none => .error (.unknownOutput l.output)
    | some output =>
      if output.stage = stage then
        match k.parameters[l.parameter]? with
        | none => .error (.unknownParameter l.parameter)
        | some p =>
          match p.source with
          | none => .error (.unboundParameter p.name)
          | some source => (routes stage rest).map (⟨output, l.selector, source⟩ :: ·)
      else routes stage rest

end Sink

namespace Emission

/-- Writes the assignments of routes. -/
def assignAll (s : Emission) (routes : List Route) : Except Stopped Emission :=
  routes.foldlM (fun s r => s.orStop (s.assign r.output r.selector r.source)) s

/-- The events of a stage that was written or not, and the state in which it ended. -/
def traced : Except Stopped Emission → Traced Emission
  | .ok s => ⟨s.events, .ok s⟩
  | .error stopped => ⟨stopped.state.events, .error stopped.error⟩

end Emission

namespace Compile

variable (o : Options) (g : Graph) (k : Sink) (b : Backend)

/-- Writes the nodes and the assignments of a stage. -/
def writeStage (textures : TextureArray) (plan : Schedule) (routes : List Route) :
    Except Stopped Emission := do
  let s ← Emission.schedule o g b { textures } plan
  s.assignAll routes

/-- Compiles a stage and adds it to what has been compiled. -/
def addStage (shader : Shader) (stage : Stage) : Traced Shader := do
  let routes ← Traced.lift (k.routes stage k.links)
  let plan ← Traced.lift (Schedule.ofRoots g (routes.map (·.source)))
  Traced.report (.stageStarted stage plan.order.length routes.length)
  let s ← Emission.traced (writeStage o g b shader.textures plan routes)
  let text := s.text o b (k.outputsOf stage)
  Traced.report (.stageFinished stage text.utf8ByteSize)
  return { stages := shader.stages ++ [(stage, text)]
           used := s.used.foldl (fun used h => h.insert used) shader.used
           textures := s.textures }

/-- Compiles stages one after the other. -/
def addStages : Shader → List Stage → Traced Shader
  | shader, [] => pure shader
  | shader, stage :: rest => do
    let shader ← addStage o g k b shader stage
    addStages shader rest

/-- Checks the nodes behind parameters that are routed nowhere. -/
def checkUnlinked (sources : List NodeId) : Traced Unit :=
  if sources.isEmpty then pure ()
  else do
    let plan ← Traced.lift (Schedule.ofRoots g sources)
    plan.check g b

end Compile

/-- Compiles a sink and everything behind its parameters. -/
def compile (o : Options) (g : Graph) (k : Sink) (b : Backend) : Traced Shader := do
  let unlinked ← k.unlinkedSources k.parameters.zipIdx
  k.reportUnwritten k.outputs.zipIdx
  Compile.checkUnlinked g b unlinked
  Compile.addStages o g k b {} k.stages

/-- Compiles sinks of several graphs for the same backend. -/
def compileAll (o : Options) (b : Backend) (materials : List (Graph × Sink)) :
    List (Except Error Shader) :=
  materials.map fun m => (compile o m.1 m.2 b).result

end ShaderFlow
