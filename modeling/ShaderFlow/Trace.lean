import ShaderFlow.Backend.Basic
import ShaderFlow.Sink

/-!
# Traces

Compiling reports what it does as a list of events. A `Traced` computation has its events and its
result side by side, so an error does not lose the events before it, and the result of a
composition depends on the results of its parts alone (`Traced.result_bind`).
-/

namespace ShaderFlow

/-- Something worth reporting. -/
inductive Event where
  /-- A parameter is not routed to any output. -/
  | unlinkedParameter (name : String)
  /-- No channel of an output is written. -/
  | unwrittenOutput (name : String)
  /-- A stage is about to be compiled. -/
  | stageStarted (stage : Stage) (nodes links : Nat)
  /-- A stage has been compiled. -/
  | stageFinished (stage : Stage) (bytes : Nat)
  /-- A capability was resolved. -/
  | resolved (capability : Capability) (resolution : Resolution)
  /-- A texture has its place in the sampler array. -/
  | textureAssigned (texture : Texture) (path : String) (slot : Nat)
  /-- A node's value is known. -/
  | nodeEmitted (node : Label) (value : String)
  deriving DecidableEq, Repr

namespace Event

/-- How much attention an event deserves. -/
def level : Event → String
  | unlinkedParameter _ | unwrittenOutput _ => "WARN"
  | stageStarted .. | stageFinished .. => "DEBUG"
  | resolved .. | textureAssigned .. | nodeEmitted .. => "TRACE"

/-- The words for an event. -/
def message : Event → String
  | unlinkedParameter name => "parameter `" ++ name ++ "` is not linked to any output"
  | unwrittenOutput name => "output `" ++ name ++ "` is declared but never written"
  | stageStarted stage nodes links =>
    "compiling " ++ stage.label ++ " stage: " ++ Nat.repr nodes ++ " nodes, " ++
      Nat.repr links ++ " links"
  | stageFinished stage bytes =>
    stage.label ++ " stage compiled to " ++ Nat.repr bytes ++ " bytes"
  | resolved capability resolution =>
    "resolved " ++ capability.label ++ " to " ++ resolution.handle.describe ++ " `" ++
      resolution.path ++ "`"
  | textureAssigned texture path slot =>
    "texture TextureRef(" ++ Nat.repr texture.id ++ ") -> " ++ path ++ "[" ++ Nat.repr slot ++ "]"
  | nodeEmitted node value => node.describe ++ " = " ++ value

/-- The line that a log has for an event. -/
def line (e : Event) : String := e.level ++ " " ++ e.message

end Event

/-- A result with the events on the way to it. -/
structure Traced (α : Type) where
  /-- The events in order. -/
  events : List Event
  /-- The result. -/
  result : Except Error α

namespace Traced

variable {α β : Type}

/-- A result without events. -/
def lift (r : Except Error α) : Traced α := ⟨[], r⟩

/-- One event. -/
def report (e : Event) : Traced Unit := ⟨[e], .ok ()⟩

/-- A computation and then another that depends on its result. -/
def andThen (x : Traced α) (f : α → Traced β) : Traced β :=
  match x.result with
  | .ok a => ⟨x.events ++ (f a).events, (f a).result⟩
  | .error e => ⟨x.events, .error e⟩

instance : Monad Traced where
  pure a := ⟨[], .ok a⟩
  bind := andThen

instance : MonadLift (Except Error) Traced := ⟨lift⟩

@[simp]
theorem result_pure (a : α) : (pure a : Traced α).result = .ok a := rfl

@[simp]
theorem result_lift (r : Except Error α) : (lift r).result = r := rfl

@[simp]
theorem result_report (e : Event) : (report e).result = .ok () := rfl

@[simp]
theorem result_bind (x : Traced α) (f : α → Traced β) :
    (x >>= f).result = x.result.bind fun a => (f a).result := by
  change (andThen x f).result = _
  unfold andThen Except.bind
  cases x.result <;> rfl

end Traced

end ShaderFlow
