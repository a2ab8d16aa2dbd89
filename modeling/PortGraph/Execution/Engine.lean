import PortGraph.Execution.Clock
import PortGraph.Execution.Options
import PortGraph.Execution.Result
import PortGraph.Work.Builtin

/-!
From a stored graph and an input text to a verdict: the graph is read, checked and planned, the
input is read, and the plan is run on the simulated clock.
-/

namespace PortGraph

inductive EngineError
  | graph (e : GraphError)
  | malformedInput (m : Mismatch)
deriving DecidableEq

namespace EngineError

def message : EngineError → String
  | .graph e => s!"graph rejected: {e.message}"
  | .malformedInput m => s!"malformed execution input: {m.message}"

end EngineError

namespace Engine

/-- Refuses the first node, in topological order, that has no worker. -/
def checkWorkers (registry : Registry) (g : Graph) : Except GraphError Unit :=
  match (g.order.filterMap g.node?).find? fun n => !registry.supports n.kind with
  | some n => .error (.noExecutor n.id n.kind)
  | none => .ok ()

/-- Accepts a stored graph and plans it. -/
def prepare (registry : Registry) (text : String) : Except GraphError Plan := do
  let g ← Graph.ofDefinition (← (Definition.ofText text).mapError GraphError.malformed)
  checkWorkers registry g
  Plan.ofGraph g

/-- An empty text is no input. -/
def readInput (text : String) : Except Mismatch Json :=
  let trimmed := Text.trim text.toList
  if trimmed.isEmpty then .ok .null else Json.parse (String.ofList trimmed)

/-- What surrounds an execution. -/
structure Surroundings where
  registry : Registry := Worker.builtin
  services : Services := Services.simulated
  start : Timestamp
  /-- Whether the execution is called off before it starts. -/
  cancelled : Bool := false
  /-- Milliseconds after which it is called off. -/
  cancelAfter : Option Nat := none

/-- How an execution went. -/
structure Run where
  verdict : Verdict
  log : List LogEntry
  elapsedMs : Nat
  requests : List Request

def run (plan : Plan) (input : Json) (settings : EngineSettings) (w : Surroundings) : Run :=
  let nanos (ms : Nat) : Nat := ms * RetryPolicy.nanosPerMilli
  let u : Clock.Setup :=
    { plan, registry := w.registry, services := w.services, input, verbose := settings.verbose,
      start := w.start, deadline := settings.deadlineMs.map nanos }
  let m := Clock.Simulation.begin u settings.concurrency w.cancelled (w.cancelAfter.map nanos)
  let m := m.run u Clock.Simulation.plenty
  ⟨.ofExecution plan m.execution m.cancelled, m.execution.log,
    m.time / RetryPolicy.nanosPerMilli, m.requests⟩

/-- Runs a stored graph on an input. The graph is looked at first. -/
def execute (text input : String) (settings : EngineSettings) (w : Surroundings) :
    Except EngineError Run :=
  match prepare w.registry text with
  | .error e => .error (.graph e)
  | .ok plan =>
      match readInput input with
      | .error m => .error (.malformedInput m)
      | .ok v => .ok (run plan v settings w)

end Engine

end PortGraph
