import PortGraph.Node.Basic
import PortGraph.Run.Retry
import PortGraph.Time.Timestamp

/-!
The state of one node within one scope, from waiting for its inputs to a terminal state.
-/

namespace PortGraph

/-- Values by the names of ports. -/
abbrev PortValues := Table Json

inductive RunState
  /-- Waiting for inputs, values for its body, or a condition. -/
  | pending
  /-- In the queue. -/
  | ready
  | running
  | succeeded
  | failed
  /-- Never ran. -/
  | skipped
  /-- Interrupted. -/
  | cancelled
deriving DecidableEq, Repr

namespace RunState

def name : RunState → String
  | .pending => "pending"
  | .ready => "ready"
  | .running => "running"
  | .succeeded => "succeeded"
  | .failed => "failed"
  | .skipped => "skipped"
  | .cancelled => "cancelled"

def isTerminal : RunState → Bool
  | .succeeded | .failed | .skipped | .cancelled => true
  | .pending | .ready | .running => false

def reader : Reader RunState :=
  Reader.choice
    ([pending, ready, running, succeeded, failed, skipped, cancelled].map fun s => (s.name, s))

end RunState

structure NodeRun where
  node : NodeId
  state : RunState
  /-- Connected inputs that still wait for a value, in ascending order. -/
  pendingInputs : List String
  inputs : PortValues
  outputs : Option PortValues
  error : Option NodeError
  skipReason : Option SkipReason
  startedAt : Option Timestamp
  finishedAt : Option Timestamp
  elapsedMs : Nat
  attempts : List Attempt
  conversions : List Converted
  /-- Values still to come for the body of this loop. -/
  pendingCaptures : Nat
  /-- Condition branches not yet settled in favour of this node. -/
  pendingGates : Nat
  /-- Value ports of a condition whose feeder failed, with the node that failed first. -/
  failedPorts : Table NodeId
  /-- How often the node was put in the queue. -/
  promotions : Nat
deriving DecidableEq

namespace NodeRun

def new (node : NodeId) : NodeRun where
  node := node
  state := .pending
  pendingInputs := []
  inputs := []
  outputs := none
  error := none
  skipReason := none
  startedAt := none
  finishedAt := none
  elapsedMs := 0
  attempts := []
  conversions := []
  pendingCaptures := 0
  pendingGates := 0
  failedPorts := []
  promotions := 0

/-- Whether nothing holds the node back. -/
def isSatisfied (r : NodeRun) : Bool :=
  r.state == .pending && r.pendingInputs.isEmpty && r.pendingCaptures == 0 && r.pendingGates == 0

def awaitInput (r : NodeRun) (port : String) : NodeRun :=
  { r with pendingInputs := insertSorted r.pendingInputs port }

def dropInput (r : NodeRun) (port : String) : NodeRun :=
  { r with pendingInputs := r.pendingInputs.filter fun p => !(p == port) }

def markReady (r : NodeRun) : NodeRun := { r with state := .ready, promotions := r.promotions + 1 }

def start (r : NodeRun) (now : Timestamp) : NodeRun :=
  { r with state := .running, startedAt := some now }

private def finish (r : NodeRun) (now : Timestamp) : NodeRun :=
  { r with
    finishedAt := some now
    elapsedMs := match r.startedAt with
      | some t => now.millisSince t
      | none => r.elapsedMs }

def succeed (r : NodeRun) (now : Timestamp) (outputs : PortValues) : NodeRun :=
  finish { r with state := .succeeded, outputs := some outputs } now

def fail (r : NodeRun) (now : Timestamp) (error : NodeError) : NodeRun :=
  finish { r with state := .failed, error := some error } now

def skip (r : NodeRun) (now : Timestamp) (reason : SkipReason) : NodeRun :=
  finish { r with state := .skipped, skipReason := some reason } now

def cancel (r : NodeRun) (now : Timestamp) : NodeRun :=
  finish { r with state := .cancelled, error := some .cancelled } now

/-- Writes a value into an input, converted to the type of the port. The input no longer waits even
when the conversion fails. -/
def deliver (node : Node) (r : NodeRun) (port : String) (value : Json) :
    NodeRun × Except NodeError Unit :=
  let r := r.dropInput port
  let target := ((node.input? port).map Port.type).getD .any
  match Conversion.convert value target with
  | .error e => (r, .error (.ofConversion port e))
  | .ok (value, applied) =>
      let conversions := match applied with
        | some (source, target) => r.conversions ++ [⟨port, source, target⟩]
        | none => r.conversions
      ({ r with conversions, inputs := r.inputs.insert port value }, .ok ())

end NodeRun

end PortGraph
