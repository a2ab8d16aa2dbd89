import PortGraph.Run.NodeRun
import PortGraph.Work.Basic

/-!
How a started node ends: what follows an attempt, what is reported in the end, and the faults that
stop a whole execution because they must not happen.
-/

namespace PortGraph

/-- States that an execution must not reach. -/
inductive Fault
  | neverReady (nodes : List NodeId)
  /-- A node ended that is not in the scope. -/
  | strange (node : NodeId)
  /-- A node ended that was not running. -/
  | untimely (node : NodeId) (state : RunState)
  | unroutable (target : PortRef)
  | promotedAgain (node : NodeId) (times : Nat)
  | lost (node : NodeId)
  | unplanned (node : NodeId)
  | noWorker (kind : NodeKind) (node : NodeId)
  | notLoop (node : NodeId)
deriving DecidableEq, Repr

def Fault.message : Fault → String
  | .neverReady nodes => "nodes never became ready: " ++ Text.joined ", " nodes
  | .strange n => s!"completion for unknown node {n}"
  | .untimely n state => s!"completion for node {n} in state {state.name.capitalize}"
  | .unroutable target => s!"{target.text} is not reachable from this scope"
  | .promotedAgain n times => s!"node {n} promoted {Text.Decimal.naturalText times} times"
  | .lost n => s!"task for node {n} did not finish"
  | .unplanned n => s!"node {n} is not in the plan"
  | .noWorker kind n => s!"no executor for {kind.tag} node {n}"
  | .notLoop n => s!"node {n} is not a loop"

inductive Outcome
  | succeeded (outputs : PortValues)
  | failed (error : NodeError)
  /-- Interrupted by the end of the execution. -/
  | cancelled
  | fatal (fault : Fault)
deriving DecidableEq

structure Completion where
  node : NodeId
  attempts : List Attempt
  outcome : Outcome
deriving DecidableEq

/-- What a scope hears of a node that it started. -/
inductive Report
  | ended (c : Completion)
  /-- The work on the node died without an outcome. -/
  | lost (node : NodeId)
deriving DecidableEq

def Report.node : Report → NodeId
  | .ended c => c.node
  | .lost n => n

/-- What follows an attempt. -/
inductive Sequel
  | again (delay : Nat)
  | over (outcome : Outcome)
deriving DecidableEq

namespace Attempt

/-- What is kept of an attempt with its result. -/
def ofResult (number elapsedMs : Nat) (result : Except NodeError PortValues) : Attempt :=
  let error := match result with
    | .ok _ => none
    | .error e => some e.attemptMessage
  ⟨number, elapsedMs, error⟩

end Attempt

namespace Worker

/-- A service failure that is reported in the end counts the attempts. -/
def counted (attempts : Nat) : NodeError → NodeError
  | .serviceFailed message _ => .serviceFailed message attempts
  | e => e

/-- The outcome when the given attempt was the last and failed. -/
def giveUp (w : Worker) (attempt : Nat) (e : NodeError) : Outcome :=
  let e := counted attempt e
  match w.fallback e with
  | some outputs => .succeeded outputs
  | none => .failed e

/-- A transient failure is repeated while the policy allows and there is time for the delay. -/
def sequel (w : Worker) (hasTime : Nat → Bool) (attempt draw : Nat) :
    Except NodeError PortValues → Sequel
  | .ok outputs => .over (.succeeded outputs)
  | .error e =>
      match w.policy with
      | none => .over (w.giveUp attempt e)
      | some policy =>
          let delay := policy.delay attempt draw
          if e.isTransient && policy.allowsAfter attempt && hasTime delay then .again delay
          else .over (w.giveUp attempt e)

/-- The attempts with the one that just ended, and what follows it. -/
def after (w : Worker) (hasTime : Nat → Bool) (attempts : List Attempt)
    (elapsedMs draw : Nat) (result : Except NodeError PortValues) : List Attempt × Sequel :=
  let number := attempts.length + 1
  (attempts ++ [.ofResult number elapsedMs result], w.sequel hasTime number draw result)

end Worker

end PortGraph
