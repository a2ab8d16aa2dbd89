import PortGraph.Run.NodeRun
import PortGraph.Run.Retry

/-!
Workers: what carries out the nodes of one kind. A worker sees the node, the values of its inputs
and the execution input, and either finishes or asks for a service and finishes with the reply.
-/

namespace PortGraph

inductive Action
  | finish (outputs : PortValues)
  /-- Asks for a service; the outputs follow from the reply. -/
  | ask (request : Request) (outputs : Json → PortValues)

structure Worker where
  begin : Node → PortValues → Json → Except NodeError Action
  /-- How transient failures are repeated, if at all. -/
  policy : Option RetryPolicy
  /-- What the node gives in place of its last failure, if anything. -/
  fallback : NodeError → Option PortValues

/-- The workers that an execution may use. -/
abbrev Registry := NodeKind → Option Worker

namespace Worker

def single (port : String) (v : Json) : PortValues := [(port, v)]

/-- The result of an action once its request is answered. -/
def settle (outputs : Json → PortValues) : Reply → Except NodeError PortValues
  | .ok v => .ok (outputs v)
  | .error fault => .error (.ofFault fault)

end Worker

namespace Registry

/-- Whether nodes of a kind can run. Loops need no worker. -/
def supports (r : Registry) (kind : NodeKind) : Bool := kind == .loop || (r kind).isSome

end Registry

end PortGraph
