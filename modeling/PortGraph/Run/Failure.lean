import PortGraph.Port.Conversion
import PortGraph.Service.Request

/-!
Why a node failed, why it was passed over, and why a whole execution did not complete.
-/

namespace PortGraph

inductive NodeError
  /-- An input is missing or of no use. -/
  | invalidInput (port reason : String)
  | conversionFailed (port : String) (source target : PortType) (reason : String)
  /-- A service kept failing. -/
  | serviceFailed (message : String) (attempts : Nat)
  /-- A service refused the request. -/
  | serviceRejected (message : String)
  /-- A collection has more items than its loop may go through. -/
  | tooManyItems (maxIterations length : Nat)
  | iterationFailed (index : Nat) (node : NodeId) (reason : String)
  | failed (reason : String)
  | cancelled
deriving DecidableEq, Repr

namespace NodeError

def ofConversion (port : String) (e : Conversion.Error) : NodeError :=
  .conversionFailed port e.source e.target e.reason

def ofFault (f : ServiceFault) : NodeError :=
  if f.transient then .serviceFailed f.message 1 else .serviceRejected f.message

def message : NodeError → String
  | .invalidInput port reason => s!"invalid input '{port}': {reason}"
  | .conversionFailed port source target reason =>
      s!"cannot coerce {source.name} to {target.name} for input '{port}': {reason}"
  | .serviceFailed message attempts =>
      s!"external service failed after {Text.Decimal.naturalText attempts} attempt(s): {message}"
  | .serviceRejected message => s!"external service rejected the request: {message}"
  | .tooManyItems most length =>
      let count := Text.Decimal.naturalText length
      s!"collection of {count} items exceeds maxIterations {Text.Decimal.naturalText most}"
  | .iterationFailed index node reason =>
      s!"iteration {Text.Decimal.naturalText index} failed at node {node}: {reason}"
  | .failed reason => reason
  | .cancelled => "cancelled"

/-- What one attempt says of its failure: no count of attempts. -/
def attemptMessage : NodeError → String
  | .serviceFailed message _ => message
  | e => e.message

/-- Whether another attempt may succeed. -/
def isTransient : NodeError → Bool
  | .serviceFailed _ _ => true
  | _ => false

def reader : Reader NodeError :=
  Reader.tagged "NodeError" "kind"
    [("invalidInput", .record "struct variant NodeError::InvalidInput"
        (.invalidInput <$> .field "port" Reader.text <*> .field "reason" Reader.text)),
      ("coercionFailed", .record "struct variant NodeError::CoercionFailed"
        (.conversionFailed <$> .field "port" Reader.text <*> .field "from" PortType.reader
          <*> .field "to" PortType.reader <*> .field "reason" Reader.text)),
      ("externalFailure", .record "struct variant NodeError::ExternalFailure"
        (.serviceFailed <$> .field "message" Reader.text <*> .field "attempts" Reader.nat32)),
      ("externalRejected", .record "struct variant NodeError::ExternalRejected"
        (.serviceRejected <$> .field "message" Reader.text)),
      ("loopBounded", .record "struct variant NodeError::LoopBounded"
        (.tooManyItems <$> .field "maxIterations" Reader.nat32
          <*> .field "collectionLen" Reader.count)),
      ("loopIterationFailed", .record "struct variant NodeError::LoopIterationFailed"
        (.iterationFailed <$> .field "index" Reader.count <*> .field "nodeId" Reader.text
          <*> .field "reason" Reader.text)),
      ("failed", .record "struct variant NodeError::Failed"
        (.failed <$> .field "reason" Reader.text)),
      ("cancelled", .bare .cancelled)]

def toJson : NodeError → Json
  | .invalidInput port reason =>
      .record [("kind", .string "invalidInput"), ("port", .string port), ("reason", .string reason)]
  | .conversionFailed port source target reason =>
      .record [("kind", .string "coercionFailed"), ("port", .string port),
        ("from", source.toJson), ("to", target.toJson), ("reason", .string reason)]
  | .serviceFailed message attempts =>
      .record [("kind", .string "externalFailure"), ("message", .string message),
        ("attempts", .ofNat attempts)]
  | .serviceRejected message =>
      .record [("kind", .string "externalRejected"), ("message", .string message)]
  | .tooManyItems most length =>
      .record [("kind", .string "loopBounded"), ("maxIterations", .ofNat most),
        ("collectionLen", .ofNat length)]
  | .iterationFailed index node reason =>
      .record [("kind", .string "loopIterationFailed"), ("index", .ofNat index),
        ("nodeId", .string node), ("reason", .string reason)]
  | .failed reason => .record [("kind", .string "failed"), ("reason", .string reason)]
  | .cancelled => .record [("kind", .string "cancelled")]

end NodeError

/-- Why a node never ran. -/
inductive SkipReason
  /-- A node it depends on failed; `origin` is the one that failed first. -/
  | feederFailed (origin : NodeId)
  /-- It feeds nothing but the branch that a condition did not take. -/
  | branchNotTaken (condition : NodeId)
  /-- The condition that holds it back ended without a value. -/
  | conditionUnresolved (condition : NodeId)
  | unreachable
  /-- The execution stopped first. -/
  | aborted
deriving DecidableEq, Repr

namespace SkipReason

/-- The failed node that the skip passes on to consumers. -/
def failedOrigin? : SkipReason → Option NodeId
  | .feederFailed origin => some origin
  | _ => none

def reader : Reader SkipReason :=
  Reader.tagged "SkipReason" "kind"
    [("upstreamFailed", .record "struct variant SkipReason::UpstreamFailed"
        (.feederFailed <$> .field "node" Reader.text)),
      ("branchNotTaken", .record "struct variant SkipReason::BranchNotTaken"
        (.branchNotTaken <$> .field "condition" Reader.text)),
      ("conditionUnresolved", .record "struct variant SkipReason::ConditionUnresolved"
        (.conditionUnresolved <$> .field "condition" Reader.text)),
      ("unreachable", .bare .unreachable),
      ("aborted", .bare .aborted)]

def toJson : SkipReason → Json
  | .feederFailed origin =>
      .record [("kind", .string "upstreamFailed"), ("node", .string origin)]
  | .branchNotTaken condition =>
      .record [("kind", .string "branchNotTaken"), ("condition", .string condition)]
  | .conditionUnresolved condition =>
      .record [("kind", .string "conditionUnresolved"), ("condition", .string condition)]
  | .unreachable => .record [("kind", .string "unreachable")]
  | .aborted => .record [("kind", .string "aborted")]

end SkipReason

inductive ExecutionError
  /-- The first node that failed. -/
  | nodeFailed (node : NodeId) (error : NodeError)
  /-- No value reached the output. -/
  | outputNotProduced (reason : String)
  | cancelled
  | timedOut
  /-- The scheduler found itself in an impossible state. -/
  | invariantViolated (reason : String)
deriving DecidableEq, Repr

namespace ExecutionError

def message : ExecutionError → String
  | .nodeFailed node error => s!"node {node} failed: {error.message}"
  | .outputNotProduced reason => s!"output not produced: {reason}"
  | .cancelled => "execution cancelled"
  | .timedOut => "execution deadline exceeded"
  | .invariantViolated reason => s!"scheduler invariant violated: {reason}"

def reader : Reader ExecutionError :=
  Reader.tagged "ExecutionError" "kind"
    [("nodeFailed", .record "struct variant ExecutionError::NodeFailed"
        (.nodeFailed <$> .field "nodeId" Reader.text <*> .field "error" NodeError.reader)),
      ("outputNotProduced", .record "struct variant ExecutionError::OutputNotProduced"
        (.outputNotProduced <$> .field "reason" Reader.text)),
      ("cancelled", .bare .cancelled),
      ("timedOut", .bare .timedOut),
      ("schedulerInvariantViolated",
        .record "struct variant ExecutionError::SchedulerInvariantViolated"
        (.invariantViolated <$> .field "reason" Reader.text))]

def toJson : ExecutionError → Json
  | .nodeFailed node error =>
      .record [("kind", .string "nodeFailed"), ("nodeId", .string node), ("error", error.toJson)]
  | .outputNotProduced reason =>
      .record [("kind", .string "outputNotProduced"), ("reason", .string reason)]
  | .cancelled => .record [("kind", .string "cancelled")]
  | .timedOut => .record [("kind", .string "timedOut")]
  | .invariantViolated reason =>
      .record [("kind", .string "schedulerInvariantViolated"), ("reason", .string reason)]

end ExecutionError

end PortGraph
