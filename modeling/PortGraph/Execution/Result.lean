import PortGraph.Execution.Basic
import PortGraph.Ident.Basic

/-!
What comes of an execution. The output is the value that reached the output node, or the values of
the sinks; without it, the first of these tells why: a fault, a cancellation, the deadline, the
first failed node, the states of the nodes that should have delivered.
-/

namespace PortGraph

inductive ExecutionStatus
  | completed
  | failed
  | cancelled
  | timedOut
deriving DecidableEq, Repr

namespace ExecutionStatus

def name : ExecutionStatus → String
  | .completed => "completed"
  | .failed => "failed"
  | .cancelled => "cancelled"
  | .timedOut => "timedOut"

def isSuccess (s : ExecutionStatus) : Bool := s == .completed

def reader : Reader ExecutionStatus :=
  Reader.choice ([completed, failed, cancelled, timedOut].map fun s => (s.name, s))

end ExecutionStatus

/-- The verdict on an execution that is over. -/
structure Verdict where
  status : ExecutionStatus
  output : Json
  error : Option ExecutionError
deriving DecidableEq

namespace Verdict

/-- The value of a sink: that of its only output, or an object of all outputs. -/
def sinkValue (p : Plan) (id : NodeId) (outputs : PortValues) : Json :=
  match (p.node? id).map Node.outputs with
  | some [port] => outputs.value port.name
  | _ => .object outputs

/-- The values of all sinks, if all succeeded. -/
def sinkValues? (p : Plan) (s : Scope) (ids : List NodeId) : Option (List (String × Json)) :=
  ids.mapM fun id => do
    let r ← s.run? id
    if r.state = .succeeded then some (id, sinkValue p id (r.outputs.getD [])) else none

/-- The output, if it was produced. One sink gives its value, several an object of theirs. -/
def output? (p : Plan) (s : Scope) : Option Json :=
  match p.output with
  | .node id => do
      let r ← s.run? id
      if r.state = .succeeded then some (r.inputs.value PortName.data) else none
  | .sinks ids =>
      (sinkValues? p s ids).map fun
        | [] => .null
        | [(_, v)] => v
        | vs => .record vs

/-- The states of the nodes that should have delivered. -/
def missing (p : Plan) (s : Scope) : String :=
  let ids := match p.output with
    | .node id => [id]
    | .sinks ids => ids
  let states := ids.filterMap fun id => (s.run? id).map fun r => s!"{id} {r.state.name}"
  "output nodes did not succeed (" ++ Text.joined ", " states ++ ")"

def ofFailure (e : ExecutionError) : Verdict := ⟨.failed, .null, some e⟩

/-- `cancelled` says whether the caller called the execution off. -/
def ofScope (p : Plan) (s : Scope) (cancelled aborted : Bool) (log : List LogEntry) : Verdict :=
  match s.fault, output? p s with
  | some fault, _ => ofFailure (.invariantViolated fault.message)
  | none, some output => ⟨.completed, output, none⟩
  | none, none =>
      if cancelled then ⟨.cancelled, .null, some .cancelled⟩
      else if aborted then ⟨.timedOut, .null, some .timedOut⟩
      else
        match log.find? fun e => e.state == .failed with
        | some e => ofFailure (.nodeFailed e.node (e.error.getD (.failed "no error recorded")))
        | none => ofFailure (.outputNotProduced (missing p s))

/-- The verdict on an execution once its top level has closed. -/
def ofExecution (p : Plan) (e : Execution) (cancelled : Bool) : Verdict :=
  match e.site? [] with
  | some t => ofScope p t.scope cancelled e.aborted e.log
  | none => ofScope p (.new none) cancelled e.aborted e.log

end Verdict

structure ExecutionResult where
  id : ExecutionId
  verdict : Verdict
  log : List LogEntry
  elapsedMs : Nat
  startedAt : Timestamp
deriving DecidableEq

namespace ExecutionResult

def fields (r : ExecutionResult) : List (String × Json) :=
  [("executionId", .string r.id.text), ("status", .string r.verdict.status.name),
    ("output", r.verdict.output)] ++
    (r.verdict.error.map fun e => ("error", e.toJson)).toList ++
    [("log", .array (r.log.map LogEntry.toJson)), ("elapsedMs", .ofNat r.elapsedMs),
      ("startedAt", .string r.startedAt.text)]

def toJson (r : ExecutionResult) : Json := .record r.fields

def recordReader : Record ExecutionResult :=
  (fun id status output error log elapsedMs startedAt =>
      ⟨id, ⟨status, output, error⟩, log, elapsedMs, startedAt⟩) <$>
    .field "executionId" Ident.reader <*> .field "status" ExecutionStatus.reader
    <*> .field "output" Reader.any
    <*> .fieldOr "error" (Reader.optional ExecutionError.reader) none
    <*> .field "log" (Reader.list LogEntry.reader) <*> .field "elapsedMs" Reader.nat64
    <*> .field "startedAt" Timestamp.reader

def reader : Reader ExecutionResult := Record.reader "struct ExecutionResult" recordReader

end ExecutionResult

/-- The result of an execution together with the workflow that it belongs to. -/
structure ExecutionRecord where
  workflow : WorkflowId
  result : ExecutionResult
deriving DecidableEq

namespace ExecutionRecord

def reader : Reader ExecutionRecord := fun r s =>
  (fun (workflow, result) => ⟨workflow, result⟩) <$>
    Record.beside "struct ExecutionRecord" "workflowId" Ident.reader
      ExecutionResult.recordReader r s

def toJson (r : ExecutionRecord) : Json :=
  .record (("workflowId", .string r.workflow.text) :: r.result.fields)

end ExecutionRecord

end PortGraph
