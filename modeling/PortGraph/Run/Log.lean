import PortGraph.Json.Digest
import PortGraph.Run.NodeRun

/-!
The log of an execution: one entry for each node run that reached a terminal state, with digests of
its values and, if asked for, the values themselves.
-/

namespace PortGraph

structure LogEntry where
  node : NodeId
  kind : NodeKind
  state : RunState
  /-- The iterations of the loops around the node, outermost first. -/
  iteration : List Nat
  startedAt : Option Timestamp
  finishedAt : Option Timestamp
  elapsedMs : Nat
  inputsDigest : String
  outputsDigest : Option String
  error : Option NodeError
  skipReason : Option SkipReason
  attempts : List Attempt
  conversions : List Converted
  inputs : Option PortValues
  outputs : Option PortValues
deriving DecidableEq

namespace LogEntry

def ofRun (node : Node) (r : NodeRun) (iteration : List Nat) (verbose : Bool) : LogEntry where
  node := r.node
  kind := node.kind
  state := r.state
  iteration := iteration
  startedAt := r.startedAt
  finishedAt := r.finishedAt
  elapsedMs := r.elapsedMs
  inputsDigest := Json.digest (.object r.inputs)
  outputsDigest :=
    if r.state = .succeeded then some (Json.digest (.object (r.outputs.getD []))) else none
  error := r.error
  skipReason := r.skipReason
  attempts := r.attempts
  conversions := r.conversions
  inputs := if verbose then some r.inputs else none
  outputs := if verbose then r.outputs else none

def reader : Reader LogEntry :=
  Record.reader "struct LogEntry"
    (LogEntry.mk <$> .field "nodeId" Reader.text <*> .field "type" NodeKind.reader
      <*> .field "state" RunState.reader <*> .fieldOr "iteration" (Reader.list Reader.count) []
      <*> .fieldIn "startedAt" Timestamp.reader <*> .fieldIn "finishedAt" Timestamp.reader
      <*> .field "elapsedMs" Reader.nat64 <*> .field "inputsDigest" Reader.text
      <*> .fieldOr "outputsDigest" (Reader.optional Reader.text) none
      <*> .fieldOr "error" (Reader.optional NodeError.reader) none
      <*> .fieldOr "skipReason" (Reader.optional SkipReason.reader) none
      <*> .fieldOr "attempts" (Reader.list Attempt.reader) []
      <*> .fieldOr "coercions" (Reader.list Converted.reader) []
      <*> .fieldOr "inputs" (Reader.optional Reader.fields) none
      <*> .fieldOr "outputs" (Reader.optional Reader.fields) none)

private def timeJson (t : Option Timestamp) : Json := .ofText? (t.map Timestamp.text)

/-- A member that is left out when there is no value. -/
private def present (name : String) (v : Option Json) : List (String × Json) :=
  (v.map fun v => (name, v)).toList

private def nonempty (name : String) (items : List Json) : List (String × Json) :=
  if items.isEmpty then [] else [(name, .array items)]

def toJson (e : LogEntry) : Json :=
  .record ([("nodeId", .string e.node), ("type", .string e.kind.tag),
    ("state", .string e.state.name),
      ("startedAt", timeJson e.startedAt), ("finishedAt", timeJson e.finishedAt),
      ("elapsedMs", .ofNat e.elapsedMs), ("inputsDigest", .string e.inputsDigest)] ++
    nonempty "iteration" (e.iteration.map .ofNat) ++
    present "outputsDigest" (e.outputsDigest.map .string) ++
    present "error" (e.error.map NodeError.toJson) ++
    present "skipReason" (e.skipReason.map SkipReason.toJson) ++
    nonempty "attempts" (e.attempts.map Attempt.toJson) ++
    nonempty "coercions" (e.conversions.map Converted.toJson) ++
    present "inputs" (e.inputs.map .object) ++
    present "outputs" (e.outputs.map .object))

end LogEntry

end PortGraph
