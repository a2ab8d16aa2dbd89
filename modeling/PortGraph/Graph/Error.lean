import PortGraph.Graph.Definition
import PortGraph.Port.Conversion

/-!
Why a stored graph cannot be used.
-/

namespace PortGraph

/-- How a loop body is wired in a way that cannot be run. -/
inductive BodyFault
  /-- A body node feeds an input of its loop other than `result`. -/
  | feedsLoop (node : NodeId) (port : String)
  | feedsOutside (node target : NodeId)
  /-- The collected results go back into the body. -/
  | resultsInside (target : NodeId)
  | resultFromOutside (source : NodeId)
  /-- A node lies in the bodies of two loops, neither of which is in the other. -/
  | overlap (node outer : NodeId)
  /-- The output node of the graph lies in the body. -/
  | output (node : NodeId)
deriving DecidableEq, Repr

def BodyFault.reason : BodyFault → String
  | .feedsLoop node port => s!"body node {node} feeds loop input '{port}'"
  | .feedsOutside node target => s!"body node {node} feeds {target} outside the body"
  | .resultsInside target => s!"'results' feeds body node {target}"
  | .resultFromOutside source => s!"'result' is fed by {source} which is not in the body"
  | .overlap node outer => s!"node {node} is also in the body of unrelated loop {outer}"
  | .output node => s!"data-output node {node} cannot run per iteration"

inductive GraphError
  | malformed (mismatch : Mismatch)
  | duplicateNode (node : NodeId)
  | unknownType (node : NodeId) (tag : String)
  | noExecutor (node : NodeId) (kind : NodeKind)
  | invalidProperties (node : NodeId) (complaints : List Complaint)
  | nodeNotFound (node : NodeId)
  | sourcePortNotFound (port : PortRef)
  | targetPortNotFound (port : PortRef)
  | alreadyConnected (port : PortRef)
  | incompatible (link : Link) (source target : PortType)
  | invalidDefault (port : PortRef) (error : Conversion.Error)
  | manyOutputs (nodes : List NodeId)
  | invalidBody (loop : NodeId) (fault : BodyFault)
  | tooDeep (loop : NodeId) (depth : Nat)
  | cycle (nodes : List NodeId)
deriving DecidableEq

namespace GraphError

/-- Whether the graph has a cycle; otherwise its shape is wrong. -/
def isCyclic : GraphError → Bool
  | .cycle _ => true
  | _ => false

def message : GraphError → String
  | .malformed m => s!"malformed graph definition: {m.message}"
  | .duplicateNode n => s!"duplicate node id: {n}"
  | .unknownType n tag => s!"node {n} has unknown type '{tag}'"
  | .noExecutor n kind => s!"no executor registered for '{kind.tag}' (node {n})"
  | .invalidProperties n cs =>
      s!"invalid properties on node {n}: " ++ Text.joined "; " (cs.map Complaint.message)
  | .nodeNotFound n => s!"node not found: {n}"
  | .sourcePortNotFound r => s!"source port '{r.port}' not found on node {r.node}"
  | .targetPortNotFound r => s!"target port '{r.port}' not found on node {r.node}"
  | .alreadyConnected r => s!"input port '{r.port}' on node {r.node} already has an edge"
  | .incompatible l s t =>
      s!"incompatible ports: {l.source.text} ({s.name}) -> {l.target.text} ({t.name})"
  | .invalidDefault r e =>
      s!"property '{r.port}' on node {r.node} does not fit its port: {e.message}"
  | .manyOutputs ns => s!"graph has {Text.Decimal.naturalText ns.length} data-output nodes"
  | .invalidBody l fault => s!"invalid body for loop {l}: {fault.reason}"
  | .tooDeep l depth => s!"loop {l} is nested {Text.Decimal.naturalText depth} levels deep"
  | .cycle ns => "graph contains a cycle through " ++ Text.joined ", " ns

end GraphError

/-- The two ways in which a graph is refused. -/
inductive GraphErrorKind
  | invalid
  | cyclic
deriving DecidableEq, Repr

namespace GraphErrorKind

def name : GraphErrorKind → String
  | .invalid => "GraphInvalid"
  | .cyclic => "GraphCyclic"

def reader : Reader GraphErrorKind :=
  Reader.choice ([invalid, cyclic].map fun k => (k.name, k))

end GraphErrorKind

def GraphError.kind (e : GraphError) : GraphErrorKind := if e.isCyclic then .cyclic else .invalid

end PortGraph
