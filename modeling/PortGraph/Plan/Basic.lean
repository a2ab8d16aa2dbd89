import PortGraph.Plan.Nesting

/-!
Plans: a graph with everything about its execution that can be told beforehand. That is the rank
of each node, the scopes, the nodes held back behind each condition, the nodes that no source
reaches, and where the output is read.
-/

namespace PortGraph

/-- A value port of a condition. -/
inductive Branch
  | whenTrue
  | whenFalse
deriving DecidableEq, Repr

namespace Branch

def port : Branch → String
  | .whenTrue => PortName.trueValue
  | .whenFalse => PortName.falseValue

def taken (condition : Bool) : Branch := if condition then .whenTrue else .whenFalse

def other : Branch → Branch
  | .whenTrue => .whenFalse
  | .whenFalse => .whenTrue

end Branch

/-- A branch that a node waits for. -/
structure Gate where
  condition : NodeId
  branch : Branch
deriving DecidableEq, Repr

/-- Where a value written to an input lands, seen from one scope. -/
inductive Route
  /-- The node runs in this scope. -/
  | member (node : NodeId)
  /-- The node is in the body of a loop that runs in this scope. -/
  | nested (loop : NodeId)
  /-- The input is the result of the loop whose body this scope is. -/
  | resultSlot
deriving DecidableEq, Repr

/-- What the output of an execution is read from. -/
inductive OutputTarget
  | node (id : NodeId)
  /-- All sinks of the top level. -/
  | sinks (ids : List NodeId)
deriving DecidableEq, Repr

structure Plan where
  graph : Graph
  nesting : Nesting
  ranks : List (NodeId × Nat)
  members : List (ScopeId × List NodeId)
  /-- The nodes that feed one branch of a condition and nothing else, in ascending order. -/
  exclusives : List (Gate × List NodeId)
  /-- In ascending order. -/
  unreachable : List NodeId
  output : OutputTarget
deriving DecidableEq

namespace Plan

/-! ### Parts of a plan -/

/-- The connections that carry a node's outputs to its scope: those of `item` and `index` belong to
the iterations of a loop. -/
def carried (g : Graph) (id : NodeId) : List Connection :=
  let isLoop := g.kind? id == some .loop
  (g.successors id).filter fun c => !(isLoop && Nesting.isIterationPort c.label.sourcePort)

/-- The length of the longest path to each node along edges that are not loop-back. -/
def ranksOf (g : Graph) : List (NodeId × Nat) :=
  g.order.foldl (fun ranks id =>
    let before := (g.predecessors id).filter fun c => !c.label.loopBack
    let known := before.filterMap fun c => (ranks.lookup c.node).map (· + 1)
    ranks ++ [(id, known.foldl max 0)]) []

/-- By rank, and by id within a rank. -/
def precedes (ranks : List (NodeId × Nat)) (a b : NodeId) : Bool :=
  let ra := (ranks.lookup a).getD 0
  let rb := (ranks.lookup b).getD 0
  ra < rb || (ra == rb && decide (a ≤ b))

def membersOf (g : Graph) (n : Nesting) (ranks : List (NodeId × Nat)) (scope : ScopeId) :
    List NodeId :=
  sortBy (precedes ranks) (g.order.filter fun id => n.scope id == scope)

/-- The nodes of a scope all of whose values go into one branch of a condition, directly or through
one another. A node comes after all that it feeds when the members are taken in reverse. -/
def exclusivesOf (g : Graph) (members : List NodeId) (gate : Gate) : List NodeId :=
  members.reverse.foldl (fun found id =>
    if id = gate.condition then found
    else
      let out := carried g id
      let within := out.all fun c =>
        (c.node == gate.condition && c.label.targetPort == gate.branch.port) ||
          found.contains c.node
      if !out.isEmpty && within then insertSorted found id else found) []

def gatesOf (g : Graph) (members : List NodeId) : List (Gate × List NodeId) :=
  let conditions := members.filter fun id => g.kind? id == some .condition
  let gates := conditions.flatMap fun c => [⟨c, .whenTrue⟩, ⟨c, .whenFalse⟩]
  (gates.map fun gate => (gate, exclusivesOf g members gate)).filter fun e => !e.2.isEmpty

def unreachableOf (g : Graph) : List NodeId :=
  let start := g.entries.map Node.id
  let next (id : NodeId) := (g.successors id).map Connection.node
  let seen := Order.reach next (start.length + g.edges.length + 1) [] start
  ascending (g.ids.filter fun id => !seen.contains id)

def sinksOf (g : Graph) (unreachable top : List NodeId) : List NodeId :=
  top.filter fun id => !unreachable.contains id && (carried g id).isEmpty

/-! ### Planning -/

def ofGraph (g : Graph) : Except GraphError Plan := do
  let outputs := (g.nodes.filter fun n => n.kind == .output).map Node.id
  if 1 < outputs.length then .error (.manyOutputs (ascending outputs))
  let nesting ← Nesting.ofGraph g
  let ranks := ranksOf g
  let scopeIds : List ScopeId := none :: nesting.loops.map fun l => some l.1
  let members := scopeIds.map fun s => (s, membersOf g nesting ranks s)
  let unreachable := unreachableOf g
  let output ← match outputs with
    | [] => .ok (.sinks (sinksOf g unreachable ((members.lookup none).getD [])))
    | id :: _ =>
        match nesting.scope id with
        | some loop => .error (.invalidBody loop (.output id))
        | none => .ok (.node id)
  return {
    graph := g
    nesting
    ranks
    members
    exclusives := members.flatMap fun m => gatesOf g m.2
    unreachable
    output }

/-! ### Questions to a plan -/

variable (p : Plan)

def node? (id : NodeId) : Option Node := p.graph.node? id

def kind? (id : NodeId) : Option NodeKind := p.graph.kind? id

def rank (id : NodeId) : Nat := (p.ranks.lookup id).getD 0

/-- The innermost loop whose body holds the node. -/
def scopeOf (id : NodeId) : ScopeId := p.nesting.scope id

/-- The nodes that run in a scope, by rank and id. -/
def membersIn (scope : ScopeId) : List NodeId := (p.members.lookup scope).getD []

def loop? (id : NodeId) : Option LoopPlan := p.nesting.loops.lookup id

/-- The branches that a node waits for. -/
def gates (id : NodeId) : List Gate := (p.exclusives.filter fun e => e.2.contains id).map (·.1)

/-- The nodes that wait for a branch. -/
def exclusive (gate : Gate) : List NodeId := (p.exclusives.lookup gate).getD []

def forwardOut (id : NodeId) : List Connection := carried p.graph id

def seeds (loop : NodeId) : List Connection := Nesting.seeds p.graph loop

/-- The loop at the level of `scope` around a node in scope `inner`; the fuel bounds the levels. -/
def loopToward (scope : ScopeId) : Nat → ScopeId → Option NodeId
  | 0, _ | _, none => none
  | fuel + 1, some loop =>
      let parent := p.scopeOf loop
      if parent = scope then some loop else loopToward scope fuel parent

/-- Where a value for an input lands when it is produced in `scope`; none if the input cannot be
seen from there. -/
def route (scope : ScopeId) (target : PortRef) : Option Route :=
  match p.nesting.scopes.lookup target.node with
  | none => none
  | some inner =>
      if inner = scope then some (.member target.node)
      else if scope = some target.node ∧ target.port = PortName.result then some .resultSlot
      else (p.loopToward scope p.nesting.loops.length inner).map .nested

/-! ### Values along the edges -/

/-- The connected inputs that a node waits for. A loop does not wait for its own result. -/
def connectedInputs (n : Node) : List String :=
  ((n.inputs.filter fun port => !Graph.returnsToLoop n port.name).filter fun port =>
    (p.graph.inbound? n.id port.name).isSome).map Port.name

/-- The inputs that are not connected and take the property of their name, with its value. -/
def fallbacks (n : Node) : List (String × Json) :=
  ((n.inputs.filter fun port => !Graph.returnsToLoop n port.name).filter fun port =>
    (p.graph.inbound? n.id port.name).isNone).filterMap fun port =>
      (n.properties.find? port.name).map fun v => (port.name, v)

/-- The values that a node sends out when it succeeds: null where it set none. -/
def outboundValues (id : NodeId) (outputs : Table Json) : List (PortRef × Json) :=
  (p.forwardOut id).map fun c =>
    (⟨c.node, c.label.targetPort⟩, (outputs.find? c.label.sourcePort).getD .null)

/-- The values that start an iteration: the element and its position. -/
def iterationValues (loop : NodeId) (item : Json) (index : Nat) : List (PortRef × Json) :=
  (p.seeds loop).map fun c =>
    (⟨c.node, c.label.targetPort⟩,
      if c.label.sourcePort = PortName.index then .ofNat index else item)

end Plan

end PortGraph
