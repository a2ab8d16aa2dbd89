import PortGraph.Scope.Signal

/-!
The life of a scope: it is seeded, starts the nodes of its queue one by one, hears how they ended,
and is closed when nothing is left to wait for.
-/

namespace PortGraph.Scope

variable (p : Plan) (now : Timestamp)

/-- A node at the start of its scope, and the properties that its inputs reject. -/
def freshRun (node : Node) : NodeRun × List NodeError :=
  let r := (p.connectedInputs node).foldl NodeRun.awaitInput (.new node.id)
  let r := { r with
    pendingGates := (p.gates node.id).length
    pendingCaptures := ((p.loop? node.id).map fun l => l.captures.length).getD 0 }
  (p.fallbacks node).foldl (fun (r, errors) (port, value) =>
    match NodeRun.deliver node r port value with
    | (r, .ok ()) => (r, errors)
    | (r, .error e) => (r, errors ++ [e])) (r, [])

/-- The members that no source reaches; only the top level has any. -/
def unreached (owner : ScopeId) : List NodeId :=
  if owner.isNone then (p.membersIn owner).filter p.unreachable.contains else []

/-- Whether a condition takes its value from a property, or has none and counts as false. -/
def isSelfDecided (id : NodeId) : Bool :=
  p.kind? id == some .condition && (p.graph.inbound? id PortName.condition).isNone

/-- Ends the given members, which never run. -/
def passOver (reason : SkipReason) (s : Scope) (ids : List NodeId) : Scope :=
  ids.foldl (fun s id =>
    match s.run? id with
    | some r => s.putEnded (r.skip now reason)
    | none => s) s

/-- A scope as it begins: fresh runs, the values that were given to it, and the queue. -/
def seed (owner : ScopeId) (deliveries : List (PortRef × Json)) : Scope :=
  let members := p.membersIn owner
  let fresh : List (NodeRun × List NodeError) := (members.filterMap p.node?).map (freshRun p)
  let runs : Table NodeRun := Table.ofEntries (fresh.map fun f => (f.1.node, f.1))
  let dead := unreached p owner
  let s := passOver now .unreachable { new owner with runs } dead
  let rejected := fresh.flatMap fun f => f.2.map fun e => Signal.fail f.1.node e
  s.handle p now <|
    dead.map (fun id => Signal.cascade id id) ++ rejected ++
      (members.filter (isSelfDecided p)).map Signal.resolve ++
      deliveries.map (fun d => Signal.route d.1 d.2) ++ members.map Signal.promote

/-- Starts the first node of the queue. -/
def startNext? (s : Scope) : Option (Scope × NodeRun) := do
  match s.ready with
  | [] => none
  | (_, id) :: rest =>
      let r := (← s.run? id).start now
      return ({ s.put r with ready := rest }, r)

/-- A running node has ended: its values go out, or its consumers are told. -/
def complete (s : Scope) (c : Completion) : Scope :=
  match s.run? c.node with
  | none => s.violate (.strange c.node)
  | some r =>
      if r.state = .running then
        let r := { r with attempts := c.attempts }
        match c.outcome with
        | .succeeded outputs =>
            (s.putEnded (r.succeed now outputs)).handle p now
              ((p.outboundValues c.node outputs).map fun v => .route v.1 v.2)
        | .failed e =>
            (s.putEnded (r.fail now e)).handle p now [.cascade c.node c.node, .settle c.node]
        | .cancelled => s.putEnded (r.cancel now)
        | .fatal f => (s.putEnded (r.cancel now)).violate f
      else s.violate (.untimely c.node r.state)

def hear (s : Scope) : Report → Scope
  | .ended c => s.complete p now c
  | .lost id => s.violate (.lost id)

/-- Ends what has not ended. Without an abort there must be nothing of the kind. -/
def close (s : Scope) (aborted : Bool) : Scope :=
  let rest := s.unfinished
  let s := if aborted || rest.isEmpty then s else s.violate (.neverReady rest)
  rest.foldl (fun s id =>
    match s.run? id with
    | none => s
    | some r =>
        s.putEnded (if r.state = .running then r.cancel now else r.skip now .aborted)) s

end PortGraph.Scope
