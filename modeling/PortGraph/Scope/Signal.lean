import PortGraph.Scope.Basic
import PortGraph.Work.Input

/-!
What each signal does to a scope. `react` handles one signal and names those that follow from it;
`drain` handles a list of them, what follows from a signal before the rest.
-/

namespace PortGraph.Scope

variable (p : Plan) (now : Timestamp)

/-- A scope starts from fresh runs and only a waiting run is promoted. -/
def maxPromotions : Nat := 1

def reactRoute (s : Scope) (target : PortRef) (value : Json) : Scope × List Signal :=
  match p.route s.owner target with
  | some (.member id) => (s, [.write id target.port value])
  | some (.nested loop) =>
      let s := s.change loop fun r => { r with pendingCaptures := r.pendingCaptures - 1 }
      let values := (s.handed.find? loop).getD [] ++ [(target, value)]
      ({ s with handed := s.handed.insert loop values }, [.promote loop])
  | some .resultSlot => ({ s with result := some value }, [])
  | none => (s.violate (.unroutable target), [])

def reactWrite (s : Scope) (id : NodeId) (port : String) (value : Json) : Scope × List Signal :=
  match p.node? id, s.run? id with
  | some node, some r =>
      if r.state = .pending then
        match NodeRun.deliver node r port value with
        | (r, .error e) => (s.put r, [.fail id e])
        | (r, .ok ()) =>
            let decides := node.kind == .condition && port == PortName.condition
            (s.put r, if decides then [.resolve id, .promote id] else [.promote id])
      else (s, [])
  | _, _ => (s, [])

def reactResolve (s : Scope) (id : NodeId) : Scope × List Signal :=
  match s.resolved.find? id, s.run? id with
  | none, some r =>
      if r.state.isTerminal then (s, [])
      else
        match r.inputs.truth PortName.condition with
        | .error e => (s, [.fail id e])
        | .ok holds =>
            let branch := Branch.taken holds
            let released := p.exclusive ⟨id, branch⟩
            let dead := p.exclusive ⟨id, branch.other⟩
            let opened := released.foldl
              (fun s n => s.change n fun r => { r with pendingGates := r.pendingGates - 1 }) s
            ({ opened with resolved := opened.resolved.insert id holds },
              released.map .promote ++ dead.map (fun n => .skip n (.branchNotTaken id)) ++
                [.forgo id branch.other])
  | _, _ => (s, [])

/-- A value from a node that only this branch needs will not come. -/
def reactForgo (s : Scope) (id : NodeId) (branch : Branch) : Scope × List Signal :=
  match p.graph.inbound? id branch.port with
  | some feeder =>
      if (p.exclusive ⟨id, branch⟩).contains feeder.node then
        (s.change id fun r => r.dropInput branch.port, [.promote id])
      else (s, [.promote id])
  | none => (s, [.promote id])

/-- The failed node behind the value that the branch taken calls for. -/
def failedChoice? (s : Scope) (r : NodeRun) : Option NodeId := do
  let holds ← s.resolved.find? r.node
  r.failedPorts.find? (Branch.taken holds).port

def reactPromote (s : Scope) (id : NodeId) : Scope × List Signal :=
  match s.run? id with
  | none => (s, [])
  | some r =>
      if r.isSatisfied then
        match s.failedChoice? r with
        | some origin => (s, [.skip id (.feederFailed origin)])
        | none =>
            let r := r.markReady
            if maxPromotions < r.promotions then
              ((s.put r).violate (.promotedAgain id r.promotions), [])
            else ({ s.put r with ready := enqueue (p.rank id, id) s.ready }, [])
      else (s, [])

def reactCascade (s : Scope) (source origin : NodeId) : Scope × List Signal :=
  (s, (p.forwardOut source).filterMap fun c =>
    match p.route s.owner ⟨c.node, c.label.targetPort⟩ with
    | some (.member id) => some (.feederFailed id c.label.targetPort origin)
    | some (.nested loop) => some (.skip loop (.feederFailed origin))
    | some .resultSlot | none => none)

/-- A condition fails with what it depends on, unless an error counts as false; every other consumer
is skipped. -/
def reactFeederFailed (s : Scope) (id : NodeId) (port : String) (origin : NodeId) :
    Scope × List Signal :=
  match (p.node? id).map Node.settings with
  | some (.condition settings) =>
      if settings.errorAsFalse = false then
        (s, [.fail id (.failed s!"input '{port}' depends on failed node {origin}")])
      else if port = PortName.condition then (s, [.write id port (.bool false)])
      else
        match s.run? id with
        | some r =>
            if r.state = .pending then
              let r := r.dropInput port
              (s.put { r with failedPorts := r.failedPorts.insert port origin }, [.promote id])
            else (s, [])
        | none => (s, [])
  | _ => (s, [.skip id (.feederFailed origin)])

/-- Whether a node can still end without having run. -/
def isUnstarted (r : NodeRun) : Bool := !r.state.isTerminal && r.state != .running

def reactSkip (s : Scope) (id : NodeId) (reason : SkipReason) : Scope × List Signal :=
  match s.run? id with
  | none => (s, [])
  | some r =>
      if isUnstarted r then
        let passedOn := (reason.failedOrigin?.map fun origin => Signal.cascade id origin).toList
        ((s.dequeue id).putEnded (r.skip now reason), passedOn ++ [.settle id])
      else (s, [])

def reactFail (s : Scope) (id : NodeId) (e : NodeError) : Scope × List Signal :=
  match s.run? id with
  | none => (s, [])
  | some r =>
      if isUnstarted r then
        ((s.dequeue id).putEnded (r.fail now e), [.cascade id id, .settle id])
      else (s, [])

def reactSettle (s : Scope) (id : NodeId) : Scope × List Signal :=
  if s.resolved.contains id || p.kind? id != some .condition then (s, [])
  else
    let held := p.exclusive ⟨id, .whenTrue⟩ ++ p.exclusive ⟨id, .whenFalse⟩
    (s, held.map fun n => .skip n (.conditionUnresolved id))

/-- Handles one signal. -/
def react (s : Scope) : Signal → Scope × List Signal
  | .route target value => s.reactRoute p target value
  | .write id port value => s.reactWrite p id port value
  | .resolve id => s.reactResolve p id
  | .forgo id branch => s.reactForgo p id branch
  | .promote id => s.reactPromote p id
  | .cascade source origin => s.reactCascade p source origin
  | .feederFailed id port origin => s.reactFeederFailed p id port origin
  | .skip id reason => s.reactSkip now id reason
  | .fail id e => s.reactFail now id e
  | .settle id => s.reactSettle p id

/-- Handles signals within a budget; those that are left come back. -/
def drain (budget : Nat) (s : Scope) (signals : List Signal) : Scope × List Signal :=
  match budget, signals with
  | _, [] => (s, [])
  | 0, signals => (s, signals)
  | budget + 1, signal :: rest =>
      let (s, more) := s.react p now signal
      drain budget s (more ++ rest)

/-- Enough for everything that follows from the signals: each node ends at most once, each condition
gets a value at most once, and apart from that a signal leads to few others. -/
def budget (p : Plan) (signals : List Signal) : Nat :=
  let nodes := p.graph.nodes.length
  let edges := p.graph.edges.length
  (signals.length + nodes + 1) * (5 * nodes + 6 * edges + 10)

def handle (s : Scope) (signals : List Signal) : Scope :=
  (s.drain p now (budget p signals) signals).1

end PortGraph.Scope
