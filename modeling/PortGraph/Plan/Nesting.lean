import PortGraph.Graph.Basic

/-!
Loops and scopes. The body of a loop is what its `item` and `index` outputs lead to without passing
through the loop; a body may feed only itself and the `result` input of its loop. Bodies nest, and
the scope of a node is the innermost loop whose body holds it.
-/

namespace PortGraph

/-- The top level, or the body of one loop. -/
abbrev ScopeId := Option NodeId

namespace Nesting

/-- The deepest nesting of loops. -/
def maxDepth : Nat := 16

def isIterationPort (port : String) : Bool := port == PortName.item || port == PortName.index

/-- The connections that start each iteration of a loop. -/
def seeds (g : Graph) (loop : NodeId) : List Connection :=
  (g.successors loop).filter fun c => isIterationPort c.label.sourcePort

/-- The nodes that a loop runs in each iteration, in ascending order. -/
def bodyOf (g : Graph) (loop : NodeId) : List NodeId :=
  let next (n : NodeId) : List NodeId := if n = loop then [] else g.forward n
  let start := (seeds g loop).map Connection.node
  let fuel := start.length + g.edges.length + 1
  ascending ((Order.reach next fuel [] start).filter fun n => n ≠ loop)

/-- The first way in which a body node feeds what it must not. -/
def leak? (g : Graph) (loop : NodeId) (body : List NodeId) (node : NodeId) : Option BodyFault :=
  (g.successors node).findSome? fun c =>
    if c.node = loop then
      if c.label.targetPort = PortName.result then none
      else some (.feedsLoop node c.label.targetPort)
    else if body.contains c.node then none
    else some (.feedsOutside node c.node)

def bodyFault? (g : Graph) (loop : NodeId) (body : List NodeId) : Option BodyFault :=
  (body.findSome? (leak? g loop body)).orElse fun _ =>
    ((g.successors loop).findSome? fun c =>
      if c.label.sourcePort = PortName.results ∧ body.contains c.node = true then
        some (.resultsInside c.node)
      else none).orElse fun _ =>
        match g.inbound? loop PortName.result with
        | some source =>
            if body.contains source.node then none else some (.resultFromOutside source.node)
        | none => none

/-- The loops in topological order. -/
def loopIds (g : Graph) : List NodeId := g.order.filter fun id => g.kind? id == some .loop

def body (bodies : List (NodeId × List NodeId)) (loop : NodeId) : List NodeId :=
  (bodies.lookup loop).getD []

/-- Loops from the largest body to the smallest. -/
def bySize (bodies : List (NodeId × List NodeId)) (loops : List NodeId) : List NodeId :=
  sortBy (fun a b => (body bodies b).length ≤ (body bodies a).length) loops

/-- The loops whose bodies hold a node, the outermost first. -/
def containing (bodies : List (NodeId × List NodeId)) (node : NodeId) : List NodeId :=
  bySize bodies ((bodies.filter fun b => b.2.contains node).map (·.1))

/-- The first loop in the list that is not in the body of the one before it. -/
def unnested? (bodies : List (NodeId × List NodeId)) (node : NodeId) :
    List NodeId → Option GraphError
  | outer :: inner :: rest =>
      if (body bodies outer).contains inner then unnested? bodies node (inner :: rest)
      else some (.invalidBody inner (.overlap node outer))
  | _ => none

/-- An edge that carries a value into a body from outside it. -/
def captures (g : Graph) (loop : NodeId) (body : List NodeId) : List Link :=
  body.flatMap fun node =>
    ((g.predecessors node).filter fun c => c.node ≠ loop && !body.contains c.node).map fun c =>
      ⟨⟨c.node, c.label.sourcePort⟩, ⟨node, c.label.targetPort⟩⟩

end Nesting

/-- What is known of a loop before anything runs. -/
structure LoopPlan where
  /-- The nodes of an iteration in ascending order, those of nested bodies included. -/
  body : List NodeId
  /-- One for a loop at the top level. -/
  depth : Nat
  /-- The edges into the body from outside, those of the loop itself left out. -/
  captures : List Link
  hasResult : Bool
deriving DecidableEq

/-- The scope of each node and the plan of each loop. -/
structure Nesting where
  scopes : List (NodeId × ScopeId)
  loops : List (NodeId × LoopPlan)
deriving DecidableEq

namespace Nesting

def scope (n : Nesting) (id : NodeId) : ScopeId := (n.scopes.lookup id).getD none

/-- Plans one loop; its parent is planned before it. -/
def addLoop (g : Graph) (bodies : List (NodeId × List NodeId)) (n : Nesting) (loop : NodeId) :
    Except GraphError Nesting :=
  let depth := match n.scope loop with
    | none => 1
    | some parent => ((n.loops.lookup parent).map fun p => p.depth + 1).getD 1
  if maxDepth < depth then .error (.tooDeep loop depth)
  else
    let body := body bodies loop
    let plan : LoopPlan :=
      ⟨body, depth, captures g loop body, (g.inbound? loop PortName.result).isSome⟩
    .ok { n with loops := n.loops ++ [(loop, plan)] }

def ofGraph (g : Graph) : Except GraphError Nesting := do
  let loops := loopIds g
  let bodies := loops.map fun l => (l, bodyOf g l)
  match bodies.findSome? fun (l, b) => (bodyFault? g l b).map (GraphError.invalidBody l) with
  | some e => .error e
  | none =>
      match g.ids.findSome? fun id => unnested? bodies id (containing bodies id) with
      | some e => .error e
      | none =>
          let scopes := g.ids.map fun id => (id, (containing bodies id).getLast?)
          loops.foldlM (addLoop g bodies) ⟨scopes, []⟩

end Nesting

end PortGraph
