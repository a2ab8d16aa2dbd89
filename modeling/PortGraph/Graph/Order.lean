import PortGraph.Port.Basic

/-!
Orders of the nodes of a directed graph. `finishing` is a depth-first search with an explicit stack;
read backwards it is a topological order if there is one. `components` groups the nodes that lead to
each other, and `onCycle` names those of the groups that hold a cycle.
-/

namespace PortGraph.Order

/-- The targets of a node's edges, as far as an order minds them. -/
abbrev Successors := NodeId → List NodeId

structure Search where
  stack : List NodeId
  discovered : List NodeId
  /-- Nodes in the order in which they were finished, the last first. -/
  finished : List NodeId

/-- One step: a node seen for the first time stays and its undiscovered successors go on top of it,
the first of them lowest; a node seen again leaves, and is finished if it was not. -/
def Search.step (next : Successors) (s : Search) : Search :=
  match s.stack with
  | [] => s
  | n :: rest =>
      if s.discovered.contains n then
        ⟨rest, s.discovered, if s.finished.contains n then s.finished else n :: s.finished⟩
      else
        let discovered := n :: s.discovered
        let fresh := (next n).filter fun m => !discovered.contains m
        ⟨fresh.reverse ++ s.stack, discovered, s.finished⟩

/-- Steps until the stack is empty. -/
def Search.run (next : Successors) (fuel : Nat) (s : Search) : Search :=
  match fuel with
  | 0 => s
  | fuel + 1 => if s.stack.isEmpty then s else Search.run next fuel (s.step next)

/-- Starts from each node not yet discovered, in the given order; the first of the answer was
finished last. -/
def reverseFinishing (next : Successors) (nodes : List NodeId) : List NodeId :=
  let fuel := 2 * nodes.length + (nodes.flatMap next).length + 1
  let visit (s : Search) (n : NodeId) : Search :=
    if s.discovered.contains n then s else Search.run next fuel { s with stack := [n] }
  (nodes.foldl visit ⟨[], [], []⟩).finished

/-- Whether every edge between the listed nodes points to a later place. -/
def respects (next : Successors) : List NodeId → Bool
  | [] => true
  | n :: rest => (next n).all rest.contains && respects next rest

/-- The nodes that edges lead to from the queue, over any number of steps within the fuel. -/
def reach (next : Successors) (fuel : Nat) (seen queue : List NodeId) : List NodeId :=
  match fuel, queue with
  | 0, _ | _, [] => seen
  | fuel + 1, n :: rest =>
      if seen.contains n then reach next fuel seen rest
      else reach next fuel (seen ++ [n]) (rest ++ next n)

/-- The nodes that some path of at least one edge leads to from a node. -/
def reachFrom (next : Successors) (nodes : List NodeId) (n : NodeId) : List NodeId :=
  let edges := (nodes.flatMap next).length
  reach next (edges + (next n).length + 1) [] (next n)

/-- Puts each node together with those that it leads to and that lead back to it. -/
def groups (leads : NodeId → NodeId → Bool) (nodes : List NodeId) : List (List NodeId) :=
  (nodes.map fun n => nodes.filter fun m => m == n || (leads n m && leads m n)).eraseDups

/-- The strongly connected components. -/
def components (next : Successors) (nodes : List NodeId) : List (List NodeId) :=
  let reached := nodes.map fun n => (n, reachFrom next nodes n)
  groups (fun a b => (reached.lookup a).any fun ms => ms.contains b) nodes

/-- Whether a component holds a cycle: it has several nodes, or the one it has leads to itself. -/
def cyclic (next : Successors) (component : List NodeId) : Bool :=
  decide (1 < component.length) || component.head?.any fun n => (next n).contains n

/-- The nodes of the components that hold a cycle, in ascending order. -/
def onCycle (next : Successors) (components : List (List NodeId)) : List NodeId :=
  ascending (components.filter (cyclic next)).flatten

end PortGraph.Order
