import PortGraph.Graph.Error
import PortGraph.Graph.Order

/-!
Graphs that may be planned: distinct nodes with valid settings, edges between existing ports of
compatible types, at most one edge into an input, and no cycle once the edges that return a loop's
result are set aside. `ofDefinition` reports the first thing that is wrong.
-/

namespace PortGraph

/-- What an edge carries besides its ends. -/
structure EdgeLabel where
  sourcePort : String
  targetPort : String
  /-- Whether the edge returns the value of a loop body to its loop. -/
  loopBack : Bool
deriving DecidableEq, Repr

namespace EdgeLabel

def reader : Reader EdgeLabel :=
  Record.reader "struct Edge"
    (EdgeLabel.mk <$> .field "source_port" Reader.text <*> .field "target_port" Reader.text
      <*> .fieldOr "loop_back" Reader.bool false)

def toJson (e : EdgeLabel) : Json :=
  .record [("source_port", .string e.sourcePort), ("target_port", .string e.targetPort),
    ("loop_back", .bool e.loopBack)]

def asLoopBack (e : EdgeLabel) : EdgeLabel := { e with loopBack := true }

end EdgeLabel

structure Edge where
  source : NodeId
  target : NodeId
  label : EdgeLabel
deriving DecidableEq, Repr

/-- An edge as seen from one of its ends. -/
structure Connection where
  /-- The node at the other end. -/
  node : NodeId
  label : EdgeLabel
deriving DecidableEq, Repr

namespace Edge

def sourceRef (e : Edge) : PortRef := ⟨e.source, e.label.sourcePort⟩

def targetRef (e : Edge) : PortRef := ⟨e.target, e.label.targetPort⟩

def link (e : Edge) : Link := ⟨e.sourceRef, e.targetRef⟩

end Edge

structure Graph where
  nodes : List Node
  /-- The edges in the order in which they were added. -/
  edges : List Edge
  /-- The node ids in topological order of the edges that are not loop-back. -/
  order : List NodeId
deriving DecidableEq

namespace Graph

def node? (g : Graph) (id : NodeId) : Option Node := g.nodes.find? fun n => n.id == id

def kind? (g : Graph) (id : NodeId) : Option NodeKind := (g.node? id).map Node.kind

/-- The connections out of a node, oldest first. -/
def successors (g : Graph) (id : NodeId) : List Connection :=
  (g.edges.filter fun e => e.source == id).map fun e => ⟨e.target, e.label⟩

/-- The connections into a node, oldest first. -/
def predecessors (g : Graph) (id : NodeId) : List Connection :=
  (g.edges.filter fun e => e.target == id).map fun e => ⟨e.source, e.label⟩

/-- The output that feeds an input. -/
def inbound? (g : Graph) (id : NodeId) (port : String) : Option PortRef :=
  ((g.predecessors id).find? fun c => c.label.targetPort == port).map fun c =>
    ⟨c.node, c.label.sourcePort⟩

/-- The nodes without edges into them. -/
def entries (g : Graph) : List Node := g.nodes.filter fun n => (g.predecessors n.id).isEmpty

/-- The nodes without edges out of them. -/
def terminals (g : Graph) : List Node := g.nodes.filter fun n => (g.successors n.id).isEmpty

/-- The targets along edges that are not loop-back, newest edge first. -/
def forward (g : Graph) (id : NodeId) : List NodeId :=
  (((g.successors id).filter fun c => !c.label.loopBack).map fun c => c.node).reverse

/-! ### Building -/

def addNode (g : Graph) (d : NodeDefinition) : Except GraphError Graph :=
  match NodeKind.ofTag? d.tag with
  | none => .error (.unknownType d.id d.tag)
  | some kind =>
      match Node.build d.id kind d.properties with
      | .error complaints => .error (.invalidProperties d.id complaints)
      | .ok node =>
          if (g.node? d.id).isSome then .error (.duplicateNode d.id)
          else .ok { g with nodes := g.nodes ++ [node] }

/-- Whether an edge into this input returns the value of a loop body. -/
def returnsToLoop (target : Node) (port : String) : Bool :=
  target.kind == .loop && port == PortName.result

def addLink (g : Graph) (l : Link) : Except GraphError Graph :=
  match g.node? l.source.node, g.node? l.target.node with
  | none, _ => .error (.nodeNotFound l.source.node)
  | some _, none => .error (.nodeNotFound l.target.node)
  | some source, some target =>
      match source.output? l.source.port, target.input? l.target.port with
      | none, _ => .error (.sourcePortNotFound l.source)
      | some _, none => .error (.targetPortNotFound l.target)
      | some output, some input =>
          if (g.inbound? l.target.node l.target.port).isSome then
            .error (.alreadyConnected l.target)
          else if output.type.compatible input.type = false then
            .error (.incompatible l output.type input.type)
          else
            let label := ⟨l.source.port, l.target.port, returnsToLoop target l.target.port⟩
            .ok { g with edges := g.edges ++ [⟨l.source.node, l.target.node, label⟩] }

/-- A property that stands in for an input that is not connected must fit the port. -/
def checkDefault (g : Graph) (n : Node) (p : Port) : Except GraphError Unit :=
  match n.properties.find? p.name with
  | none => .ok ()
  | some v =>
      if (g.inbound? n.id p.name).isSome then .ok ()
      else
        match Conversion.convert v p.type with
        | .ok _ => .ok ()
        | .error e => .error (.invalidDefault ⟨n.id, p.name⟩ e)

def checkDefaults (g : Graph) : Except GraphError Unit :=
  g.nodes.forM fun n => n.inputs.forM fun p => g.checkDefault n p

def ids (g : Graph) : List NodeId := g.nodes.map Node.id

/-- Puts the nodes in order, or names those on a cycle. -/
def arrange (g : Graph) : Except GraphError Graph :=
  let order := Order.reverseFinishing g.forward g.ids
  if Order.respects g.forward order then .ok { g with order }
  else .error (.cycle (Order.onCycle g.forward (Order.components g.forward g.ids)))

def ofDefinition (d : Definition) : Except GraphError Graph := do
  let g ← d.nodes.foldlM addNode ⟨[], [], []⟩
  let g ← d.links.foldlM addLink g
  g.checkDefaults
  g.arrange

end Graph

end PortGraph
