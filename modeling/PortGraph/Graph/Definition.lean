import PortGraph.Node.Basic

/-!
Graphs as they are stored: nodes with a type tag and properties, and links between their ports.
Nothing is checked beyond the form of the document. `toText` writes the members of each record in
declared order and properties in key order.
-/

namespace PortGraph

/-- A link from an output to an input. -/
structure Link where
  source : PortRef
  target : PortRef
deriving DecidableEq, Repr

namespace Link

def text (l : Link) : String := s!"{l.source.text} -> {l.target.text}"

def reader : Reader Link :=
  Record.reader "struct EdgeRef"
    (Link.mk <$> .field "from" PortRef.reader <*> .field "to" PortRef.reader)

def toJson (l : Link) : Json := .record [("from", l.source.toJson), ("to", l.target.toJson)]

end Link

structure NodeDefinition where
  id : NodeId
  tag : String
  properties : Properties
deriving DecidableEq

namespace NodeDefinition

def reader : Reader NodeDefinition :=
  Record.reader "struct NodeDefinition"
    (NodeDefinition.mk <$> .field "id" Reader.text <*> .field "type" Reader.text
      <*> .fieldOr "properties" Reader.fields [])

def toJson (d : NodeDefinition) : Json :=
  .record [("id", .string d.id), ("type", .string d.tag), ("properties", .object d.properties)]

/-- Sets one property. -/
def withProperty (d : NodeDefinition) (name : String) (value : Json) : NodeDefinition :=
  { d with properties := d.properties.insert name value }

end NodeDefinition

structure Definition where
  nodes : List NodeDefinition
  links : List Link
deriving DecidableEq

namespace Definition

def empty : Definition := ⟨[], []⟩

def withNode (d : Definition) (n : NodeDefinition) : Definition :=
  { d with nodes := d.nodes ++ [n] }

def withLink (d : Definition) (l : Link) : Definition := { d with links := d.links ++ [l] }

def reader : Reader Definition :=
  Record.reader "struct GraphDefinition"
    (Definition.mk <$> .field "nodes" (Reader.list NodeDefinition.reader)
      <*> .fieldOr "edges" (Reader.list Link.reader) [])

def ofText (text : String) : Except Mismatch Definition := Reader.readText reader text

def toJson (d : Definition) : Json :=
  .record [("nodes", .array (d.nodes.map NodeDefinition.toJson)),
    ("edges", .array (d.links.map Link.toJson))]

/-! ### The stored text -/

/-- A record whose members stand in the given order. -/
def writeMembers (members : List (String × List Char)) : List Char :=
  let parts := members.map fun m => Json.quoted m.1 ++ ':' :: m.2
  '{' :: (List.intercalate [','] parts ++ ['}'])

def writeList (items : List (List Char)) : List Char :=
  '[' :: (List.intercalate [','] items ++ [']'])

def writePort (r : PortRef) : List Char :=
  writeMembers [("node", Json.quoted r.node), ("port", Json.quoted r.port)]

def writeLink (l : Link) : List Char :=
  writeMembers [("from", writePort l.source), ("to", writePort l.target)]

def writeNode (n : NodeDefinition) : List Char :=
  writeMembers [("id", Json.quoted n.id), ("type", Json.quoted n.tag),
    ("properties", Json.write (.object n.properties))]

def write (d : Definition) : List Char :=
  writeMembers [("nodes", writeList (d.nodes.map writeNode)),
    ("edges", writeList (d.links.map writeLink))]

def toText (d : Definition) : String := String.ofList (write d)

end Definition

end PortGraph
