import PortGraph.Wire.Choice

/-!
Ports: the named, typed connection points of nodes. An output may feed an input when their types
are compatible; what happens to the value on the way is `Port.Conversion`.
-/

namespace PortGraph

abbrev NodeId := String

inductive PortType
  | string
  | number
  | boolean
  | object
  | array
  /-- Bytes, carried as base 64 text. -/
  | file
  | any
deriving DecidableEq, Repr

namespace PortType

def name : PortType → String
  | .string => "string"
  | .number => "number"
  | .boolean => "boolean"
  | .object => "object"
  | .array => "array"
  | .file => "file"
  | .any => "any"

def all : List PortType := [.string, .number, .boolean, .object, .array, .file, .any]

def ofName? (name : String) : Option PortType := all.find? fun t => t.name == name

/-- Whether an output of the first type may feed an input of the second. -/
def compatible (source target : PortType) : Bool :=
  if source = target ∨ source = .any ∨ target = .any then true
  else
    match source, target with
    | .file, _ | _, .file => false
    | .string, .number | .number, .string | .object, .string | .string, .object => true
    | _, .array => true
    | _, _ => false

def reader : Reader PortType := Reader.choice (all.map fun t => (t.name, t))

def toJson (t : PortType) : Json := .string t.name

end PortType

/-- A port of a node: the node says on which side it is. -/
structure Port where
  name : String
  type : PortType
deriving DecidableEq, Repr

namespace Port

def reader (label : String) : Reader Port :=
  Record.reader label (Port.mk <$> .field "name" Reader.text <*> .field "port_type" PortType.reader)

def toJson (p : Port) : Json :=
  .record [("name", .string p.name), ("port_type", p.type.toJson)]

end Port

/-- A port named together with its node. -/
structure PortRef where
  node : NodeId
  port : String
deriving DecidableEq, Repr

namespace PortRef

def text (r : PortRef) : String := s!"{r.node}:{r.port}"

def reader : Reader PortRef :=
  Record.reader "struct PortRef"
    (PortRef.mk <$> .field "node" Reader.text <*> .field "port" Reader.text)

def toJson (r : PortRef) : Json := .record [("node", .string r.node), ("port", .string r.port)]

end PortRef

end PortGraph
