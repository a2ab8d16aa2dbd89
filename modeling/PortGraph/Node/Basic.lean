import PortGraph.Node.Validity
import PortGraph.Port.Basic

/-!
Nodes: settings that satisfy their kind's rules, and the ports that follow from them. The stored
properties are kept, because an input that is not connected reads the property of its name.
-/

namespace PortGraph

namespace PortName

def condition : String := "condition"

def trueValue : String := "trueValue"

def falseValue : String := "falseValue"

/-- The elements that a loop goes through. -/
def collection : String := "collection"

def item : String := "item"

/-- The position of the element. -/
def index : String := "index"

/-- The input of a loop that its body feeds. -/
def result : String := "result"

/-- The output of a loop with one value for each iteration. -/
def results : String := "results"

/-- The input whose value is the output of an execution. -/
def data : String := "data"

end PortName

namespace NodeSettings

def ports (ps : List (String × PortType)) : List Port := ps.map fun p => ⟨p.1, p.2⟩

/-- The inputs of a merge are numbered from one. -/
def mergeInput (i : Nat) : String := s!"input{Text.Decimal.naturalText i}"

def inputs : NodeSettings → List Port
  | .text _ => ports [("prompt", .string)]
  | .image _ => ports [("image", .file)]
  | .speech _ => ports [("audio", .file)]
  | .translate _ | .sentiment _ => ports [("text", .string)]
  | .email _ => ports [("to", .string), ("subject", .string), ("body", .string)]
  | .chat _ => ports [("channel", .string), ("message", .string)]
  | .webhook _ => ports [("data", .object)]
  | .flow _ => ports [("trigger", .object)]
  | .condition _ =>
      ports [(PortName.condition, .boolean), (PortName.trueValue, .any),
        (PortName.falseValue, .any)]
  | .loop _ => ports [(PortName.collection, .array), (PortName.result, .any)]
  | .merge s => (List.range s.inputCount).map fun i => ⟨mergeInput (i + 1), .any⟩
  | .input _ => []
  | .output _ => ports [(PortName.data, .any)]
  | .transform _ => ports [("input", .any)]

def outputs : NodeSettings → List Port
  | .text _ | .speech _ => ports [("text", .string)]
  | .image _ => ports [("analysis", .object)]
  | .translate _ => ports [("translated", .string)]
  | .sentiment _ => ports [("sentiment", .object)]
  | .email _ => ports [("status", .boolean)]
  | .chat _ => ports [("messageId", .string)]
  | .webhook _ => ports [("response", .object)]
  | .flow _ => ports [("result", .object)]
  | .condition _ => ports [("result", .any)]
  | .loop _ =>
      ports [(PortName.item, .any), (PortName.index, .number), (PortName.results, .array)]
  | .merge _ => ports [("merged", .any)]
  | .input _ => ports [("value", .any)]
  | .output _ => []
  | .transform _ => ports [("output", .any)]

end NodeSettings

structure Node where
  id : NodeId
  settings : NodeSettings
  properties : Properties
  inputs : List Port
  outputs : List Port
deriving DecidableEq

namespace Node

def build (id : NodeId) (kind : NodeKind) (properties : Properties) :
    Except (List Complaint) Node :=
  (NodeSettings.parse kind properties).map fun s => ⟨id, s, properties, s.inputs, s.outputs⟩

def kind (n : Node) : NodeKind := n.settings.kind

def input? (n : Node) (name : String) : Option Port := n.inputs.find? fun p => p.name == name

def output? (n : Node) (name : String) : Option Port := n.outputs.find? fun p => p.name == name

def reader : Reader Node :=
  Record.reader "struct Node"
    (Node.mk <$> .field "id" Reader.text <*> .field "config" NodeSettings.wireReader
      <*> .field "properties" Reader.fields
      <*> .field "inputs" (Reader.list (Port.reader "struct InputPort"))
      <*> .field "outputs" (Reader.list (Port.reader "struct OutputPort")))

def toJson (n : Node) : Json :=
  .record [("id", .string n.id), ("config", n.settings.toJson),
    ("properties", .object n.properties), ("inputs", .array (n.inputs.map Port.toJson)),
    ("outputs", .array (n.outputs.map Port.toJson))]

end Node

end PortGraph
