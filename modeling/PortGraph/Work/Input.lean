import PortGraph.Bytes.Base64
import PortGraph.Run.NodeRun

/-!
Reading a node's inputs as what its work needs: a text, an object, the bytes of a file, a truth
value. An absent input counts as null.
-/

namespace PortGraph.PortValues

/-- The value of an input; null when there is none. -/
def value (inputs : PortValues) (port : String) : Json := .ofOption (inputs.find? port)

def text (inputs : PortValues) (port : String) : Except NodeError String :=
  match inputs.value port with
  | .string s => .ok s
  | .null => .error (.invalidInput port "a value is required")
  | v => .error (.invalidInput port s!"expected a string, got {v.compact}")

/-- An object; an empty one when there is none. -/
def objectOrEmpty (inputs : PortValues) (port : String) : Except NodeError Json :=
  match inputs.value port with
  | .object fields => .ok (.object fields)
  | .null => .ok (.object [])
  | v => .error (.invalidInput port s!"expected an object, got {v.compact}")

/-- The text of a file: a text, or the `data` of an object. -/
def fileText (inputs : PortValues) (port : String) : Except NodeError String :=
  match inputs.value port with
  | .string s => .ok s
  | .object fields =>
      match (Table.find? fields "data").bind Json.asText? with
      | some s => .ok s
      | none => .error (.invalidInput port "file object has no 'data' field")
  | .null => .error (.invalidInput port "a file is required")
  | _ => .error (.invalidInput port "expected a file")

def file (inputs : PortValues) (port : String) : Except NodeError (List UInt8) := do
  let s ← inputs.fileText port
  (Base64.decode (String.ofList (Text.trim s.toList))).mapError fun e =>
    .invalidInput port s!"invalid base64: {e.message}"

/-- Whether a condition holds; null counts as no. -/
def truth (inputs : PortValues) (port : String) : Except NodeError Bool :=
  match inputs.value port with
  | .null => .ok false
  | .bool b => .ok b
  | v => .error (.invalidInput port s!"expected a boolean, got {v.compact}")

end PortGraph.PortValues
