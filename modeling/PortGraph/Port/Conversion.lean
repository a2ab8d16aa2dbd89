import PortGraph.Json.Written
import PortGraph.Port.Basic

/-!
Values on their way into a port. A value of the port's own type passes, and so does null; a string
of digits becomes a number, a number its text, an object its text and back, and any one value a list
of it. Whatever else does not fit is an error, so nothing is lost silently.
-/

namespace PortGraph

/-- The type that a value has by itself; null has none. -/
def Json.portType? : Json → Option PortType
  | .null => none
  | .bool _ => some .boolean
  | .number _ => some .number
  | .string _ => some .string
  | .array _ => some .array
  | .object _ => some .object

namespace Conversion

/-- Why a value does not fit. -/
inductive Cause
  | notPayload
  | notDecimal (text : String)
  | notDocument (mismatch : Mismatch)
  | notObject (found : Option PortType)
  | noRule
  /-- A reason taken from a document. -/
  | stated (reason : String)
deriving DecidableEq, Repr

def Cause.reason : Cause → String
  | .notPayload => "expected base64 text or a file object"
  | .notDecimal s => s!"'{s}' is not a decimal number"
  | .notDocument m => m.message
  | .notObject t =>
      let name := (t.map PortType.name).getD "null"
      s!"decoded JSON is {name}, not an object"
  | .noRule => "no coercion registered"
  | .stated reason => reason

structure Error where
  source : PortType
  target : PortType
  cause : Cause
deriving DecidableEq, Repr

namespace Error

def reason (e : Error) : String := e.cause.reason

def message (e : Error) : String :=
  s!"cannot coerce {e.source.name} to {e.target.name}: {e.reason}"

def reader : Reader Error :=
  Record.reader "struct CoercionError"
    ((fun source target reason => ⟨source, target, .stated reason⟩) <$>
      .field "from" PortType.reader <*> .field "to" PortType.reader <*> .field "reason" Reader.text)

def toJson (e : Error) : Json :=
  .record [("from", e.source.toJson), ("to", e.target.toJson), ("reason", .string e.reason)]

end Error

/-- The number that a text spells, blanks around it aside: an integer if it is one. -/
def decimal? (s : String) : Option Number :=
  let cs := Text.trim s.toList
  match Text.Decimal.integer? cs with
  | some n => some (.integer n)
  | none => (Binary64.ofText? cs).map .double

/-- The value as the port takes it, and the types of the conversion if there was one. -/
def convert (v : Json) (target : PortType) :
    Except Error (Json × Option (PortType × PortType)) :=
  match v.portType? with
  | none => .ok (v, none)
  | some source =>
      if target = .any ∨ source = target then .ok (v, none)
      else
        let fail {α : Type} (cause : Cause) : Except Error α := .error ⟨source, target, cause⟩
        let became (w : Json) : Except Error (Json × Option (PortType × PortType)) :=
          .ok (w, some (source, target))
        match target, v with
        | .file, .string _ | .file, .object _ => .ok (v, none)
        | .file, _ => fail .notPayload
        | .number, .string s =>
            match decimal? s with
            | some n => became (.number n)
            | none => fail (.notDecimal s)
        | .string, .number n => became (.string (String.ofList n.toText))
        | .string, .object _ => became (.string v.compact)
        | .object, .string s =>
            match Json.parse s with
            | .ok (.object fields) => became (.object fields)
            | .ok w => fail (.notObject w.portType?)
            | .error m => fail (.notDocument m)
        | .array, _ => became (.array [v])
        | _, _ => fail .noRule

/-- Whether a value fits a port of a type as it stands. -/
def Conforms (v : Json) (t : PortType) : Prop :=
  match v.portType? with
  | none => True
  | some s => t = .any ∨ s = t ∨ (t = .file ∧ (s = .string ∨ s = .object))

end Conversion

/-- A conversion that was applied on the way into a port. -/
structure Converted where
  port : String
  source : PortType
  target : PortType
deriving DecidableEq, Repr

namespace Converted

def reader : Reader Converted :=
  Record.reader "struct AppliedCoercion"
    (Converted.mk <$> .field "port" Reader.text <*> .field "from" PortType.reader <*>
      .field "to" PortType.reader)

def toJson (c : Converted) : Json :=
  .record [("port", .string c.port), ("from", c.source.toJson), ("to", c.target.toJson)]

end Converted

end PortGraph
