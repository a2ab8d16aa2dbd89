import PortGraph.Json.Written
import PortGraph.Text.Parts
import PortGraph.Text.Quoted

/-!
Why a document does not fit what was asked for, as causes, and the wording of each.
-/

namespace PortGraph

/-- What stands where something else was expected. -/
inductive Found
  | null
  | bool (b : Bool)
  | integer (n : Int)
  | double (x : Binary64)
  | string (s : String)
  | sequence
  | map
deriving DecidableEq, Repr

def Found.describe : Found → String
  | .null => "null"
  | .bool true => "boolean `true`"
  | .bool false => "boolean `false`"
  | .integer n => s!"integer `{Text.Decimal.integerText n}`"
  | .double x => s!"floating point `{x.documentText}`"
  | .string s => s!"string {Text.quoted s}"
  | .sequence => "sequence"
  | .map => "map"

inductive Mismatch
  /-- The text is no document. -/
  | malformed
  | wrongType (found : Found) (expected : String)
  | wrongValue (found : Found) (expected : String)
  | wrongLength (length : Nat) (expected : String)
  | missingField (name : String)
  | duplicateField (name : String)
  | unknownChoice (name : String) (choices : List String)
  /-- The value has the right form, but its type refuses it. -/
  | refused (reason : String)
deriving DecidableEq, Repr

namespace Mismatch

private def marked (name : String) : String := s!"`{name}`"

/-- The choices named in a sentence. -/
def offer : List String → String
  | [] => "there are no variants"
  | [a] => s!"expected {marked a}"
  | [a, b] => s!"expected {marked a} or {marked b}"
  | choices => "expected one of " ++ Text.joined ", " (choices.map marked)

/-- A number of elements in words. -/
def elements (n : Nat) : String :=
  let noun := if n = 1 then "element" else "elements"
  s!"{Text.Decimal.naturalText n} {noun}"

def message : Mismatch → String
  | .malformed => "invalid JSON"
  | .wrongType found expected => s!"invalid type: {found.describe}, expected {expected}"
  | .wrongValue found expected => s!"invalid value: {found.describe}, expected {expected}"
  | .wrongLength length expected =>
      s!"invalid length {Text.Decimal.naturalText length}, expected {expected}"
  | .missingField name => s!"missing field {marked name}"
  | .duplicateField name => s!"duplicate field {marked name}"
  | .unknownChoice name choices => s!"unknown variant {marked name}, {offer choices}"
  | .refused reason => reason

end Mismatch

end PortGraph
