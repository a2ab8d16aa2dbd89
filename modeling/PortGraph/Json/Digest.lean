import PortGraph.Bytes.Sha256
import PortGraph.Json.Written

/-!
Digests of values. The canonical text has no blanks and the fields of every object in ascending
order of their keys, whatever order they are held in; the digest is that of its bytes.
-/

namespace PortGraph.Json

def commaSeparated : List (List Char) → List Char
  | [] => []
  | [t] => t
  | t :: rest => t ++ ',' :: commaSeparated rest

mutual

def canonical : Json → List Char
  | .array items => '[' :: (commaSeparated (canonicalItems items) ++ [']'])
  | .object fields =>
      let texts := Table.ofEntries (canonicalFields fields)
      '{' :: (commaSeparated (texts.map fun e => quoted e.1 ++ ':' :: e.2) ++ ['}'])
  | v => write v

def canonicalItems : List Json → List (List Char)
  | [] => []
  | v :: rest => canonical v :: canonicalItems rest

def canonicalFields : List (String × Json) → List (String × List Char)
  | [] => []
  | (k, v) :: rest => (k, canonical v) :: canonicalFields rest

end

/-- Lower-case hexadecimal SHA-256 of the canonical text. -/
def digest (v : Json) : String := Sha256.hexDigest (String.ofList (canonical v))

end PortGraph.Json
