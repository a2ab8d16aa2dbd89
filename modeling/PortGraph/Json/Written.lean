import PortGraph.Json.Basic

/-!
Values as text. `compact` has no blanks; `indented` puts each field and element on its own line.
Fields come in table order, so the compact text is canonical.
-/

namespace PortGraph.Json

def hexDigit (n : Nat) : Char := if n < 10 then Char.ofNat (48 + n) else Char.ofNat (87 + n)

/-- A quotation mark, a backslash and control characters are escaped, all else stands for itself. -/
def escaped (c : Char) : List Char :=
  if c = '"' then ['\\', '"']
  else if c = '\\' then ['\\', '\\']
  else if c = '\n' then ['\\', 'n']
  else if c = '\r' then ['\\', 'r']
  else if c = '\t' then ['\\', 't']
  else if c = '\x08' then ['\\', 'b']
  else if c = '\x0c' then ['\\', 'f']
  else if c.val.toNat < 0x20 then
    ['\\', 'u', '0', '0', hexDigit (c.val.toNat / 16), hexDigit (c.val.toNat % 16)]
  else [c]

def quoted (s : String) : List Char := '"' :: (s.toList.flatMap escaped ++ ['"'])

mutual

def write : Json → List Char
  | .null => ['n', 'u', 'l', 'l']
  | .bool true => ['t', 'r', 'u', 'e']
  | .bool false => ['f', 'a', 'l', 's', 'e']
  | .number n => n.toText
  | .string s => quoted s
  | .array items => '[' :: (writeItems items ++ [']'])
  | .object fields => '{' :: (writeFields fields ++ ['}'])

def writeItems : List Json → List Char
  | [] => []
  | [v] => write v
  | v :: rest => write v ++ ',' :: writeItems rest

def writeFields : List (String × Json) → List Char
  | [] => []
  | [(k, v)] => quoted k ++ ':' :: write v
  | (k, v) :: rest => quoted k ++ ':' :: (write v ++ ',' :: writeFields rest)

end

def compact (v : Json) : String := String.ofList (write v)

private def margin (depth : Nat) : List Char := '\n' :: List.replicate (2 * depth) ' '

mutual

def writeIndented (depth : Nat) : Json → List Char
  | .array (v :: rest) =>
      '[' :: (itemLines (depth + 1) (v :: rest) ++ margin depth ++ [']'])
  | .object (f :: rest) =>
      '{' :: (fieldLines (depth + 1) (f :: rest) ++ margin depth ++ ['}'])
  | v => write v

def itemLines (depth : Nat) : List Json → List Char
  | [] => []
  | [v] => margin depth ++ writeIndented depth v
  | v :: rest => margin depth ++ writeIndented depth v ++ ',' :: itemLines depth rest

def fieldLines (depth : Nat) : List (String × Json) → List Char
  | [] => []
  | [(k, v)] => margin depth ++ quoted k ++ ':' :: ' ' :: writeIndented depth v
  | (k, v) :: rest =>
      margin depth ++ quoted k ++
        ':' :: ' ' :: (writeIndented depth v ++ ',' :: fieldLines depth rest)

end

def indented (v : Json) : String := String.ofList (writeIndented 0 v)

end PortGraph.Json
