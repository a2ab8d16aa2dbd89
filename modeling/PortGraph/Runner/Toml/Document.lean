import PortGraph.Runner.Toml.Scalar

/-!
TOML documents: keys, arrays, inline tables, and the table headers that say where the lines below
them belong. A table or key may be defined only once.
-/

namespace PortGraph.Runner.Toml

/-- How a table came about, which decides who may add to it. -/
inductive Origin
  /-- As a part of a longer header. -/
  | passed
  /-- By a header of its own. -/
  | header
  /-- As a part of a dotted key. -/
  | dotted
deriving DecidableEq

inductive Item
  | value (v : Value)
  | table (origin : Origin) (entries : List (String × Item))
  /-- An array of tables, the last first. -/
  | tables (rest : List (List (String × Item))) (last : List (String × Item))

abbrev Entries := List (String × Item)

mutual

def Item.toValue : Item → Value
  | .value v => v
  | .table _ es => .table (entryValues es)
  | .tables rest last => .list ((listValues rest).reverse ++ [.table (entryValues last)])

def entryValues : List (String × Item) → Table Value
  | [] => []
  | (k, i) :: rest => Table.insert (entryValues rest) k i.toValue

def listValues : List (List (String × Item)) → List Value
  | [] => []
  | es :: rest => .table (entryValues es) :: listValues rest

end

def replace (es : Entries) (key : String) (i : Item) : Entries :=
  (key, i) :: es.filter fun e => !(e.1 == key)

/-- Defines a key, below tables that its dots make. A table that headers passed through, and the
last of an array of tables, lead on to such tables but take no key of their own this way. -/
def define (v : Item) : List String → Entries → Option Entries
  | [], _ => none
  | [k], es => if (es.lookup k).isSome then none else some ((k, v) :: es)
  | k :: rest, es =>
      let leadsOn := 1 < rest.length
      match es.lookup k with
      | none => (define v rest []).map fun below => (k, .table .dotted below) :: es
      | some (.table .dotted below) =>
          (define v rest below).map fun below => replace es k (.table .dotted below)
      | some (.table .passed below) =>
          if leadsOn then (define v rest below).map fun below => replace es k (.table .passed below)
          else none
      | some (.tables others last) =>
          if leadsOn then (define v rest last).map fun last => replace es k (.tables others last)
          else none
      | some (.table .header _) | some (.value _) => none

/-- Changes the table that a header names. Tables on the way are made, or the last of an array of
tables is taken. -/
def within (f : Entries → Option Entries) : List String → Entries → Option Entries
  | [], es => f es
  | k :: rest, es =>
      match es.lookup k with
      | none => (within f rest []).map fun below => (k, .table .passed below) :: es
      | some (.table origin below) =>
          (within f rest below).map fun below => replace es k (.table origin below)
      | some (.tables others last) =>
          (within f rest last).map fun last => replace es k (.tables others last)
      | some (.value _) => none

/-- Opens the table that a header names. -/
def openTable (es : Entries) (path : List String) : Option Entries :=
  match path.getLast? with
  | none => none
  | some k =>
      within (fun es =>
        match es.lookup k with
        | none => some ((k, .table .header []) :: es)
        | some (.table .passed below) => some (replace es k (.table .header below))
        | some _ => none) path.dropLast es

/-- Adds a table to the array of tables that a header names. -/
def addTable (es : Entries) (path : List String) : Option Entries :=
  match path.getLast? with
  | none => none
  | some k =>
      within (fun es =>
        match es.lookup k with
        | none => some ((k, .tables [] []) :: es)
        | some (.tables others last) => some (replace es k (.tables (last :: others) []))
        | some _ => none) path.dropLast es

/-! ### Keys and values -/

def skipSpace (cs : List Char) : List Char := cs.dropWhile isSpace

def simpleKey : Scan String := fun cs =>
  match cs with
  | '"' :: _ | '\'' :: _ => lineString cs
  | _ =>
      match cs.takeWhile Value.isKeyChar with
      | [] => none
      | name => some (String.ofList name, cs.dropWhile Value.isKeyChar)

/-- Keys with points between them. -/
def key (fuel : Nat) : Scan (List String) := fun cs => do
  match fuel with
  | 0 => none
  | fuel + 1 =>
      let (k, rest) ← simpleKey cs
      match skipSpace rest with
      | '.' :: rest =>
          let (ks, rest) ← key fuel (skipSpace rest)
          return (k :: ks, rest)
      | rest => return ([k], rest)

/-- A comment up to the end of its line; none if it holds control characters. -/
def comment (cs : List Char) : Option (List Char) :=
  match cs with
  | '#' :: rest =>
      let body := rest.takeWhile (· != '\n')
      let body := if body.getLast? = some '\r' then body.dropLast else body
      if body.any isControl then none else some (rest.dropWhile (· != '\n'))
  | cs => some cs

/-- The end of a line, or of the text. -/
def lineEnd : Scan Unit
  | [] => some ((), [])
  | '\n' :: rest | '\r' :: '\n' :: rest => some ((), rest)
  | _ => none

/-- Spaces, line ends and comments. -/
def skipLines (fuel : Nat) (cs : List Char) : Option (List Char) :=
  match fuel, skipSpace cs with
  | 0, _ => none
  | fuel + 1, '#' :: rest => (comment ('#' :: rest)).bind (skipLines fuel)
  | fuel + 1, '\n' :: rest | fuel + 1, '\r' :: '\n' :: rest => skipLines fuel rest
  | _, rest => some rest

/-- How many arrays and inline tables may be open at once. -/
def depthLimit : Nat := 80

mutual

/-- A value inside as many more arrays and inline tables as `depth` says. -/
def value (fuel depth : Nat) : Scan Value := fun cs =>
  match fuel with
  | 0 => none
  | fuel + 1 =>
      match cs, depth with
      | '[' :: rest, depth + 1 =>
          (elements fuel depth rest).map fun (vs, rest) => (.list vs, rest)
      | '{' :: rest, depth + 1 =>
          (members fuel depth [] rest).map fun (es, rest) => (.table (entryValues es), rest)
      | cs, _ => scalar cs

/-- The elements of an array after its bracket; a comma may follow the last. -/
def elements (fuel depth : Nat) : Scan (List Value) := fun cs =>
  match fuel with
  | 0 => none
  | fuel + 1 =>
      match skipLines (cs.length + 1) cs with
      | none => none
      | some (']' :: rest) => some ([], rest)
      | some cs =>
          match value fuel depth cs with
          | none => none
          | some (v, rest) =>
              match skipLines (rest.length + 1) rest with
              | some (']' :: rest) => some ([v], rest)
              | some (',' :: rest) =>
                  (elements fuel depth rest).map fun (vs, rest) => (v :: vs, rest)
              | _ => none

/-- The members of an inline table after its brace; a comma may follow the last. -/
def members (fuel depth : Nat) (es : Entries) : Scan Entries := fun cs =>
  match fuel with
  | 0 => none
  | fuel + 1 =>
      match skipLines (cs.length + 1) cs with
      | none => none
      | some ('}' :: rest) => some (es, rest)
      | some cs =>
          match member fuel depth cs with
          | none => none
          | some ((ks, v), rest) =>
              match define (.value v) ks es, skipLines (rest.length + 1) rest with
              | some es, some ('}' :: rest) => some (es, rest)
              | some es, some (',' :: rest) => members fuel depth es rest
              | _, _ => none

/-- A key and its value. Lines may end around the equals sign too. -/
def member (fuel depth : Nat) : Scan (List String × Value) := fun cs =>
  match fuel with
  | 0 => none
  | fuel + 1 =>
      match key cs.length cs with
      | none => none
      | some (ks, rest) =>
          match skipLines (rest.length + 1) rest with
          | some ('=' :: rest) =>
              match skipLines (rest.length + 1) rest with
              | none => none
              | some rest => (value fuel depth rest).map fun (v, rest) => ((ks, v), rest)
          | _ => none

end

/-! ### Lines -/

/-- A document as far as it is read: the entries, and the table that lines belong to. -/
structure Progress where
  root : Entries
  path : List String

/-- A header, from after its first bracket. -/
def headerLine (d : Progress) : Scan Progress
  | '[' :: rest => do
      let (ks, rest) ← key rest.length (skipSpace rest)
      let (_, rest) ← mark ']' rest
      let (_, rest) ← mark ']' rest
      return (⟨← addTable d.root ks, ks⟩, rest)
  | cs => do
      let (ks, rest) ← key cs.length (skipSpace cs)
      let (_, rest) ← mark ']' rest
      return (⟨← openTable d.root ks, ks⟩, rest)

def keyLine (d : Progress) : Scan Progress := fun cs => do
  let (ks, rest) ← key cs.length cs
  let (_, rest) ← mark '=' rest
  let (v, rest) ← value (rest.length + 1) depthLimit (skipSpace rest)
  return ({ d with root := ← within (define (.value v) ks) d.path d.root }, rest)

def line (d : Progress) (cs : List Char) : Option (Progress × List Char) := do
  let (d, rest) ← match skipSpace cs with
    | '[' :: rest => headerLine d rest
    | [] => some (d, [])
    | '#' :: rest => some (d, '#' :: rest)
    | '\n' :: rest => some (d, '\n' :: rest)
    | '\r' :: rest => some (d, '\r' :: rest)
    | cs => keyLine d cs
  let (_, rest) ← lineEnd (← comment (skipSpace rest))
  return (d, rest)

def lines (fuel : Nat) (d : Progress) (cs : List Char) : Option Progress :=
  match fuel, cs with
  | _, [] => some d
  | 0, _ => none
  | fuel + 1, cs => do
      let (d, rest) ← line d cs
      lines fuel d rest

/-- The entries of a document. -/
def parse (text : String) : Option (Table Value) :=
  let cs := text.toList
  (lines (cs.length + 1) ⟨[], []⟩ cs).map fun d => entryValues d.root

end PortGraph.Runner.Toml
