import PortGraph.Work.Input

/-!
Merging the inputs of a node in the order of their numbers. Inputs that are absent or null take no
part, and nothing merged is null.
-/

namespace PortGraph.Merge

/-- The inputs that take part, with their names. -/
def present (count : Nat) (inputs : PortValues) : List (String × Json) :=
  (List.range count).filterMap fun i =>
    let port := NodeSettings.mergeInput (i + 1)
    match inputs.value port with
    | .null => none
    | v => some (port, v)

/-- The elements of an array; any other value is the one element of a list. -/
def elements : Json → List Json
  | .array items => items
  | v => [v]

/-- All values as texts, or nothing if one is not a text. -/
def texts? (vs : List Json) : Option (List String) := vs.mapM Json.asText?

def concat (vs : List Json) : Json :=
  match texts? vs with
  | some ss => .string (String.join ss)
  | none => .array (vs.flatMap elements)

def fields (e : String × Json) : Except NodeError (Table Json) :=
  match e.2 with
  | .object fs => .ok fs
  | _ => .error (.invalidInput e.1 "overlay merges objects only")

/-- The fields of all objects together; of two fields with one key the later stays. -/
def overlay (vs : List (String × Json)) : Except NodeError Json :=
  (vs.mapM fields).map fun tables => .object (tables.foldl Table.overlay [])

/-- Row `r` of the answer holds element `r` of each column; the shortest column ends it. -/
def zip (vs : List Json) : Json :=
  let columns := vs.map elements
  let length := ((columns.map List.length).min?).getD 0
  .array ((List.range length).map fun r => .array (columns.filterMap fun column => column[r]?))

def merge (s : MergeSettings) (inputs : PortValues) : Except NodeError Json :=
  match present s.inputCount inputs with
  | [] => .ok .null
  | vs =>
      match s.strategy with
      | .concat => .ok (concat (vs.map (·.2)))
      | .overlay => overlay vs
      | .zip => .ok (zip (vs.map (·.2)))

end PortGraph.Merge
