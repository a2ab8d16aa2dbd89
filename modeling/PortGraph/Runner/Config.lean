import PortGraph.Execution.Options
import PortGraph.Json.Source
import PortGraph.Runner.Environment
import PortGraph.Runner.Toml.Document

/-!
The configuration of the runner: defaults, then a file, then the environment. The form of the file
goes by the ending of its name.
-/

namespace PortGraph.Runner

structure Config where
  engine : EngineSettings := {}
  /-- Whether records are printed over several lines. -/
  pretty : Bool := false
deriving DecidableEq

/-- A file as it was found: its name and its content. -/
structure File where
  name : String
  content : String
deriving DecidableEq

inductive Format
  | json
  | toml
deriving DecidableEq, Repr

namespace Format

def all : List Format := [.toml, .json]

def ending : Format → String
  | .json => "json"
  | .toml => "toml"

/-- The form of a file, by what follows the last point of its name. -/
def ofName? (name : String) : Option Format :=
  let base := (name.toList.reverse.takeWhile (· != '/'))
  match base.dropWhile (· != '.') with
  | '.' :: _ :: _ =>
      let ending := String.ofList (base.takeWhile (· != '.')).reverse
      all.find? fun f => f.ending == ending
  | _ => none

end Format

namespace Value

mutual

/-- Integers beyond a signed word count as real numbers. -/
def ofJson : Json → Value
  | .null => .nothing
  | .bool b => .bool b
  | .number (.integer n) =>
      if n < Nat.pow 2 63 then .integer n else .real (.finite (Number.integer n).toDouble)
  | .number (.double x) => .real (.finite x)
  | .string s => .text s
  | .array items => .list (ofItems items)
  | .object fields => .table (ofFields fields)

def ofItems : List Json → List Value
  | [] => []
  | v :: rest => ofJson v :: ofItems rest

def ofFields : List (String × Json) → List (String × Value)
  | [] => []
  | (k, v) :: rest => (k, ofJson v) :: ofFields rest

end

end Value

namespace File

/-- The content without a byte order mark. -/
def text (f : File) : String :=
  match f.content.toList with
  | '\ufeff' :: rest => String.ofList rest
  | _ => f.content

/-- The entries of a configuration file, if it is one. -/
def entries? (f : File) : Option (List (String × Value)) :=
  match Format.ofName? f.name with
  | none => none
  | some .toml => Toml.parse f.text
  | some .json =>
      match Json.parse f.text with
      | .ok (.object fields) => some (Value.ofFields fields)
      | _ => none

end File

namespace Config

/-- A setting that falls back when it is not there. -/
def setting {α : Type} (read : Value → Option α) (fallback : α) : Option Value → Option α
  | none => some fallback
  | some v => read v

def optionalCount? : Value → Option (Option Nat)
  | .nothing => some none
  | v => v.count?.map some

/-- Engine settings as a table, or as a list in the order of their declaration. -/
def engine? (v : Value) : Option EngineSettings := do
  let get (position : Nat) (name : String) : Option Value := match v with
    | .table es => Table.find? es name
    | .list items => items[position]?
    | _ => none
  match v with
  | .table _ | .list _ =>
      let base : EngineSettings := {}
      return {
        concurrency := ← setting Value.count? base.concurrency (get 0 "default_concurrency")
        deadlineMs := ← setting optionalCount? base.deadlineMs (get 1 "default_deadline_ms")
        verbose := ← setting Value.truth? base.verbose (get 2 "verbose") }
  | _ => none

def ofValue? (v : Value) : Option Config := do
  return {
    engine := ← setting engine? {} (v.entries.find? "engine")
    pretty := ← setting Value.truth? false (v.entries.find? "pretty") }

/-- Lays the environment over the file. -/
def load (file : Option File) (environment : List (String × String)) : Option Config := do
  let base ← match file with
    | none => some []
    | some f => f.entries?
  ofValue? ((Value.table []).collect base |>.collect (Environment.entries environment))

end Config

end PortGraph.Runner
