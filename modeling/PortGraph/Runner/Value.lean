import PortGraph.Number.Arithmetic
import PortGraph.Table
import PortGraph.Text.Decimal
import PortGraph.Text.Parts

/-!
Values of a configuration, from whatever source. Each source is laid over the ones before it, table
by table; a value is read leniently as what its setting needs.
-/

namespace PortGraph.Runner

inductive Value
  | nothing
  | bool (b : Bool)
  | integer (n : Int)
  | real (x : Binary64.Result)
  | text (s : String)
  | list (items : List Value)
  | table (entries : List (String × Value))

namespace Value

def entries : Value → Table Value
  | .table es => es
  | _ => []

/-! ### Places -/

inductive Step
  | key (name : String)
  /-- A position; a negative one counts from the end. -/
  | index (i : Int)

def isKeyChar (c : Char) : Bool := c.isAlphanum || c == '_' || c == '-'

/-- The steps after the first key of a place. -/
def stepsFrom (fuel : Nat) (cs : List Char) : Option (List Step) :=
  match fuel, cs with
  | _, [] => some []
  | 0, _ => none
  | fuel + 1, '.' :: rest =>
      match rest.takeWhile isKeyChar with
      | [] => none
      | name =>
          (stepsFrom fuel (rest.dropWhile isKeyChar)).map (.key (String.ofList name) :: ·)
  | fuel + 1, '[' :: rest =>
      let (negative, rest) := match rest with
        | '-' :: rest => (true, rest)
        | rest => (false, rest)
      match Text.Decimal.span rest with
      | ([], _) => none
      | (ds, ']' :: rest) =>
          let n : Int := Text.Decimal.value ds
          (stepsFrom fuel rest).map (.index (if negative then -n else n) :: ·)
      | _ => none
  | _, _ => none

/-- A place such as `engine.verbose`. A name that is no place is a key by itself. -/
def place (name : String) : List Step :=
  match name.toList.takeWhile isKeyChar with
  | [] => [.key name]
  | first =>
      match stepsFrom name.length (name.toList.dropWhile isKeyChar) with
      | some steps => .key (String.ofList first) :: steps
      | none => [.key name]

/-- Changes the value at a place; what is on the way becomes a table or a list. -/
def change (f : Value → Value) : List Step → Value → Value
  | [], v => f v
  | .key name :: rest, v =>
      let old := (v.entries.find? name).getD .nothing
      .table (v.entries.insert name (change f rest old))
  | .index i :: rest, v =>
      let items := match v with
        | .list items => items
        | _ => []
      let front := (-(i + items.length)).toNat
      let items := if i < 0 then List.replicate front .nothing ++ items else items
      let at_ := if i < 0 then (i + items.length).toNat else i.toNat
      let items := items ++ List.replicate (at_ + 1 - items.length) .nothing
      .list (items.take at_ ++ (items.drop at_).head?.toList.map (change f rest) ++
        items.drop (at_ + 1))

mutual

/-- Lays a value over another: tables are merged, all else gives way. -/
def lay : Value → Value → Value
  | .table es, .nothing => layEntries es (.table [])
  | .table es, v => layEntries es v
  | v, _ => v

def layEntries : List (String × Value) → Value → Value
  | [], v => v
  | (k, new) :: rest, v =>
      let old := (v.entries.find? k).getD .nothing
      layEntries rest (.table (v.entries.insert k (lay new old)))

end

/-- Lays the entries of a source over the values so far. -/
def collect (v : Value) (source : List (String × Value)) : Value :=
  source.foldl (fun v e => change (lay e.2) (place e.1) v) v

/-! ### Reading -/

def lowerCase (s : String) : String := String.ofList (s.toList.map Char.toLower)

def maxCount : Nat := Nat.pow 2 64 - 1

/-- The nearest count, a half away from zero; counts end at `maxCount` and begin at zero. -/
def roundedCount : Binary64.Result → Nat
  | .finite x =>
      let (n, d) := x.ratio
      if x.negative then 0 else min maxCount ((2 * n + d) / (2 * d))
  | .infinite negative => if negative then 0 else maxCount
  | .undefined => 0

def count? : Value → Option Nat
  | .integer n => if 0 ≤ n then some n.toNat else none
  | .bool b => some (if b then 1 else 0)
  | .real x => some (roundedCount x)
  | .text s =>
      if ["true", "on", "yes"].contains (lowerCase s) then some 1
      else if ["false", "off", "no"].contains (lowerCase s) then some 0
      else Text.Decimal.natural? (maxCount + 1) s.toList
  | .nothing | .list _ | .table _ => none

def truth? : Value → Option Bool
  | .bool b => some b
  | .integer n => some (n != 0)
  | .real (.finite x) => some (!x.isZero)
  | .real _ => some true
  | .text s =>
      if ["1", "true", "on", "yes"].contains (lowerCase s) then some true
      else if ["0", "false", "off", "no"].contains (lowerCase s) then some false
      else none
  | .nothing | .list _ | .table _ => none

end Value

end PortGraph.Runner
