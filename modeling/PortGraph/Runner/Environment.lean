import PortGraph.Number.Literal
import PortGraph.Runner.Value

/-!
Settings from the environment: the variables whose names begin with `FLOWMILL__` in any case, with
two underscores between the levels of a place.
-/

namespace PortGraph.Runner.Environment

def start : List Char := "flowmill__".toList

/-- Points in place of pairs of underscores. -/
def dotted : List Char → List Char
  | '_' :: '_' :: rest => '.' :: dotted rest
  | c :: rest => c :: dotted rest
  | [] => []

/-- A real number, an infinity or no number, as a variable may spell it. -/
def real? (s : String) : Option Binary64.Result :=
  let (negative, body) := match s.toList with
    | '-' :: rest => (true, rest)
    | '+' :: rest => (false, rest)
    | cs => (false, cs)
  match String.ofList (body.map Char.toLower) with
  | "inf" | "infinity" => some (.infinite negative)
  | "nan" => some .undefined
  | _ =>
      (Binary64.Literal.ofText? s.toList).map fun l =>
        match l.value? with
        | some x => .finite x
        | none => .infinite l.negative

def value (s : String) : Value :=
  match Value.lowerCase s with
  | "true" => .bool true
  | "false" => .bool false
  | _ =>
      match Text.Decimal.integer? s.toList, real? s with
      | some n, _ => .integer n
      | none, some x => .real x
      | none, none => .text s

/-- The settings in an environment. -/
def entries (environment : List (String × String)) : List (String × Value) :=
  environment.filterMap fun v =>
    (Text.stripStart? start (v.1.toList.map Char.toLower)).map fun key =>
      (String.ofList (dotted key), value v.2)

end PortGraph.Runner.Environment
