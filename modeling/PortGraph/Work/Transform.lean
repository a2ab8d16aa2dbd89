import PortGraph.Number.Arithmetic
import PortGraph.Work.Input
import PortGraph.Work.Template

/-!
Transformations of one value: a path into it, a template filled from it, or arithmetic on it.
-/

namespace PortGraph.Transform

def operation : Operator → Binary64 → Binary64 → Binary64.Result
  | .add => Binary64.add
  | .subtract => Binary64.sub
  | .multiply => Binary64.mul
  | .divide => Binary64.div

/-- From here on a double no longer tells neighbouring integers apart. -/
def exactLimit : Nat := Nat.pow 2 53

/-- The number that arithmetic works on; a text is read as a double. -/
def operand : Json → Except NodeError Number
  | .number n => .ok n
  | .string s =>
      match Binary64.ofText? (Text.trim s.toList) with
      | some x => .ok (.double x)
      | none => .error (.invalidInput "input" s!"'{s}' is not a number")
  | v => .error (.invalidInput "input" s!"arithmetic needs a number, got {v.compact}")

/-- Computes in doubles. A whole result below the limit is an integer if the input was one. -/
def arithmetic (op : Operator) (x : Binary64) (v : Json) : Except NodeError Json := do
  let n ← operand v
  match operation op n.toDouble x with
  | .finite r =>
      match n, r.toInt? with
      | .integer _, some whole =>
          if whole.natAbs < exactLimit then return .number (.integer whole)
          else return .number (.double r)
      | _, _ => return .number (.double r)
  | .infinite negative =>
      .error (.failed (if negative then "arithmetic produced -inf" else "arithmetic produced inf"))
  | .undefined => .error (.failed "arithmetic produced NaN")

def apply (s : TransformSettings) (v : Json) : Except NodeError Json :=
  match s.transformation with
  | .identity => .ok v
  | .jsonPath =>
      match Path.parse s.jsonPath with
      | .ok path => .ok (.ofOption (path.select? v))
      | .error e => .error (.failed e.message)
  | .template =>
      match Template.render (s.template.getD "") v with
      | .ok text => .ok (.string text)
      | .error e => .error (.failed s!"template token: {e.message}")
  | .arithmetic =>
      match s.operator, s.operand with
      | some op, some x => arithmetic op x v
      | _, _ => .error (.failed "arithmetic needs an operator and an operand")

end PortGraph.Transform
