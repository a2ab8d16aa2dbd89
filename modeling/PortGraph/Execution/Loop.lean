import PortGraph.Scope.Life

/-!
Loops under way. A loop goes through a collection, one scope for each item up to the limit; the
verdict on its iterations is the outcome of the loop.
-/

namespace PortGraph

/-- A loop that has started. -/
structure Looping where
  node : NodeId
  settings : LoopSettings
  /-- Whether the body feeds the result of the loop. -/
  hasResult : Bool
  /-- What the loop goes through, or why it cannot. -/
  items : Except NodeError (List Json)
  /-- The values for its body from outside. -/
  handed : List (PortRef × Json)
  /-- How many iterations have begun. -/
  opened : Nat

namespace Looping

def itemsOf (inputs : PortValues) : Except NodeError (List Json) :=
  match inputs.value PortName.collection with
  | .array items => .ok items
  | .null => .error (.invalidInput PortName.collection "there is no collection to iterate")
  | v => .error (.invalidInput PortName.collection s!"expected an array, got {v.compact}")

/-- A loop as it starts in a scope, from the run that has its inputs. -/
def start (p : Plan) (settings : LoopSettings) (s : Scope) (r : NodeRun) : Looping where
  node := r.node
  settings := settings
  hasResult := ((p.loop? r.node).map LoopPlan.hasResult).getD false
  items := itemsOf r.inputs
  handed := (s.handed.find? r.node).getD []
  opened := 0

def itemList (l : Looping) : List Json :=
  match l.items with
  | .ok items => items
  | .error _ => []

/-- How many items the loop goes through. -/
def count (l : Looping) : Nat := min l.itemList.length l.settings.maxIterations

/-- The values that begin an iteration. -/
def deliveries (p : Plan) (l : Looping) (index : Nat) : List (PortRef × Json) :=
  p.iterationValues l.node ((l.itemList[index]?).getD .null) index ++ l.handed

/-- The first iteration with a failed member, and that member. -/
def firstFailure? : List (Nat × Scope) → Option (Nat × NodeRun)
  | [] => none
  | (i, s) :: rest =>
      match s.firstFailure? with
      | some r => some (i, r)
      | none => firstFailure? rest

/-- What an iteration contributes: its result, or the item if the body feeds no result. -/
def contribution (l : Looping) (e : Nat × Scope) : Json :=
  if l.hasResult then .ofOption e.2.result else (l.itemList[e.1]?).getD .null

/-- The outcome of the loop, given the scopes of its iterations in order. -/
def outcome (l : Looping) (iterations : List (Nat × Scope)) (aborted : Bool) : Outcome :=
  match l.items with
  | .error e => .failed e
  | .ok items =>
      match iterations.findSome? fun e => e.2.fault with
      | some fault => .fatal fault
      | none =>
          if aborted then .cancelled
          else
            match firstFailure? iterations with
            | some (i, r) =>
                let reason := (r.error.map NodeError.message).getD "failed"
                .failed (.iterationFailed i r.node reason)
            | none =>
                if l.settings.maxIterations < items.length then
                  .failed (.tooManyItems l.settings.maxIterations items.length)
                else
                  .succeeded [(PortName.results, .array (iterations.map l.contribution))]

/-- Whether a sequential loop goes on after an iteration. -/
def goesOn (s : Scope) (aborted : Bool) : Bool :=
  s.fault.isNone && s.firstFailure?.isNone && !aborted

end Looping

end PortGraph
