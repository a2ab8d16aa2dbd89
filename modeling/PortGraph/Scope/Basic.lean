import PortGraph.Plan.Basic
import PortGraph.Run.Outcome

/-!
Scopes: the runs of the nodes of the top level or of one iteration of a loop, and what is known in
between. Of each condition that has a value the scope keeps whether it holds; of each loop that has
not started, the values for its body.
-/

namespace PortGraph

structure Scope where
  owner : ScopeId
  runs : Table NodeRun
  /-- Values for the bodies of loops of this scope, in order of arrival. -/
  handed : Table (List (PortRef × Json))
  /-- The conditions that have a value. -/
  resolved : Table Bool
  /-- The nodes that may start, by rank and id. -/
  ready : List (Nat × NodeId)
  /-- The value that reached the result of the loop around the scope. -/
  result : Option Json
  fault : Option Fault
  /-- The runs that have ended, as they ended, in order. -/
  ended : List NodeRun
deriving DecidableEq

/-- What remains to be done in a scope after a change. -/
inductive Signal
  /-- Bring a value to an input. -/
  | route (target : PortRef) (value : Json)
  /-- Write a value into an input of a member. -/
  | write (node : NodeId) (port : String) (value : Json)
  /-- Read the value of a condition and settle its branches. -/
  | resolve (condition : NodeId)
  /-- Drop the value of a branch that is not taken. -/
  | forgo (condition : NodeId) (branch : Branch)
  /-- Put a node in the queue if nothing holds it back. -/
  | promote (node : NodeId)
  /-- Tell the consumers of a node that it will not deliver. -/
  | cascade (source origin : NodeId)
  | feederFailed (node : NodeId) (port : String) (origin : NodeId)
  | skip (node : NodeId) (reason : SkipReason)
  /-- Fail a node that never ran. -/
  | fail (node : NodeId) (error : NodeError)
  /-- Release nothing behind a condition that ended without a value. -/
  | settle (condition : NodeId)
deriving DecidableEq

namespace Scope

def new (owner : ScopeId) : Scope := ⟨owner, [], [], [], [], none, none, []⟩

def run? (s : Scope) (id : NodeId) : Option NodeRun := s.runs.find? id

def put (s : Scope) (r : NodeRun) : Scope := { s with runs := s.runs.insert r.node r }

/-- Puts a run that has just ended. -/
def putEnded (s : Scope) (r : NodeRun) : Scope := { s.put r with ended := s.ended ++ [r] }

def change (s : Scope) (id : NodeId) (f : NodeRun → NodeRun) : Scope :=
  { s with runs := s.runs.modify id f }

/-- The first fault stays. -/
def violate (s : Scope) (f : Fault) : Scope :=
  { s with fault := some (s.fault.getD f) }

/-- Order of the queue. -/
def before (a b : Nat × NodeId) : Bool := a.1 < b.1 || (a.1 == b.1 && decide (a.2 < b.2))

def enqueue (e : Nat × NodeId) : List (Nat × NodeId) → List (Nat × NodeId)
  | [] => [e]
  | x :: rest =>
      if before e x then e :: x :: rest
      else if e = x then x :: rest
      else x :: enqueue e rest

def dequeue (s : Scope) (id : NodeId) : Scope :=
  { s with ready := s.ready.filter fun e => !(e.2 == id) }

/-- The members that have not ended, in ascending order. -/
def unfinished (s : Scope) : List NodeId :=
  (s.runs.filter fun e => !e.2.state.isTerminal).map (·.1)

/-- The member that failed first. -/
def firstFailure? (s : Scope) : Option NodeRun := s.ended.find? fun r => r.state == .failed

end Scope

end PortGraph
