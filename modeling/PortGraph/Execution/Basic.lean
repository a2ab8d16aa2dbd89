import PortGraph.Execution.Loop
import PortGraph.Run.Log

/-!
Executions: all scopes of one run of a plan, and the events that may happen in it. `perform?` says
what an event does, or that it cannot happen now. It fixes no order: whatever a clock, a queue or a
set of threads does with an execution is a sequence of events.
-/

namespace PortGraph

/-- A scope by the loops around it and their iterations, the innermost first. -/
abbrev Address := List (NodeId × Nat)

namespace Address

def owner : Address → ScopeId
  | [] => none
  | (loop, _) :: _ => some loop

/-- The iterations, the outermost first. -/
def iteration (a : Address) : List Nat := (a.map (·.2)).reverse

end Address

/-- How far a scope has come. -/
inductive Phase
  /-- Starts nodes and hears how they end. -/
  | running
  /-- Starts nothing any more; after an abort it still hears of what is in flight. -/
  | leaving (aborted : Bool)
  | ended
deriving DecidableEq, Repr

/-- A scope in an execution, with the nodes that it has started. -/
structure Site where
  scope : Scope
  phase : Phase
  /-- Nodes that a worker is busy with; each holds a permit. -/
  busy : List NodeId
  /-- Nodes that have ended but were not heard yet, oldest first. -/
  reports : List Report
  /-- Loops under way; they hold no permit. -/
  loops : Table Looping

namespace Site

def inFlight (t : Site) : Bool := !(t.busy.isEmpty && t.reports.isEmpty && t.loops.isEmpty)

end Site

structure Execution where
  /-- How many workers may be busy at once. -/
  permits : Nat
  sites : List (Address × Site)
  aborted : Bool
  /-- One entry for each run that has ended, in order. -/
  log : List LogEntry

inductive Event
  /-- A scope starts the first node of its queue. -/
  | dispatch (site : Address)
  /-- A worker ends its node, well or not. -/
  | report (site : Address) (r : Report)
  /-- A scope hears of a node that has ended. -/
  | hear (site : Address) (node : NodeId)
  /-- A loop begins its next iteration. -/
  | iterate (site : Address) (loop : NodeId)
  /-- A loop has its outcome. -/
  | conclude (site : Address) (loop : NodeId)
  /-- A scope stops starting nodes. -/
  | leave (site : Address)
  /-- A scope closes. -/
  | close (site : Address)
  /-- The execution is called off. -/
  | abort

namespace Execution

variable (p : Plan) (verbose : Bool) (now : Timestamp)

def site? (e : Execution) (a : Address) : Option Site := e.sites.lookup a

/-- Puts a scope; the runs that ended in it since are logged, and a fault calls all off. -/
def putSite (e : Execution) (a : Address) (t : Site) : Execution :=
  let known := ((e.site? a).map fun t => t.scope.ended.length).getD 0
  let entries := (t.scope.ended.drop known).filterMap fun r =>
    (p.node? r.node).map fun node => LogEntry.ofRun node r a.iteration verbose
  let sites :=
    if (e.site? a).isSome then e.sites.map fun x => if x.1 = a then (a, t) else x
    else e.sites ++ [(a, t)]
  { e with sites, log := e.log ++ entries, aborted := e.aborted || t.scope.fault.isSome }

/-- Opens the scope of an address. -/
def openSite (e : Execution) (a : Address) (deliveries : List (PortRef × Json)) : Execution :=
  e.putSite p verbose a ⟨Scope.seed p now a.owner deliveries, .running, [], [], []⟩

/-- The top level, just begun. -/
def begin (permits : Nat) (aborted : Bool) : Execution :=
  openSite p verbose now ⟨max 1 permits, [], aborted, []⟩ [] []

/-- How many workers are busy. -/
def busyCount (e : Execution) : Nat := (e.sites.flatMap fun x => x.2.busy).length

/-- The iterations that a loop has begun, in order. -/
def iterations (e : Execution) (a : Address) (loop : NodeId) : List (Nat × Site) :=
  e.sites.filterMap fun
    | ((l, i) :: outer, t) => if l = loop ∧ outer = a then some (i, t) else none
    | ([], _) => none

/-- Whether a loop has begun no iteration that still goes on. -/
def isIdle (e : Execution) (a : Address) (loop : NodeId) : Bool :=
  (e.iterations a loop).all fun x => x.2.phase == .ended

/-- The latest iteration of a loop. -/
def latest? (e : Execution) (a : Address) (l : Looping) : Option Site :=
  if l.opened = 0 then none else e.site? ((l.node, l.opened - 1) :: a)

/-- Whether the next iteration of a loop may begin: in a parallel loop at any time, in a sequential
one when the iteration before it has ended well. -/
def mayIterate (e : Execution) (a : Address) (l : Looping) : Bool :=
  l.opened < l.count &&
    (l.settings.parallel ||
      match e.latest? a l with
      | none => true
      | some t => t.phase == .ended && Looping.goesOn t.scope false)

/-- Whether a sequential loop stops before its end. -/
def stopsEarly (e : Execution) (a : Address) (l : Looping) : Bool :=
  match e.latest? a l with
  | none => false
  | some t => !l.settings.parallel && t.phase == .ended && !Looping.goesOn t.scope e.aborted

/-- Whether a loop has its outcome: the iterations begun have ended, and no other one will begin. -/
def mayConclude (e : Execution) (a : Address) (l : Looping) : Bool :=
  (l.opened == l.count || e.stopsEarly a l) && e.isIdle a l.node

def dispatch? (e : Execution) (a : Address) : Option Execution := do
  let t ← e.site? a
  if t.phase ≠ .running ∨ t.scope.fault.isSome then none
  else
    let (s, r) ← t.scope.startNext? now
    match (p.node? r.node).map Node.settings with
    | some (.loop settings) =>
        let l := Looping.start p settings t.scope r
        return e.putSite p verbose a { t with scope := s, loops := t.loops.insert r.node l }
    | _ =>
        if e.busyCount < e.permits then
          return e.putSite p verbose a { t with scope := s, busy := t.busy ++ [r.node] }
        else none

def report? (e : Execution) (a : Address) (r : Report) : Option Execution := do
  let t ← e.site? a
  if t.busy.contains r.node then
    return e.putSite p verbose a
      { t with busy := t.busy.erase r.node, reports := t.reports ++ [r] }
  else none

def hear? (e : Execution) (a : Address) (id : NodeId) : Option Execution := do
  let t ← e.site? a
  let r ← t.reports.find? fun r => r.node == id
  let heard : Site :=
    { t with
      scope := t.scope.hear p now r
      reports := t.reports.filter fun r => !(r.node == id) }
  match t.phase with
  | .running => if t.scope.fault.isSome then none else return e.putSite p verbose a heard
  | .leaving _ => return e.putSite p verbose a heard
  | .ended => none

def iterate? (e : Execution) (a : Address) (loop : NodeId) : Option Execution := do
  let t ← e.site? a
  let l ← t.loops.find? loop
  if e.mayIterate a l then
    let begun := { l with opened := l.opened + 1 }
    let e := e.putSite p verbose a { t with loops := t.loops.insert loop begun }
    return e.openSite p verbose now ((loop, l.opened) :: a) (l.deliveries p l.opened)
  else none

def conclude? (e : Execution) (a : Address) (loop : NodeId) : Option Execution := do
  let t ← e.site? a
  let l ← t.loops.find? loop
  if e.mayConclude a l then
    let scopes := (e.iterations a loop).map fun x => (x.1, x.2.scope)
    let report := Report.ended ⟨loop, [], l.outcome scopes e.aborted⟩
    return e.putSite p verbose a
      { t with loops := t.loops.erase loop, reports := t.reports ++ [report] }
  else none

def leave? (e : Execution) (a : Address) : Option Execution := do
  let t ← e.site? a
  let quiet := t.scope.ready.isEmpty && !t.inFlight
  let aborted := e.aborted || t.scope.fault.isSome
  if t.phase = .running ∧ (aborted ∨ quiet) then
    return e.putSite p verbose a { t with phase := .leaving aborted }
  else none

def close? (e : Execution) (a : Address) : Option Execution := do
  let t ← e.site? a
  match t.phase with
  | .leaving aborted =>
      if t.inFlight then none
      else
        return e.putSite p verbose a { t with scope := t.scope.close now aborted, phase := .ended }
  | _ => none

/-- What an event does; `none` if it cannot happen now. -/
def perform? (e : Execution) : Event → Option Execution
  | .dispatch a => e.dispatch? p verbose now a
  | .report a r => e.report? p verbose a r
  | .hear a id => e.hear? p verbose now a id
  | .iterate a loop => e.iterate? p verbose now a loop
  | .conclude a loop => e.conclude? p verbose a loop
  | .leave a => e.leave? p verbose a
  | .close a => e.close? p verbose now a
  | .abort => some { e with aborted := true }

/-- The execution after an event; one that cannot happen changes nothing. -/
def perform (e : Execution) (event : Event) : Execution :=
  (e.perform? p verbose now event).getD e

/-- Whether the top level has closed. -/
def isOver (e : Execution) : Bool :=
  match e.site? [] with
  | some t => t.phase == .ended
  | none => true

end Execution

end PortGraph
