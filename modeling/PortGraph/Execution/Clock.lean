import PortGraph.Execution.Basic
import PortGraph.Service.Response

/-!
Executions on a single thread with a clock of their own. Tasks take turns in the order in which they
were woken: the top level, each loop, and each node that a worker is busy with. The clock advances
only when no task can go on, to the next moment at which one can. Everything that happens to the
execution is an event of `Execution.perform`.
-/

namespace PortGraph.Clock

/-- What a worker waits for. -/
inductive Stage
  /-- An attempt is about to begin. -/
  | starting
  /-- A service replies at the given time. -/
  | asked (time : Nat) (result : Except NodeError PortValues)
  /-- The next attempt begins at the given time. -/
  | pausing (time : Nat)

/-- A worker busy with a node. -/
structure Job where
  site : Address
  node : NodeId
  startedAt : Nat
  attempts : List Attempt
  stage : Stage

/-- When the worker can go on, if it waits for a time. -/
def Job.wakesAt? (j : Job) : Option Nat :=
  match j.stage with
  | .starting => none
  | .asked t _ | .pausing t => some t

def Job.isDue (time : Nat) (j : Job) : Bool := j.wakesAt?.any (· ≤ time)

/-- What a worker does after an attempt. -/
inductive Progress
  | waits (j : Job)
  | stops (j : Job) (outcome : Outcome)

/-- What takes turns on the thread. -/
inductive Turn
  /-- Let the top level, or a loop of a scope, go on. -/
  | host (loop : Option (Address × NodeId))
  | visit (site : Address)
  | advance (site : Address) (loop : NodeId)
  | job (site : Address) (node : NodeId)
deriving DecidableEq

/-- What an execution runs with. -/
structure Setup where
  plan : Plan
  registry : Registry
  services : Services
  input : Json
  verbose : Bool
  start : Timestamp
  /-- Nanoseconds from the start. -/
  deadline : Option Nat

structure Simulation where
  execution : Execution
  /-- Nanoseconds since the start. -/
  time : Nat
  /-- Tasks that can go on, in order. -/
  queue : List Turn
  /-- Scopes that wait for a permit, in order. -/
  waiting : List Address
  /-- Scopes that hold a permit and have not used it yet. -/
  granted : List Address
  jobs : List Job
  /-- Requests so far, oldest first. -/
  requests : List Request
  /-- Whether the caller has called the execution off. -/
  cancelled : Bool
  /-- When the caller calls it off. -/
  cancelAt : Option Nat

namespace Simulation

variable (u : Setup)

def nanosPerMilli : Nat := RetryPolicy.nanosPerMilli

def now (m : Simulation) : Timestamp := u.start.addMillis (m.time / nanosPerMilli)

/-- The task that a scope belongs to. -/
def hostOf : Address → Turn
  | [] => .host none
  | (loop, _) :: outer => .host (some (outer, loop))

/-- A task woken more than once has one turn. -/
def wake (m : Simulation) (t : Turn) : Simulation :=
  if m.queue.contains t then m else { m with queue := m.queue ++ [t] }

/-- Wakes every scope that is not over and every worker. -/
def wakeAll (m : Simulation) : Simulation :=
  let open_ := m.execution.sites.filter fun x => x.2.phase != .ended
  let m := open_.foldl (fun m x => m.wake (hostOf x.1)) m
  m.jobs.foldl (fun m j => m.wake (.job j.site j.node)) m

/-- Lets an event happen. When it calls the execution off, everyone is woken. -/
def perform (m : Simulation) (event : Event) : Simulation :=
  let after := { m with execution := m.execution.perform u.plan u.verbose (m.now u) event }
  if after.execution.aborted && !m.execution.aborted then after.wakeAll else after

/-- The caller calls the execution off. -/
def cancel (m : Simulation) : Simulation := { m.perform u .abort with cancelled := true }

/-- Whether the deadline has come. -/
def isLate (m : Simulation) : Bool :=
  match u.deadline with
  | some d => decide (d ≤ m.time)
  | none => false

def next (m : Simulation) (ts : List Turn) : Simulation := { m with queue := ts ++ m.queue }

/-! ### Permits -/

def free (m : Simulation) : Nat :=
  m.execution.permits - (m.execution.busyCount + m.granted.length)

/-- Gives a permit that has become free to the first scope that waits. -/
def grant (m : Simulation) : Simulation :=
  match m.waiting with
  | [] => m
  | a :: rest => wake { m with waiting := rest, granted := m.granted ++ [a] } (hostOf a)

/-- Gives up the place among those that wait, and a permit not used. -/
def withdraw (m : Simulation) (a : Address) : Simulation :=
  if m.granted.contains a then grant { m with granted := m.granted.erase a }
  else { m with waiting := m.waiting.erase a }

/-! ### Scopes and loops -/

/-- Starts the first node of a scope's queue. -/
def dispatch (m : Simulation) (a : Address) (id : NodeId) : Simulation :=
  let m := m.perform u (.dispatch a)
  if u.plan.kind? id = some .loop then m.wake (.host (some (a, id)))
  else
    let job : Job := ⟨a, id, m.time, [], .starting⟩
    wake { m with jobs := m.jobs ++ [job] } (.job a id)

/-- Takes a running scope one step further. -/
def visitRunning (m : Simulation) (a : Address) (t : Site) : Simulation :=
  let m := if m.isLate u then m.perform u .abort else m
  if m.execution.aborted || (t.scope.ready.isEmpty && !t.inFlight) then
    ((m.withdraw a).perform u (.leave a)).next [.visit a]
  else
    let report := t.reports.head?
    match t.scope.ready, report with
    | (_, id) :: _, none =>
        if u.plan.kind? id = some .loop then (m.dispatch u a id).next [.visit a]
        else if m.granted.contains a then
          (dispatch u { m with granted := m.granted.erase a } a id).next [.visit a]
        else if m.waiting.contains a then m
        else if 0 < m.free then (m.dispatch u a id).next [.visit a]
        else { m with waiting := m.waiting ++ [a] }
    | (_, id) :: _, some r =>
        let starts := u.plan.kind? id = some .loop ∨ 0 < m.free
        if starts ∧ ¬ (m.granted.contains a ∨ m.waiting.contains a) then
          (m.dispatch u a id).next [.visit a]
        else ((m.withdraw a).perform u (.hear a r.node)).next [.visit a]
    | [], some r => (m.perform u (.hear a r.node)).next [.visit a]
    | [], none => m

def visit (m : Simulation) (a : Address) : Simulation :=
  match m.execution.site? a with
  | none => m
  | some t =>
      match t.phase, t.reports with
      | .running, _ => m.visitRunning u a t
      | .leaving _, r :: _ => (m.perform u (.hear a r.node)).next [.visit a]
      | .leaving _, [] => if t.inFlight then m else m.perform u (.close a)
      | .ended, _ => m

/-- Begins the next iteration of a loop, or ends it. -/
def advance (m : Simulation) (a : Address) (id : NodeId) : Simulation :=
  match (m.execution.site? a).bind fun t => t.loops.find? id with
  | none => m
  | some l =>
      if m.execution.mayConclude a l then (m.perform u (.conclude a id)).wake (hostOf a)
      else if m.execution.mayIterate a l then
        (m.perform u (.iterate a id)).next [.visit ((id, l.opened) :: a), .advance a id]
      else m

def host (m : Simulation) : Option (Address × NodeId) → Simulation
  | none => m.next [.visit []]
  | some (a, id) =>
      let open_ := (m.execution.iterations a id).filter fun x => x.2.phase != .ended
      m.next (open_.map (fun x => Turn.visit ((id, x.1) :: a)) ++ [.advance a id])

/-! ### Workers -/

def dropJob (m : Simulation) (j : Job) : Simulation :=
  { m with jobs := m.jobs.filter fun x => !(x.site == j.site && x.node == j.node) }

def putJob (m : Simulation) (j : Job) : Simulation :=
  { m with jobs := m.jobs.map fun x => if x.site == j.site && x.node == j.node then j else x }

/-- The worker is done: its permit goes on, and the scope hears of it. -/
def report (m : Simulation) (j : Job) (outcome : Outcome) : Simulation :=
  let c : Completion := ⟨j.node, j.attempts, outcome⟩
  (((m.dropJob j).perform u (.report j.site (.ended c))).grant).wake (hostOf j.site)

/-- Whether a delay still ends before the deadline. -/
def hasTime (m : Simulation) (delay : Nat) : Bool :=
  match u.deadline with
  | some d => m.time + delay < d
  | none => true

/-- The middle of the spread of a delay. -/
def middle : Nat := 500

/-- Where the worker stands when an attempt has its result. -/
def progress (m : Simulation) (w : Worker) (j : Job) (result : Except NodeError PortValues) :
    Progress :=
  let elapsed := (m.time - j.startedAt) / nanosPerMilli
  match w.after (m.hasTime u) j.attempts elapsed middle result with
  | (attempts, .over outcome) => .stops { j with attempts } outcome
  | (attempts, .again delay) =>
      if m.execution.aborted then .stops { j with attempts } .cancelled
      else .waits { j with attempts, stage := .pausing (m.time + delay) }

/-- Lets the worker wait, or be done. -/
def follow (m : Simulation) : Progress → Simulation
  | .waits j => m.putJob j
  | .stops j outcome => m.report u j outcome

/-- An attempt has its result. -/
def finish (m : Simulation) (w : Worker) (j : Job) (result : Except NodeError PortValues) :
    Simulation :=
  m.follow u (m.progress u w j result)

/-- Begins an attempt. -/
def attempt (m : Simulation) (w : Worker) (node : Node) (inputs : PortValues) (j : Job) :
    Simulation :=
  match w.begin node inputs u.input with
  | .error e => m.finish u w j (.error e)
  | .ok (.finish outputs) => m.finish u w j (.ok outputs)
  | .ok (.ask request outputs) =>
      let response := u.services m.requests request
      let m := { m with requests := m.requests ++ [request] }
      let m := if response.cancels then m.cancel u else m
      let result := Worker.settle outputs response.reply
      if response.delay = 0 then m.finish u w j result
      else m.putJob { j with stage := .asked (m.time + response.delay * nanosPerMilli) result }

def work (m : Simulation) (j : Job) : Simulation :=
  match u.plan.node? j.node with
  | none => m.report u j (.fatal (.unplanned j.node))
  | some node =>
      match u.registry node.kind with
      | none => m.report u j (.fatal (.noWorker node.kind j.node))
      | some w =>
          let inputs := (((m.execution.site? j.site).bind fun t => t.scope.run? j.node).map
            NodeRun.inputs).getD []
          if m.execution.aborted || m.isLate u then m.report u j .cancelled
          else
            match j.stage with
            | .starting => m.attempt u w node inputs j
            | .asked t result => if t ≤ m.time then m.finish u w j result else m
            | .pausing t => if t ≤ m.time then m.attempt u w node inputs j else m

/-! ### Time -/

def turn (m : Simulation) : Turn → Simulation
  | .host loop => m.host loop
  | .visit a => m.visit u a
  | .advance a id => m.advance u a id
  | .job a id =>
      match m.jobs.find? fun j => j.site == a && j.node == id with
      | some j => m.work u j
      | none => m

/-- The moments to come at which something can go on. -/
def moments (m : Simulation) : List Nat :=
  (m.jobs.filterMap Job.wakesAt?).filter (m.time < ·) ++
    (u.deadline.filter (m.time < ·)).toList ++ m.cancelAt.toList

/-- Moves the clock to the next such moment and wakes what waits for it. -/
def pass? (m : Simulation) : Option Simulation := do
  let time := max m.time (← (moments u m).min?)
  let due := m.jobs.filter (Job.isDue time)
  let m := due.foldl (fun m j => m.wake (.job j.site j.node)) { m with time }
  let m := if m.isLate u then m.wakeAll else m
  if m.cancelAt.any (· ≤ time) then return { m.cancel u with cancelAt := none } else return m

/-- One step: the next turn, or a move of the clock when nobody has a turn. -/
def step? (m : Simulation) : Option Simulation :=
  if m.execution.isOver then none
  else
    match m.queue with
    | t :: rest => some (turn u { m with queue := rest } t)
    | [] => m.pass? u

/-- Steps until the execution is over, or the fuel is used up. -/
def run (fuel : Nat) (m : Simulation) : Simulation :=
  match fuel with
  | 0 => m
  | fuel + 1 =>
      match m.step? u with
      | some m => run fuel m
      | none => m

/-- An execution about to begin. -/
def begin (permits : Nat) (cancelled : Bool) (cancelAt : Option Nat) : Simulation where
  execution := Execution.begin u.plan u.verbose u.start permits cancelled
  time := 0
  queue := [.host none]
  waiting := []
  granted := []
  jobs := []
  requests := []
  cancelled := cancelled
  cancelAt := cancelAt

/-- More steps than any execution takes in practice. -/
def plenty : Nat := Nat.pow 2 60

end Simulation

end PortGraph.Clock
