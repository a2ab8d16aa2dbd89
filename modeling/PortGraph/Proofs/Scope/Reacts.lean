import PortGraph.Proofs.Tables
import PortGraph.Scope.Life

/-!
What one signal can do to a scope, case by case, and runs through a list of signals. Everything
that is kept while a scope works off its signals is proved from these cases.
-/

namespace PortGraph

namespace NodeRun

def openGate (r : NodeRun) : NodeRun := { r with pendingGates := r.pendingGates - 1 }

def takeCapture (r : NodeRun) : NodeRun := { r with pendingCaptures := r.pendingCaptures - 1 }

/-- A value port loses its value because its feeder failed. -/
def losePort (r : NodeRun) (port : String) (origin : NodeId) : NodeRun :=
  { r.dropInput port with failedPorts := (r.dropInput port).failedPorts.insert port origin }

end NodeRun

namespace Scope

/-- Hands a value to a loop for its body. -/
def hand (s : Scope) (loop : NodeId) (target : PortRef) (value : Json) : Scope :=
  { s.change loop NodeRun.takeCapture with
    handed := (s.change loop NodeRun.takeCapture).handed.insert loop
      (((s.change loop NodeRun.takeCapture).handed.find? loop).getD [] ++ [(target, value)]) }

/-- Opens one gate of each of the nodes. -/
def unlock (s : Scope) (ids : List NodeId) : Scope :=
  ids.foldl (fun s n => s.change n NodeRun.openGate) s

/-- A condition has its value, and the nodes behind the branch taken are released. -/
def decide (p : Plan) (s : Scope) (id : NodeId) (holds : Bool) : Scope :=
  { s.unlock (p.exclusive ⟨id, Branch.taken holds⟩) with
    resolved := (s.unlock (p.exclusive ⟨id, Branch.taken holds⟩)).resolved.insert id holds }

/-- What follows when a condition has its value. -/
def decided (p : Plan) (id : NodeId) (holds : Bool) : List Signal :=
  (p.exclusive ⟨id, Branch.taken holds⟩).map .promote ++
    (p.exclusive ⟨id, (Branch.taken holds).other⟩).map (fun n => .skip n (.branchNotTaken id)) ++
      [.forgo id (Branch.taken holds).other]

theorem mem_decided {p : Plan} {id : NodeId} {holds : Bool} {next : Signal} :
    next ∈ decided p id holds ↔
      (∃ n ∈ p.exclusive ⟨id, Branch.taken holds⟩, next = .promote n) ∨
        (∃ n ∈ p.exclusive ⟨id, (Branch.taken holds).other⟩, next = .skip n (.branchNotTaken id)) ∨
          next = .forgo id (Branch.taken holds).other := by
  simp [decided, eq_comm]

/-- Whom a node tells that it has ended without a value: the members and the loops that it feeds. -/
theorem mem_reactCascade {p : Plan} {s : Scope} {source origin : NodeId} {next : Signal} :
    next ∈ (s.reactCascade p source origin).2 ↔ ∃ c ∈ p.forwardOut source,
      (∃ id, p.route s.owner ⟨c.node, c.label.targetPort⟩ = some (.member id) ∧
        next = .feederFailed id c.label.targetPort origin) ∨
      ∃ l, p.route s.owner ⟨c.node, c.label.targetPort⟩ = some (.nested l) ∧
        next = .skip l (.feederFailed origin) := by
  unfold reactCascade
  simp only [List.mem_filterMap]
  refine exists_congr fun c => and_congr_right fun _ => ?_
  split <;> rename_i hroute <;> simp [hroute, eq_comm]

/-- What follows when a node is skipped. -/
theorem mem_skipped {id : NodeId} {reason : SkipReason} {next : Signal} :
    next ∈ (reason.failedOrigin?.map fun origin => Signal.cascade id origin).toList ++
        [.settle id] ↔
      (∃ origin, reason = .feederFailed origin ∧ next = .cascade id origin) ∨
        next = .settle id := by
  cases reason <;> simp [SkipReason.failedOrigin?]

def queue (p : Plan) (s : Scope) (r : NodeRun) (id : NodeId) : Scope :=
  { s.put r.markReady with ready := enqueue (p.rank id, id) s.ready }

/-- A node behind the branch feeds its value. -/
def FedBehind (p : Plan) (id : NodeId) (branch : Branch) : Prop :=
  ∃ feeder, p.graph.inbound? id branch.port = some feeder ∧
    feeder.node ∈ p.exclusive ⟨id, branch⟩

/-- A condition that fails with any of its feeders. -/
def Strict (p : Plan) (id : NodeId) : Prop :=
  ∃ node settings, p.node? id = some node ∧ node.settings = .condition settings ∧
    settings.errorAsFalse = false

/-- A condition for which an error counts as false. -/
def Tolerant (p : Plan) (id : NodeId) : Prop :=
  ∃ node settings, p.node? id = some node ∧ node.settings = .condition settings ∧
    settings.errorAsFalse = true

theorem kind_of_condition {p : Plan} {id : NodeId} {node : Node} {settings : ConditionSettings}
    (hnode : p.node? id = some node) (hsettings : node.settings = .condition settings) :
    p.kind? id = some .condition := by
  refine Option.map_eq_some_iff.mpr ⟨node, hnode, ?_⟩
  unfold Node.kind
  rw [hsettings]
  rfl

theorem condition_of_kind {p : Plan} {id : NodeId} (h : p.kind? id = some .condition) :
    ∃ node settings, p.node? id = some node ∧ node.settings = .condition settings := by
  obtain ⟨node, hnode, hkind⟩ := Option.map_eq_some_iff.mp h
  cases hsettings : node.settings with
  | condition settings => exact ⟨node, settings, hnode, hsettings⟩
  | _ =>
    unfold Node.kind at hkind
    rw [hsettings] at hkind
    simp [NodeSettings.kind] at hkind

theorem Strict.kind {p : Plan} {id : NodeId} (h : Strict p id) : p.kind? id = some .condition := by
  obtain ⟨node, settings, hnode, hsettings, -⟩ := h
  exact kind_of_condition hnode hsettings

theorem Tolerant.kind {p : Plan} {id : NodeId} (h : Tolerant p id) :
    p.kind? id = some .condition := by
  obtain ⟨node, settings, hnode, hsettings, -⟩ := h
  exact kind_of_condition hnode hsettings

theorem Strict.not_tolerant {p : Plan} {id : NodeId} (h : Strict p id) : ¬ Tolerant p id := by
  obtain ⟨node, settings, hnode, hsettings, hstrict⟩ := h
  rintro ⟨node', settings', hnode', hsettings', htolerant⟩
  obtain rfl := Option.some.inj (hnode.symm.trans hnode')
  obtain rfl := NodeSettings.condition.inj (hsettings.symm.trans hsettings')
  rw [hstrict] at htolerant
  simp at htolerant

section Cases

variable (p : Plan) (now : Timestamp) (s : Scope)

/-- The cases of `react`. -/
inductive Reacts : Signal → Scope → List Signal → Prop
  | routeMember {t : PortRef} {v : Json} {id : NodeId} :
      p.route s.owner t = some (.member id) → Reacts (.route t v) s [.write id t.port v]
  | routeNested {t : PortRef} {v : Json} {l : NodeId} :
      p.route s.owner t = some (.nested l) → Reacts (.route t v) (s.hand l t v) [.promote l]
  | routeResult {t : PortRef} {v : Json} :
      p.route s.owner t = some .resultSlot → Reacts (.route t v) { s with result := some v } []
  | routeNowhere {t : PortRef} {v : Json} :
      p.route s.owner t = none → Reacts (.route t v) (s.violate (.unroutable t)) []
  | writeIdle {id : NodeId} {port : String} {v : Json} :
      (∀ node r, p.node? id = some node → s.run? id = some r → r.state ≠ .pending) →
      Reacts (.write id port v) s []
  | writeTaken {id : NodeId} {port : String} {v : Json} {node : Node} {r r' : NodeRun} :
      p.node? id = some node → s.run? id = some r → r.state = .pending →
      NodeRun.deliver node r port v = (r', .ok ()) →
      Reacts (.write id port v) (s.put r')
        (if node.kind == .condition && port == PortName.condition then [.resolve id, .promote id]
          else [.promote id])
  | writeRejected {id : NodeId} {port : String} {v : Json} {node : Node} {r r' : NodeRun}
      {e : NodeError} :
      p.node? id = some node → s.run? id = some r → r.state = .pending →
      NodeRun.deliver node r port v = (r', .error e) →
      Reacts (.write id port v) (s.put r') [.fail id e]
  | resolveIdle {id : NodeId} :
      (∀ r, s.resolved.find? id = none → s.run? id = some r → r.state.isTerminal = true) →
      Reacts (.resolve id) s []
  | resolveFails {id : NodeId} {r : NodeRun} {e : NodeError} :
      s.resolved.find? id = none → s.run? id = some r → r.state.isTerminal = false →
      r.inputs.truth PortName.condition = .error e → Reacts (.resolve id) s [.fail id e]
  | resolveDecides {id : NodeId} {r : NodeRun} {holds : Bool} :
      s.resolved.find? id = none → s.run? id = some r → r.state.isTerminal = false →
      r.inputs.truth PortName.condition = .ok holds →
      Reacts (.resolve id) (s.decide p id holds) (decided p id holds)
  | forgoDrops {id : NodeId} {branch : Branch} :
      FedBehind p id branch →
      Reacts (.forgo id branch) (s.change id fun r => r.dropInput branch.port) [.promote id]
  | forgoKeeps {id : NodeId} {branch : Branch} :
      ¬ FedBehind p id branch → Reacts (.forgo id branch) s [.promote id]
  | promoteIdle {id : NodeId} :
      (∀ r, s.run? id = some r → r.isSatisfied = false) → Reacts (.promote id) s []
  | promoteSkips {id origin : NodeId} {r : NodeRun} :
      s.run? id = some r → r.isSatisfied = true → s.failedChoice? r = some origin →
      Reacts (.promote id) s [.skip id (.feederFailed origin)]
  | promoteAgain {id : NodeId} {r : NodeRun} :
      s.run? id = some r → r.isSatisfied = true → 0 < r.promotions →
      Reacts (.promote id)
        ((s.put r.markReady).violate (.promotedAgain id (r.promotions + 1))) []
  | promoteQueues {id : NodeId} {r : NodeRun} :
      s.run? id = some r → r.isSatisfied = true → s.failedChoice? r = none → r.promotions = 0 →
      Reacts (.promote id) (s.queue p r id) []
  | cascade {source origin : NodeId} :
      Reacts (.cascade source origin) s (s.reactCascade p source origin).2
  | feederSkips {id origin : NodeId} {port : String} :
      (∀ node settings, p.node? id = some node → node.settings ≠ .condition settings) →
      Reacts (.feederFailed id port origin) s [.skip id (.feederFailed origin)]
  | feederFails {id origin : NodeId} {port : String} {e : NodeError} :
      Strict p id → Reacts (.feederFailed id port origin) s [.fail id e]
  | feederCounts {id origin : NodeId} :
      Tolerant p id →
      Reacts (.feederFailed id PortName.condition origin) s
        [.write id PortName.condition (.bool false)]
  | feederDrops {id origin : NodeId} {port : String} {r : NodeRun} :
      Tolerant p id → port ≠ PortName.condition → s.run? id = some r → r.state = .pending →
      Reacts (.feederFailed id port origin) (s.put (r.losePort port origin)) [.promote id]
  | feederIdle {id origin : NodeId} {port : String} :
      Tolerant p id → port ≠ PortName.condition →
      (∀ r, s.run? id = some r → r.state ≠ .pending) →
      Reacts (.feederFailed id port origin) s []
  | skipIdle {id : NodeId} {reason : SkipReason} :
      (∀ r, s.run? id = some r → isUnstarted r = false) → Reacts (.skip id reason) s []
  | skips {id : NodeId} {reason : SkipReason} {r : NodeRun} :
      s.run? id = some r → isUnstarted r = true →
      Reacts (.skip id reason) ((s.dequeue id).putEnded (r.skip now reason))
        ((reason.failedOrigin?.map fun origin => Signal.cascade id origin).toList ++ [.settle id])
  | failIdle {id : NodeId} {e : NodeError} :
      (∀ r, s.run? id = some r → isUnstarted r = false) → Reacts (.fail id e) s []
  | fails {id : NodeId} {e : NodeError} {r : NodeRun} :
      s.run? id = some r → isUnstarted r = true →
      Reacts (.fail id e) ((s.dequeue id).putEnded (r.fail now e)) [.cascade id id, .settle id]
  | settleIdle {id : NodeId} :
      (s.resolved.contains id = true ∨ p.kind? id ≠ some .condition) → Reacts (.settle id) s []
  | settles {id : NodeId} :
      s.resolved.find? id = none → p.kind? id = some .condition →
      Reacts (.settle id) s
        ((p.exclusive ⟨id, .whenTrue⟩ ++ p.exclusive ⟨id, .whenFalse⟩).map fun n =>
          .skip n (.conditionUnresolved id))

theorem reacts_route (t : PortRef) (v : Json) :
    Reacts p now s (.route t v) (s.reactRoute p t v).1 (s.reactRoute p t v).2 := by
  unfold reactRoute
  cases h : p.route s.owner t with
  | none => exact .routeNowhere h
  | some r =>
    cases r with
    | member id => exact .routeMember h
    | nested l => exact .routeNested h
    | resultSlot => exact .routeResult h

theorem reacts_write (id : NodeId) (port : String) (v : Json) :
    Reacts p now s (.write id port v) (s.reactWrite p id port v).1 (s.reactWrite p id port v).2 := by
  unfold reactWrite
  cases hn : p.node? id with
  | none => exact .writeIdle (by simp [hn])
  | some node =>
    cases hr : s.run? id with
    | none => exact .writeIdle (by simp [hr])
    | some r =>
      by_cases hpending : r.state = .pending
      · simp only [hpending, if_true]
        cases hd : NodeRun.deliver node r port v with
        | mk r' result =>
          cases result with
          | error e => exact .writeRejected hn hr hpending hd
          | ok u => exact .writeTaken hn hr hpending hd
      · simp only [hpending, if_false]
        refine .writeIdle ?_
        intro node' r' _ hr'
        obtain rfl : r = r' := Option.some.inj (hr.symm.trans hr')
        exact hpending

theorem reacts_resolve (id : NodeId) :
    Reacts p now s (.resolve id) (s.reactResolve p id).1 (s.reactResolve p id).2 := by
  unfold reactResolve
  cases hres : s.resolved.find? id with
  | some b => exact .resolveIdle (by simp [hres])
  | none =>
    cases hr : s.run? id with
    | none => exact .resolveIdle (by simp [hr])
    | some r =>
      by_cases hterm : r.state.isTerminal = true
      · simp only [hterm, if_true]
        refine .resolveIdle ?_
        intro r' _ hr'
        obtain rfl : r = r' := Option.some.inj (hr.symm.trans hr')
        exact hterm
      · have hfalse : r.state.isTerminal = false := by simpa using hterm
        simp only [hfalse, Bool.false_eq_true, if_false]
        cases htruth : r.inputs.truth PortName.condition with
        | error e => exact .resolveFails hres hr hfalse htruth
        | ok holds => exact .resolveDecides hres hr hfalse htruth

theorem reacts_forgo (id : NodeId) (branch : Branch) :
    Reacts p now s (.forgo id branch) (s.reactForgo p id branch).1 (s.reactForgo p id branch).2 := by
  unfold reactForgo
  cases h : p.graph.inbound? id branch.port with
  | none => exact .forgoKeeps (by simp [FedBehind, h])
  | some feeder =>
    by_cases hmem : feeder.node ∈ p.exclusive ⟨id, branch⟩
    · simp only [List.contains_iff_mem.mpr hmem, if_true]
      exact .forgoDrops ⟨feeder, h, hmem⟩
    · simp only [List.contains_iff_mem, hmem, if_false]
      exact .forgoKeeps (by simpa [FedBehind, h] using hmem)

theorem reacts_promote (id : NodeId) :
    Reacts p now s (.promote id) (s.reactPromote p id).1 (s.reactPromote p id).2 := by
  unfold reactPromote
  cases hr : s.run? id with
  | none => exact .promoteIdle (by simp [hr])
  | some r =>
    by_cases hsat : r.isSatisfied = true
    · simp only [hsat, if_true]
      cases hchoice : s.failedChoice? r with
      | some origin => exact .promoteSkips hr hsat hchoice
      | none =>
        by_cases hzero : r.promotions = 0
        · have hle : ¬ maxPromotions < r.markReady.promotions := by
            simp [maxPromotions, NodeRun.markReady, hzero]
          simp only [hle, if_false]
          exact .promoteQueues hr hsat hchoice hzero
        · have hlt : maxPromotions < r.markReady.promotions := by
            simp only [maxPromotions, NodeRun.markReady]
            omega
          simp only [hlt, if_true]
          exact .promoteAgain hr hsat (Nat.pos_of_ne_zero hzero)
    · have hfalse : r.isSatisfied = false := by simpa using hsat
      simp only [hfalse, Bool.false_eq_true, if_false]
      refine .promoteIdle ?_
      intro r' hr'
      obtain rfl : r = r' := Option.some.inj (hr.symm.trans hr')
      exact hfalse

theorem reacts_feederFailed (id : NodeId) (port : String) (origin : NodeId) :
    Reacts p now s (.feederFailed id port origin) (s.reactFeederFailed p id port origin).1
      (s.reactFeederFailed p id port origin).2 := by
  unfold reactFeederFailed
  cases hn : p.node? id with
  | none => exact .feederSkips (by simp [hn])
  | some node =>
    simp only [Option.map_some]
    cases hset : node.settings with
    | condition settings =>
      simp only
      cases herror : settings.errorAsFalse with
      | false => exact .feederFails ⟨node, settings, hn, hset, herror⟩
      | true =>
        have htolerant : Tolerant p id := ⟨node, settings, hn, hset, herror⟩
        simp only [Bool.true_eq_false, if_false]
        by_cases hport : port = PortName.condition
        · subst hport
          simp only [if_true]
          exact .feederCounts htolerant
        · simp only [hport, if_false]
          cases hr : s.run? id with
          | none => exact .feederIdle htolerant hport (by simp [hr])
          | some r =>
            by_cases hpending : r.state = .pending
            · simp only [hpending, if_true]
              exact .feederDrops htolerant hport hr hpending
            · simp only [hpending, if_false]
              refine .feederIdle htolerant hport ?_
              intro r' hr'
              obtain rfl : r = r' := Option.some.inj (hr.symm.trans hr')
              exact hpending
    | _ =>
      refine .feederSkips ?_
      intro node' settings hn'
      obtain rfl : node = node' := Option.some.inj (hn.symm.trans hn')
      simp [hset]

theorem reacts_skip (id : NodeId) (reason : SkipReason) :
    Reacts p now s (.skip id reason) (s.reactSkip now id reason).1
      (s.reactSkip now id reason).2 := by
  unfold reactSkip
  cases hr : s.run? id with
  | none => exact .skipIdle (by simp [hr])
  | some r =>
    by_cases hunstarted : isUnstarted r = true
    · simp only [hunstarted, if_true]
      exact .skips hr hunstarted
    · have hfalse : isUnstarted r = false := by simpa using hunstarted
      simp only [hfalse, Bool.false_eq_true, if_false]
      exact .skipIdle (by simp [hr, hfalse])

theorem reacts_fail (id : NodeId) (e : NodeError) :
    Reacts p now s (.fail id e) (s.reactFail now id e).1 (s.reactFail now id e).2 := by
  unfold reactFail
  cases hr : s.run? id with
  | none => exact .failIdle (by simp [hr])
  | some r =>
    by_cases hunstarted : isUnstarted r = true
    · simp only [hunstarted, if_true]
      exact .fails hr hunstarted
    · have hfalse : isUnstarted r = false := by simpa using hunstarted
      simp only [hfalse, Bool.false_eq_true, if_false]
      exact .failIdle (by simp [hr, hfalse])

theorem reacts_settle (id : NodeId) :
    Reacts p now s (.settle id) (s.reactSettle p id).1 (s.reactSettle p id).2 := by
  unfold reactSettle
  by_cases hres : s.resolved.contains id = true
  · simp only [hres, Bool.true_or, if_true]
    exact .settleIdle (Or.inl hres)
  · by_cases hkind : p.kind? id = some .condition
    · have hnone : s.resolved.find? id = none := by
        simpa [Table.contains] using hres
      simp only [hres, hkind, bne_self_eq_false, Bool.or_self, Bool.false_eq_true, if_false]
      exact .settles hnone hkind
    · have hne : (p.kind? id != some .condition) = true := bne_iff_ne.mpr hkind
      simp only [hne, Bool.or_true, if_true]
      exact .settleIdle (Or.inr hkind)

theorem reacts_react (sig : Signal) :
    Reacts p now s sig (s.react p now sig).1 (s.react p now sig).2 := by
  cases sig with
  | route t v => exact reacts_route p now s t v
  | write id port v => exact reacts_write p now s id port v
  | resolve id => exact reacts_resolve p now s id
  | forgo id branch => exact reacts_forgo p now s id branch
  | promote id => exact reacts_promote p now s id
  | cascade source origin => exact .cascade
  | feederFailed id port origin => exact reacts_feederFailed p now s id port origin
  | skip id reason => exact reacts_skip p now s id reason
  | fail id e => exact reacts_fail p now s id e
  | settle id => exact reacts_settle p now s id

end Cases

/-! ### Runs through signals -/

/-- A scope works off its signals, what follows from a signal before the rest. -/
inductive Drains (p : Plan) (now : Timestamp) : Scope → List Signal → Scope → List Signal → Prop
  | stay {s : Scope} {sigs : List Signal} : Drains p now s sigs s sigs
  | step {s s' t : Scope} {sig : Signal} {rest more left : List Signal} :
      Reacts p now s sig s' more → Drains p now s' (more ++ rest) t left →
      Drains p now s (sig :: rest) t left

theorem drains_drain (p : Plan) (now : Timestamp) (budget : ℕ) (s : Scope) (sigs : List Signal) :
    Drains p now s sigs (s.drain p now budget sigs).1 (s.drain p now budget sigs).2 := by
  induction budget generalizing s sigs with
  | zero => cases sigs <;> exact .stay
  | succ budget ih =>
    cases sigs with
    | nil => exact .stay
    | cons sig rest => exact .step (reacts_react p now s sig) (ih _ _)

/-- What every step keeps is kept. -/
theorem Drains.keeps {p : Plan} {now : Timestamp} {P : Scope → List Signal → Prop}
    (hstep : ∀ s sig rest s' more, P s (sig :: rest) → Reacts p now s sig s' more →
      P s' (more ++ rest))
    {s t : Scope} {sigs left : List Signal} (h : Drains p now s sigs t left) (hs : P s sigs) :
    P t left := by
  induction h with
  | stay => exact hs
  | step hreact _ ih => exact ih (hstep _ _ _ _ _ hs hreact)

end Scope

end PortGraph
