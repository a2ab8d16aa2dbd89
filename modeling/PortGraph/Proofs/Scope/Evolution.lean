import PortGraph.Proofs.Plan.Gates
import PortGraph.Proofs.Scope.Views

/-!
How the runs of a scope change while it works off signals. The members stay the same; a run that has
started or ended stays as it is, up to what it no longer waits for.
-/

namespace PortGraph

/-- How a signal may change the run of one node of a scope. -/
inductive NodeRun.Evolves (p : Plan) (now : Timestamp) (s : Scope) (sig : Signal) (r : NodeRun) :
    NodeRun → Prop
  | same : Evolves p now s sig r r
  | capture {t : PortRef} {v : Json} : sig = .route t v →
      p.route s.owner t = some (.nested r.node) → Evolves p now s sig r r.takeCapture
  | gate {c : NodeId} {holds : Bool} : sig = .resolve c → s.resolved.find? c = none →
      r.node ∈ p.exclusive ⟨c, Branch.taken holds⟩ → Evolves p now s sig r r.openGate
  | drop {branch : Branch} : sig = .forgo r.node branch → Scope.FedBehind p r.node branch →
      Evolves p now s sig r (r.dropInput branch.port)
  | deliver {node : Node} {port : String} {v : Json} {r' : NodeRun}
      {result : Except NodeError Unit} : sig = .write r.node port v → p.node? r.node = some node →
      r.state = .pending → NodeRun.deliver node r port v = (r', result) →
      Evolves p now s sig r r'
  | lose {port : String} {origin : NodeId} : sig = .feederFailed r.node port origin →
      Scope.Tolerant p r.node → port ≠ PortName.condition → r.state = .pending →
      Evolves p now s sig r (r.losePort port origin)
  | ready : sig = .promote r.node → r.isSatisfied = true → s.failedChoice? r = none →
      Evolves p now s sig r r.markReady
  | skip {reason : SkipReason} : sig = .skip r.node reason → Scope.isUnstarted r = true →
      Evolves p now s sig r (r.skip now reason)
  | fail {e : NodeError} : sig = .fail r.node e → Scope.isUnstarted r = true →
      Evolves p now s sig r (r.fail now e)

namespace NodeRun

theorem deliver_kept {node : Node} {r r' : NodeRun} {port : String} {v : Json}
    {result : Except NodeError Unit} (h : NodeRun.deliver node r port v = (r', result)) :
    r'.node = r.node ∧ r'.state = r.state ∧ r'.outputs = r.outputs ∧
      r'.startedAt = r.startedAt ∧ r'.skipReason = r.skipReason ∧
      r'.pendingInputs = (r.dropInput port).pendingInputs ∧
      r'.pendingCaptures = r.pendingCaptures ∧ r'.pendingGates = r.pendingGates ∧
      r'.failedPorts = r.failedPorts ∧ r'.promotions = r.promotions := by
  unfold deliver at h
  extract_lets target dropped at h
  split at h
  · obtain ⟨rfl, -⟩ := Prod.mk.inj h
    exact ⟨rfl, rfl, rfl, rfl, rfl, rfl, rfl, rfl, rfl, rfl⟩
  · obtain ⟨rfl, -⟩ := Prod.mk.inj h
    exact ⟨rfl, rfl, rfl, rfl, rfl, rfl, rfl, rfl, rfl, rfl⟩

/-- The value as the input of a node takes it. -/
def Converts (node : Node) (port : String) (v w : Json) : Prop :=
  ∃ applied, Conversion.convert v (((node.input? port).map Port.type).getD .any) = .ok (w, applied)

/-- The input of a node does not take the value. -/
def Refuses (node : Node) (port : String) (v : Json) : Prop :=
  ∃ e, Conversion.convert v (((node.input? port).map Port.type).getD .any) = .error e

theorem deliver_ok {node : Node} {r r' : NodeRun} {port : String} {v : Json}
    (h : NodeRun.deliver node r port v = (r', .ok ())) :
    ∃ w, Converts node port v w ∧ r'.inputs = r.inputs.insert port w := by
  unfold deliver at h
  extract_lets target dropped at h
  split at h
  · simp at h
  · rename_i w applied hconvert
    obtain ⟨rfl, -⟩ := Prod.mk.inj h
    exact ⟨w, ⟨applied, hconvert⟩, rfl⟩

theorem deliver_error {node : Node} {r r' : NodeRun} {port : String} {v : Json} {e : NodeError}
    (h : NodeRun.deliver node r port v = (r', .error e)) :
    Refuses node port v ∧ r'.inputs = r.inputs := by
  unfold deliver at h
  extract_lets target dropped at h
  split at h
  · rename_i cause hconvert
    obtain ⟨rfl, -⟩ := Prod.mk.inj h
    exact ⟨⟨cause, hconvert⟩, rfl⟩
  · simp at h

theorem pending_of_isSatisfied {r : NodeRun} (h : r.isSatisfied = true) :
    r.state = .pending ∧ r.pendingInputs = [] ∧ r.pendingCaptures = 0 ∧ r.pendingGates = 0 := by
  unfold isSatisfied at h
  simp only [Bool.and_eq_true, beq_iff_eq, List.isEmpty_iff] at h
  exact ⟨h.1.1.1, h.1.1.2, h.1.2, h.2⟩

variable {p : Plan} {now : Timestamp} {s : Scope} {sig : Signal} {r r' : NodeRun}

theorem Evolves.node (h : Evolves p now s sig r r') : r'.node = r.node := by
  cases h with
  | deliver _ _ _ hd => exact (deliver_kept hd).1
  | _ => rfl

/-- What has started or ended keeps its state, its inputs and its outputs. -/
theorem Evolves.settled (h : Evolves p now s sig r r') (hr : Scope.isUnstarted r = false) :
    r'.state = r.state ∧ r'.inputs = r.inputs ∧ r'.outputs = r.outputs ∧
      r'.startedAt = r.startedAt ∧ r'.skipReason = r.skipReason ∧ r'.failedPorts = r.failedPorts := by
  have hpending : r.state ≠ .pending := by
    intro hstate
    simp [Scope.isUnstarted, hstate, RunState.isTerminal] at hr
  cases h with
  | same | capture | gate | drop => exact ⟨rfl, rfl, rfl, rfl, rfl, rfl⟩
  | deliver _ _ hstate _ => exact absurd hstate hpending
  | lose _ _ _ hstate => exact absurd hstate hpending
  | ready _ hsat => exact absurd (pending_of_isSatisfied hsat).1 hpending
  | skip _ hunstarted => simp [hr] at hunstarted
  | fail _ hunstarted => simp [hr] at hunstarted

/-- A signal starts no node. -/
theorem Evolves.startedAt (h : Evolves p now s sig r r') : r'.startedAt = r.startedAt := by
  cases h with
  | deliver _ _ _ hd => exact (deliver_kept hd).2.2.2.1
  | _ => rfl

/-- A signal gives no node its outputs. -/
theorem Evolves.outputs (h : Evolves p now s sig r r') : r'.outputs = r.outputs := by
  cases h with
  | deliver _ _ _ hd => exact (deliver_kept hd).2.2.1
  | _ => rfl

theorem Evolves.isUnstarted (h : Evolves p now s sig r r') (hr' : Scope.isUnstarted r' = true) :
    Scope.isUnstarted r = true := by
  by_contra hr
  have hfalse : Scope.isUnstarted r = false := by simpa using hr
  have hstate := (h.settled hfalse).1
  unfold Scope.isUnstarted at hfalse hr'
  rw [hstate] at hr'
  rw [hr'] at hfalse
  simp at hfalse

/-- A run that still waits waited before, and for no less. -/
theorem Evolves.pending (h : Evolves p now s sig r r') (hr' : r'.state = .pending) :
    r.state = .pending ∧ r'.promotions = r.promotions ∧
      ∀ q ∈ r'.pendingInputs, q ∈ r.pendingInputs := by
  cases h with
  | same | capture | gate => exact ⟨hr', rfl, fun _ hq => hq⟩
  | drop => exact ⟨hr', rfl, fun q hq => ((Scope.mem_dropInput r _ q).mp hq).1⟩
  | deliver _ _ hstate hd =>
    obtain ⟨-, -, -, -, -, hinputs, -, -, -, hpromotions⟩ := deliver_kept hd
    refine ⟨hstate, hpromotions, ?_⟩
    intro q hq
    rw [hinputs] at hq
    exact ((Scope.mem_dropInput r _ q).mp hq).1
  | lose _ _ _ hstate =>
    exact ⟨hstate, rfl, fun q hq => ((Scope.mem_dropInput r _ q).mp hq).1⟩
  | ready => simp [markReady] at hr'
  | skip => simp at hr'
  | fail => simp at hr'

/-- A signal ends a run by skipping or failing it. -/
theorem Evolves.ended (h : Evolves p now s sig r r') (hlive : r.state.isTerminal = false)
    (hterm : r'.state.isTerminal = true) :
    (∃ reason, sig = .skip r.node reason ∧ Scope.isUnstarted r = true ∧ r' = r.skip now reason) ∨
      ∃ e, sig = .fail r.node e ∧ Scope.isUnstarted r = true ∧ r' = r.fail now e := by
  cases h with
  | same =>
    rw [hterm] at hlive
    simp at hlive
  | skip hsig hunstarted => exact Or.inl ⟨_, hsig, hunstarted, rfl⟩
  | fail hsig hunstarted => exact Or.inr ⟨_, hsig, hunstarted, rfl⟩
  | deliver _ _ _ hd =>
    rw [(deliver_kept hd).2.1, hlive] at hterm
    simp at hterm
  | ready => simp [markReady, RunState.isTerminal] at hterm
  | _ =>
    change r.state.isTerminal = true at hterm
    rw [hterm] at hlive
    simp at hlive

/-- An input keeps a value. -/
theorem Evolves.filled (h : Evolves p now s sig r r') {q : String}
    (hq : (r.inputs.find? q).isSome = true) : (r'.inputs.find? q).isSome = true := by
  cases h with
  | @deliver node port v r' result _ _ _ hd =>
    cases result with
    | error e =>
      rw [(deliver_error hd).2]
      exact hq
    | ok u =>
      obtain ⟨w, -, hinputs⟩ := deliver_ok hd
      rw [hinputs, Table.find?_insert]
      split_ifs
      · rfl
      · exact hq
  | _ => exact hq

/-- A value port that was lost stays lost. -/
theorem Evolves.lost (h : Evolves p now s sig r r') {q : String}
    (hq : (r.failedPorts.find? q).isSome = true) : (r'.failedPorts.find? q).isSome = true := by
  cases h with
  | deliver _ _ _ hd => rwa [(deliver_kept hd).2.2.2.2.2.2.2.2.1]
  | @lose port origin =>
    change ((r.failedPorts.insert port origin).find? q).isSome = true
    rw [Table.find?_insert]
    split_ifs
    · rfl
    · exact hq
  | _ => exact hq

/-- What is known of a run by its state: a node that was not queued was not promoted, one that was
promoted waits for nothing, and it has a start just when it has been started. -/
structure Clear (r : NodeRun) : Prop where
  fresh : r.state = .pending → r.promotions = 0
  idle : Scope.isUnstarted r = true → r.startedAt = none
  free : r.state = .ready ∨ r.state = .running ∨ r.startedAt.isSome = true ∨ 0 < r.promotions →
    r.pendingInputs = [] ∧ r.pendingCaptures = 0 ∧ r.pendingGates = 0
  running : r.state = .running → r.startedAt.isSome = true
  skipped : r.state = .skipped → r.startedAt = none

theorem Clear.not_due_of_pending (hr : r.Clear) (hstate : r.state = .pending) :
    ¬ (r.state = .ready ∨ r.state = .running ∨ r.startedAt.isSome = true ∨ 0 < r.promotions) := by
  rintro (h | h | h | h)
  · simp [hstate] at h
  · simp [hstate] at h
  · rw [hr.idle (by simp [Scope.isUnstarted, hstate, RunState.isTerminal])] at h
    simp at h
  · rw [hr.fresh hstate] at h
    exact lt_irrefl 0 h

/-- A run that waits for nothing is told nothing that it would wait for. -/
theorem Clear.free_evolve (hr : r.Clear) (h : Evolves p now s sig r r')
    (hdue : r'.state = .ready ∨ r'.state = .running ∨ r'.startedAt.isSome = true ∨
      0 < r'.promotions) :
    r'.pendingInputs = [] ∧ r'.pendingCaptures = 0 ∧ r'.pendingGates = 0 := by
  rw [h.startedAt] at hdue
  cases h with
  | same => exact hr.free hdue
  | capture =>
    obtain ⟨hi, hc, hg⟩ := hr.free hdue
    exact ⟨hi, by simp [takeCapture, hc], hg⟩
  | gate =>
    obtain ⟨hi, hc, hg⟩ := hr.free hdue
    exact ⟨hi, hc, by simp [openGate, hg]⟩
  | drop =>
    obtain ⟨hi, hc, hg⟩ := hr.free hdue
    exact ⟨by simp [dropInput, hi], hc, hg⟩
  | deliver _ _ hstate hd =>
    obtain ⟨-, hsame, -, -, -, -, -, -, -, hpromotions⟩ := deliver_kept hd
    rw [hsame, hpromotions] at hdue
    exact absurd hdue (hr.not_due_of_pending hstate)
  | lose _ _ _ hstate => exact absurd hdue (hr.not_due_of_pending hstate)
  | ready _ hsat => exact (pending_of_isSatisfied hsat).2
  | skip _ hunstarted | fail _ hunstarted =>
    rcases hdue with hready | hrunning | hstart | hpromoted
    · simp at hready
    · simp at hrunning
    · rw [hr.idle hunstarted] at hstart
      simp at hstart
    · exact hr.free (Or.inr (Or.inr (Or.inr hpromoted)))

theorem Clear.evolve (hr : r.Clear) (h : Evolves p now s sig r r') : r'.Clear := by
  refine ⟨?_, ?_, hr.free_evolve h, ?_, ?_⟩
  · intro hstate
    obtain ⟨hpending, hpromotions, -⟩ := h.pending hstate
    rw [hpromotions]
    exact hr.fresh hpending
  · intro hunstarted
    rw [h.startedAt]
    exact hr.idle (h.isUnstarted hunstarted)
  · intro hstate
    rw [h.startedAt]
    cases h with
    | deliver _ _ _ hd =>
      rw [(deliver_kept hd).2.1] at hstate
      exact hr.running hstate
    | ready => simp [markReady] at hstate
    | skip => simp at hstate
    | fail => simp at hstate
    | _ => exact hr.running hstate
  · intro hstate
    rw [h.startedAt]
    cases h with
    | deliver _ _ _ hd =>
      rw [(deliver_kept hd).2.1] at hstate
      exact hr.skipped hstate
    | ready => simp [markReady] at hstate
    | skip _ hunstarted => exact hr.idle hunstarted
    | fail => simp at hstate
    | _ => exact hr.skipped hstate

end NodeRun

namespace Scope

/-- The runs of a scope are those of its members, and a node that was queued waits for nothing. -/
structure Shape (p : Plan) (s : Scope) : Prop where
  member : ∀ n, (s.run? n).isSome ↔ n ∈ p.membersIn s.owner
  node : ∀ n r, s.run? n = some r → r.node = n
  clear : ∀ n r, s.run? n = some r → r.Clear
  ordered : s.runs.Ordered

section Steps

variable {p : Plan} {now : Timestamp} {s s' : Scope} {sig : Signal} {more : List Signal}

theorem Reacts.owner (h : Reacts p now s sig s' more) : s'.owner = s.owner := by
  cases h <;> simp [queue]

private theorem evolves_of_put {r₀ r₁ r : NodeRun} {n id : NodeId}
    (hs : ∀ k, s'.run? k = if r₁.node = k then some r₁ else s.run? k)
    (h₀ : s.run? id = some r₀) (hnode : r₀.node = id) (h : NodeRun.Evolves p now s sig r₀ r₁)
    (hr : s.run? n = some r) : ∃ r', s'.run? n = some r' ∧ NodeRun.Evolves p now s sig r r' := by
  rw [hs, h.node, hnode]
  by_cases hn : id = n
  · subst hn
    obtain rfl : r₀ = r := Option.some.inj (h₀.symm.trans hr)
    exact ⟨r₁, by simp, h⟩
  · exact ⟨r, by simp [hn, hr], .same⟩

private theorem evolves_of_change {f : NodeRun → NodeRun} {r : NodeRun} {n : NodeId} {c : Prop}
    [Decidable c] (hs : s'.run? n = if c then (s.run? n).map f else s.run? n)
    (h : c → NodeRun.Evolves p now s sig r (f r)) (hr : s.run? n = some r) :
    ∃ r', s'.run? n = some r' ∧ NodeRun.Evolves p now s sig r r' := by
  rw [hs, hr]
  by_cases hc : c
  · exact ⟨f r, by simp [hc], h hc⟩
  · exact ⟨r, by simp [hc], .same⟩

theorem Reacts.evolves (h : Reacts p now s sig s' more) (hp : p.Sound) (hs : Shape p s)
    {n : NodeId} {r : NodeRun} (hr : s.run? n = some r) :
    ∃ r', s'.run? n = some r' ∧ NodeRun.Evolves p now s sig r r' := by
  have hnode := hs.node n r hr
  cases h with
  | routeNested hroute =>
    refine evolves_of_change (run?_hand s _ _ _ _) ?_ hr
    intro hl
    exact .capture rfl (by rw [hnode, ← hl]; exact hroute)
  | writeTaken hn hid hpending hd | writeRejected hn hid hpending hd =>
    have hid' := hs.node _ _ hid
    exact evolves_of_put (fun k => run?_put s k _) hid hid'
      (.deliver (by rw [hid']) (by rw [hid']; exact hn) hpending hd) hr
  | resolveDecides hnone =>
    refine evolves_of_change (run?_decide s _ _ p _ (hp.nodup_exclusive _)) ?_ hr
    intro hmem
    exact .gate rfl hnone (by rwa [hnode])
  | forgoDrops hfed =>
    refine evolves_of_change (run?_change s _ _ _) ?_ hr
    rintro rfl
    exact .drop (by rw [hnode]) (by rwa [hnode])
  | promoteAgain hid hsat hpromotions =>
    rw [(hs.clear _ _ hid).fresh (NodeRun.pending_of_isSatisfied hsat).1] at hpromotions
    exact absurd hpromotions (lt_irrefl 0)
  | promoteQueues hid hsat hchoice =>
    have hid' := hs.node _ _ hid
    exact evolves_of_put (fun k => run?_put s k _) hid hid' (.ready (by rw [hid']) hsat hchoice) hr
  | feederDrops htolerant hport hid hpending =>
    have hid' := hs.node _ _ hid
    exact evolves_of_put (fun k => run?_put s k _) hid hid'
      (.lose (by rw [hid']) (by rwa [hid']) hport hpending) hr
  | skips hid hunstarted =>
    have hid' := hs.node _ _ hid
    exact evolves_of_put (fun k => run?_putEnded (s.dequeue _) k _) hid hid'
      (.skip (by rw [hid']) hunstarted) hr
  | fails hid hunstarted =>
    have hid' := hs.node _ _ hid
    exact evolves_of_put (fun k => run?_putEnded (s.dequeue _) k _) hid hid'
      (.fail (by rw [hid']) hunstarted) hr
  | _ => exact ⟨r, by simpa using hr, .same⟩

theorem Reacts.run?_none (h : Reacts p now s sig s' more) (hp : p.Sound) (hs : Shape p s)
    {n : NodeId} (hn : s.run? n = none) : s'.run? n = none := by
  have hput : ∀ {r₀ : NodeRun} {id : NodeId}, s.run? id = some r₀ → r₀.node ≠ n := by
    intro r₀ id hid heq
    rw [hs.node id r₀ hid] at heq
    rw [heq, hn] at hid
    simp at hid
  cases h with
  | routeNested => simp [run?_hand, hn]
  | writeTaken _ hid _ hd | writeRejected _ hid _ hd =>
    rw [run?_put, (NodeRun.deliver_kept hd).1, if_neg (hput hid), hn]
  | resolveDecides => simp [run?_decide s _ _ p _ (hp.nodup_exclusive _), hn]
  | forgoDrops => simp [run?_change, hn]
  | promoteAgain hid => simpa [run?_put, hn, NodeRun.markReady] using hput hid
  | promoteQueues hid => simpa [run?_queue, hn] using hput hid
  | feederDrops _ _ hid =>
    simpa [run?_put, hn, NodeRun.losePort, NodeRun.dropInput] using hput hid
  | skips hid | fails hid => simpa [run?_putEnded, hn] using hput hid
  | _ => simpa using hn

/-- A run after a signal comes from one before it. -/
theorem Reacts.evolved (h : Reacts p now s sig s' more) (hp : p.Sound) (hs : Shape p s)
    {n : NodeId} {r' : NodeRun} (hr' : s'.run? n = some r') :
    ∃ r, s.run? n = some r ∧ NodeRun.Evolves p now s sig r r' := by
  cases hr : s.run? n with
  | none =>
    rw [h.run?_none hp hs hr] at hr'
    simp at hr'
  | some r =>
    obtain ⟨r₁, hr₁, hevolves⟩ := h.evolves hp hs hr
    obtain rfl : r₁ = r' := Option.some.inj (hr₁.symm.trans hr')
    exact ⟨r, rfl, hevolves⟩

theorem Reacts.ordered (h : Reacts p now s sig s' more) (hs : s.runs.Ordered) :
    s'.runs.Ordered := by
  cases h with
  | routeNested => exact Table.ordered_modify hs _ _
  | @forgoDrops id branch => exact Table.ordered_modify hs id fun r => r.dropInput branch.port
  | writeTaken | writeRejected | promoteAgain | promoteQueues | feederDrops | skips | fails =>
    exact Table.ordered_insert hs _ _
  | resolveDecides => exact ordered_unlock hs _
  | _ => exact hs

theorem Shape.react (hs : Shape p s) (hp : p.Sound) (h : Reacts p now s sig s' more) :
    Shape p s' := by
  refine ⟨?_, ?_, ?_, h.ordered hs.ordered⟩
  · intro n
    rw [h.owner, ← hs.member n]
    constructor
    · intro hsome
      obtain ⟨r', hr'⟩ := Option.isSome_iff_exists.mp hsome
      obtain ⟨r, hr, -⟩ := h.evolved hp hs hr'
      simp [hr]
    · intro hsome
      obtain ⟨r, hr⟩ := Option.isSome_iff_exists.mp hsome
      obtain ⟨r', hr', -⟩ := h.evolves hp hs hr
      simp [hr']
  · intro n r' hr'
    obtain ⟨r, hr, hevolves⟩ := h.evolved hp hs hr'
    rw [hevolves.node]
    exact hs.node n r hr
  · intro n r' hr'
    obtain ⟨r, hr, hevolves⟩ := h.evolved hp hs hr'
    exact (hs.clear n r hr).evolve hevolves

/-- Once a condition has its value, it keeps it; it gets one by a signal of its own. -/
theorem Reacts.resolved (h : Reacts p now s sig s' more) {c : NodeId} {b : Bool}
    (hc : s.resolved.find? c = some b) : s'.resolved.find? c = some b := by
  cases h with
  | resolveDecides hnone =>
    rw [resolved_decide]
    split_ifs with heq
    · rw [heq, hc] at hnone
      simp at hnone
    · exact hc
  | _ => simpa [queue] using hc

theorem Reacts.undecided (h : Reacts p now s sig s' more) {c : NodeId}
    (hnone : s'.resolved.find? c = none) : s.resolved.find? c = none := by
  by_contra hne
  obtain ⟨b, hb⟩ := Option.ne_none_iff_exists'.mp hne
  rw [h.resolved hb] at hnone
  simp at hnone

end Steps

end Scope

end PortGraph
