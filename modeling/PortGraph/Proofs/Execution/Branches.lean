import PortGraph.Proofs.Execution.Logged
import PortGraph.Proofs.Scope.Contained
import PortGraph.Work.Builtin

/-!
Branches. A node behind a branch is queued only when the condition has taken it, so none is ever
started on the other side of a condition with a value, or behind one that ended without a value. A
condition that succeeds with the worker built in has taken the branch whose value it gives.
-/

namespace PortGraph

open Plan

/-- The worker built in for the node can finish with these outputs. -/
def Finishes (node : Node) (inputs outputs : PortValues) : Prop :=
  ∃ w input, Worker.builtin node.kind = some w ∧ w.begin node inputs input = .ok (.finish outputs)

/-- The result of a condition is the value of the branch that its condition calls for. -/
theorem finishes_condition_iff {node : Node} {inputs outputs : PortValues}
    (hkind : node.kind = .condition) :
    Finishes node inputs outputs ↔ ∃ holds, inputs.truth PortName.condition = .ok holds ∧
      outputs = Worker.single "result" (inputs.value (Branch.taken holds).port) := by
  have hbegin : Finishes node inputs outputs ↔
      Worker.beginCondition node inputs = .ok (.finish outputs) := by
    unfold Finishes
    rw [hkind]
    exact ⟨fun ⟨w, input, hw, h⟩ => by rwa [← Option.some.inj hw] at h,
      fun h => ⟨_, .null, rfl, h⟩⟩
  obtain ⟨settings, hsettings⟩ : ∃ settings, node.settings = .condition settings := by
    unfold Node.kind at hkind
    cases hsettings : node.settings with
    | condition settings => exact ⟨settings, rfl⟩
    | _ =>
      rw [hsettings] at hkind
      simp [NodeSettings.kind] at hkind
  have hport : ∀ holds, (Branch.taken holds).port =
      if holds = true then PortName.trueValue else PortName.falseValue := by decide
  rw [hbegin]
  unfold Worker.beginCondition
  rw [hsettings]
  cases htruth : inputs.truth PortName.condition with
  | error e => simp [bind, Except.bind]
  | ok holds =>
    simp only [bind, Except.bind, pure, Except.pure, Except.ok.injEq, Action.finish.injEq,
      exists_eq_left', hport]
    exact eq_comm

namespace Scope

variable {p : Plan} {now : Timestamp} {given : List (PortRef × Json)} {s s' : Scope}
variable {sigs : List Signal} {n : NodeId} {r r' : NodeRun}

/-- A node that has succeeded after a scope heard of some node had succeeded before, or this is the
node that was heard of. -/
theorem succeeded_of_hear (hp : p.Sound) (hu : p.Untangled) (hs : Coherent p given s [])
    (h : Recorded s) {report : Report} (hr' : (s.hear p now report).run? n = some r')
    (hstate : r'.state = .succeeded) :
    (∃ r, s.run? n = some r ∧ r'.record = r.record) ∨
      ∃ c r o, report = .ended c ∧ c.node = n ∧ c.outcome = .succeeded o ∧ s.run? n = some r ∧
        r'.outputs = some o ∧ r'.inputs = r.inputs := by
  obtain ⟨hcoherent, -⟩ : Coherent p given (s.hear p now report) [] ∧ _ := hs.hear hp hu report
  have hstart := started_of_succeeded hcoherent.shape hcoherent.sourced hr' hstate
  rcases ended_of_hear hp hu hs h hr' (by rw [hstate]; rfl) hstart with
    ⟨r, hr, -, hrecord⟩ | ⟨c, r, hreport, hnode, hr, -, hrecord⟩
  · exact Or.inl ⟨r, hr, hrecord⟩
  · have hstate' := (NodeRun.state_of_record hrecord).symm.trans hstate
    obtain ⟨hinputs, houtputs, -⟩ := NodeRun.kept_of_record hrecord
    rw [(concludes_concluded now r c.attempts c.outcome).inputs] at hinputs
    cases hout : c.outcome with
    | succeeded o =>
      rw [hout] at houtputs
      exact Or.inr ⟨c, r, o, hreport, hnode, hout, hr, houtputs, hinputs⟩
    | _ =>
      rw [hout] at hstate'
      simp [concluded] at hstate'

end Scope

/-- Reports that a condition succeeded come from the worker that is built in. -/
def Event.Builtin (p : Plan) (e : Execution) : Event → Prop
  | .report a (.ended c) => ∀ o t r node, c.outcome = .succeeded o → e.site? a = some t →
      t.scope.run? c.node = some r → p.node? c.node = some node → node.kind = .condition →
        Finishes node r.inputs o
  | _ => True

namespace Execution

/-- An execution in which all conditions are worked on by the worker that is built in. -/
inductive Builtin (p : Plan) (verbose : Bool) : Execution → Prop
  | begin (now : Timestamp) (permits : ℕ) (aborted : Bool) :
      Builtin p verbose (begin p verbose now permits aborted)
  | step {now : Timestamp} {e e' : Execution} {event : Event} :
      Builtin p verbose e → event.Builtin p e → e.perform? p verbose now event = some e' →
      Builtin p verbose e'

variable {p : Plan} {verbose : Bool} {now : Timestamp} {e e' : Execution} {a : Address}
variable {t t' : Site} {given : List (PortRef × Json)} {event : Event} {n : NodeId}

theorem Builtin.reachable (h : Builtin p verbose e) : Reachable p verbose e := by
  induction h with
  | begin now permits aborted => exact .begin now permits aborted
  | step _ _ hevent ih => exact .step ih hevent

/-! ### Gates -/

/-- The states that a scope comes to: those in which it rests, and those between two signals when it
has heard of a node or when it begins. -/
inductive Passes (p : Plan) (e : Execution) : Address → Scope → Prop
  | rests {a : Address} {t : Site} : e.site? a = some t → Passes p e a t.scope
  | hears {a : Address} {t : Site} {now : Timestamp} {c : Completion} {r : NodeRun} {k : ℕ} :
      e.site? a = some t → t.phase ≠ .ended → .ended c ∈ t.reports →
      t.scope.run? c.node = some r → r.state = .running →
      Passes p e a (Scope.drain p now k
        (t.scope.putEnded (Scope.concluded now { r with attempts := c.attempts } c.outcome))
        (Scope.announced p c.node c.outcome)).1
  | begins {now : Timestamp} {k : ℕ} :
      Passes p e []
        (Scope.drain p now k (Scope.opening p now none) (Scope.openingSignals p none [])).1
  | iterates {a : Address} {t : Site} {loop : NodeId} {l : Looping} {now : Timestamp} {k : ℕ} :
      e.site? a = some t → t.loops.find? loop = some l →
      Passes p e ((loop, l.opened) :: a) (Scope.drain p now k (Scope.opening p now (some loop))
        (Scope.openingSignals p (some loop) (l.deliveries p l.opened))).1

/-- The gates of every node that was queued are open. -/
def Gated (p : Plan) (e : Execution) : Prop :=
  ∀ a s n r gate, Passes p e a s → s.run? n = some r → r.Released → n ∈ p.exclusive gate →
    ∃ holds, s.resolved.find? gate.condition = some holds ∧ gate.branch = Branch.taken holds

theorem Rooted.gated (hp : p.Sound) (h : Rooted p e a t given) {r : NodeRun}
    (hr : t.scope.run? n = some r) (hreleased : r.Released) {gate : Gate}
    (hgate : n ∈ p.exclusive gate) : t.scope.isOpen gate = true := by
  obtain ⟨s, hcoherent, -, -, ⟨-, rfl⟩ | ⟨-, now, aborted, heq⟩⟩ := h.scope
  · exact hcoherent.gates_open hp hr hreleased hgate
  · rw [heq] at hr ⊢
    rw [Scope.run?_close hcoherent.shape] at hr
    obtain ⟨r₀, hr₀, rfl⟩ := Option.map_eq_some_iff.mp hr
    have hreleased₀ : r₀.Released := by
      unfold Scope.leftOver at hreleased
      split_ifs at hreleased <;> exact hreleased
    have hopen := hcoherent.gates_open hp hr₀ hreleased₀ hgate
    unfold Scope.isOpen at hopen ⊢
    rwa [(Scope.close_kept aborted).2]

/-- In all states that a scope comes to, its gates and its signals agree. -/
theorem Grounded.gated (hp : p.Sound) (hu : p.Untangled) (h : Grounded p e) : Gated p e := by
  intro a s n r gate hpasses hr hreleased hgate
  refine Scope.isOpen_iff.mp ?_
  -- what a scope works off keeps it coherent, however far it has come
  have hdrains : ∀ {now k given s₀ sigs}, Scope.Coherent p given s₀ sigs →
      (Scope.drain p now k s₀ sigs).1.run? n = some r →
        (Scope.drain p now k s₀ sigs).1.isOpen gate = true := by
    intro now k given s₀ sigs hcoherent hr
    exact (hcoherent.drains hp hu (Scope.drains_drain p now k s₀ sigs)).1.gates_open hp hr
      hreleased hgate
  cases hpasses with
  | rests ht =>
    obtain ⟨given, hroot⟩ := h.sites a _ ht
    exact hroot.gated hp hr hreleased hgate
  | @hears _ t now c run k ht hlive _ hrun hrunning =>
    obtain ⟨given, hroot⟩ := h.sites a t ht
    obtain ⟨hcoherent, -⟩ := hroot.coherent hlive
    exact hdrains (hcoherent.conclude hp hrun hrunning
      (Scope.concludes_concluded now run c.attempts c.outcome)
      (Scope.announces_announced (hcoherent.shape.node _ run hrun) c.attempts c.outcome)) hr
  | @begins now k =>
    exact hdrains (Scope.coherent_opening now none hp (proper_top p) hu
      (by simp)) hr
  | @iterates outer t loop l now k ht hl =>
    obtain ⟨given, hroot⟩ := h.sites outer t ht
    have hstems := hroot.loops loop l hl
    refine hdrains (Scope.coherent_opening now (some loop) hp (hstems.proper hp l.opened) hu ?_) hr
    intro m hm
    rw [← Option.some.inj hm]
    exact hstems.kind

/-- The node is neither queued nor started in the scope, now or later. -/
def NeverQueued (p : Plan) (verbose : Bool) (e : Execution) (a : Address) (n : NodeId) : Prop :=
  ∀ e' t r, Leads p verbose e e' → e'.site? a = some t → t.scope.run? n = some r → ¬ r.Released

/-- What is behind a branch that is not taken, or behind a condition without a value, is left
alone. -/
structure Pruned (p : Plan) (verbose : Bool) (e : Execution) : Prop where
  other : ∀ a t c holds n, e.site? a = some t → t.scope.resolved.find? c = some holds →
    n ∈ p.exclusive ⟨c, (Branch.taken holds).other⟩ → NeverQueued p verbose e a n
  both : ∀ a t c branch n, e.site? a = some t → t.scope.Ended c →
    t.scope.resolved.find? c = none → n ∈ p.exclusive ⟨c, branch⟩ → NeverQueued p verbose e a n

theorem Grounded.pruned (hp : p.Sound) (hu : p.Untangled) (h : Grounded p e) :
    Pruned p verbose e := by
  have hlater : ∀ {a t c branch n e' t' r}, e.site? a = some t → n ∈ p.exclusive ⟨c, branch⟩ →
      Leads p verbose e e' → e'.site? a = some t' → t'.scope.run? n = some r → r.Released →
        Scope.Later t.scope t'.scope ∧
          ∃ holds, t'.scope.resolved.find? c = some holds ∧ branch = Branch.taken holds := by
    intro a t c branch n e' t' r ht hgate hleads ht' hr hreleased
    obtain ⟨hgrounded, hlater⟩ := hleads.grounded hp hu h
    obtain ⟨t'', ht'', hscope⟩ := hlater a t ht
    obtain rfl := Option.some.inj (ht'.symm.trans ht'')
    exact ⟨hscope, hgrounded.gated hp hu a _ n r ⟨c, branch⟩ (.rests ht') hr hreleased hgate⟩
  refine ⟨?_, ?_⟩
  · intro a t c holds n ht hres hgate e' t' r hleads ht' hr hreleased
    obtain ⟨hscope, holds', hres', hbranch⟩ := hlater ht hgate hleads ht' hr hreleased
    obtain rfl := Option.some.inj ((hscope.resolved c holds hres).symm.trans hres')
    cases holds <;> simp [Branch.taken, Branch.other] at hbranch
  · intro a t c branch n ht hended hres hgate e' t' r hleads ht' hr hreleased
    obtain ⟨hscope, holds', hres', -⟩ := hlater ht hgate hleads ht' hr hreleased
    obtain ⟨rc, hrc, hterm⟩ := hended
    rw [hscope.undecided c rc hrc hterm hres] at hres'
    simp at hres'

/-! ### What conditions give -/

/-- Every condition that was started has a value in its scope. -/
theorem Moves.decided (hp : p.Sound) (hu : p.Untangled) (hroot : Rooted p e a t given)
    (hrecorded : t.scope.Recorded) (h : t.scope.Decided p) (hmoves : Moves p now e a t event t') :
    t'.scope.Decided p := by
  cases hmoves with
  | startLoop hphase _ hstart | startWork hphase _ hstart =>
    obtain ⟨hcoherent, -⟩ := hroot.coherent (by simp [hphase])
    exact h.startNext hcoherent hstart
  | @hear r id hlive =>
    obtain ⟨hcoherent, -⟩ := hroot.coherent hlive
    obtain ⟨-, hlater, -⟩ : Scope.Coherent p given (t.scope.hear p now r) [] ∧ _ :=
      hcoherent.hear hp hu r
    exact h.later hlater (hrecorded.hear now hp hu hcoherent r).2.2
  | @close aborted hphase =>
    obtain ⟨hcoherent, -⟩ := hroot.coherent (by simp [hphase])
    exact h.later (Scope.later_close hcoherent.shape aborted)
      (hrecorded.close now hcoherent.shape aborted).2.2
  | _ => exact h

/-- If the member is a condition, it was started, and the worker built in may have given this. -/
def Made (p : Plan) (s : Scope) (c : NodeId) (o : PortValues) : Prop :=
  ∀ node, p.node? c = some node → node.kind = .condition →
    ∃ r, s.run? c = some r ∧ r.startedAt.isSome = true ∧ Finishes node r.inputs o

theorem Made.later {s s' : Scope} {c : NodeId} {o : PortValues} (h : Made p s c o)
    (hlater : Scope.Later s s') : Made p s' c o := by
  intro node hnode hkind
  obtain ⟨r, hr, hstart, hfinishes⟩ := h node hnode hkind
  obtain ⟨r', hr', hstart', hinputs, -⟩ := hlater.started c r hr hstart
  exact ⟨r', hr', by rw [hstart']; exact hstart, by rw [hinputs]; exact hfinishes⟩

/-- What holds of a scope whose conditions are worked on by the worker that is built in. -/
structure Worked (p : Plan) (t : Site) : Prop where
  decided : t.scope.Decided p
  busy : ∀ n ∈ t.busy, (t.scope.startOf? n).isSome = true
  reports : ∀ c o, .ended c ∈ t.reports → c.outcome = .succeeded o → Made p t.scope c.node o
  runs : ∀ n r, t.scope.run? n = some r → r.state = .succeeded →
    ∃ o, r.outputs = some o ∧ Made p t.scope n o

theorem startOf?_later {s s' : Scope} (hlater : Scope.Later s s')
    (h : (s.startOf? n).isSome = true) : (s'.startOf? n).isSome = true := by
  unfold Scope.startOf? at h ⊢
  cases hr : s.run? n with
  | none => simp [hr] at h
  | some r =>
    rw [hr] at h
    obtain ⟨r', hr', hstart, -⟩ := hlater.started n r hr h
    simpa [hr', hstart] using h

/-- What is new in a scope that goes on is all there is to check. -/
theorem Worked.goOn (h : Worked p t) (hlater : Scope.Later t.scope t'.scope)
    (hdecided : t'.scope.Decided p)
    (hbusy : ∀ n ∈ t'.busy, n ∈ t.busy ∨ (t'.scope.startOf? n).isSome = true)
    (hreports : ∀ r ∈ t'.reports, r ∈ t.reports ∨
      ∀ c o, r = .ended c → c.outcome = .succeeded o → Made p t.scope c.node o)
    (hruns : ∀ n r', t'.scope.run? n = some r' → r'.state = .succeeded →
      (∃ r, t.scope.run? n = some r ∧ r.state = .succeeded ∧ r'.outputs = r.outputs) ∨
        ∃ o, r'.outputs = some o ∧ Made p t.scope n o) : Worked p t' where
  decided := hdecided
  busy := by
    intro n hn
    rcases hbusy n hn with hold | hstart
    · exact startOf?_later hlater (h.busy n hold)
    · exact hstart
  reports := by
    intro c o hc ho
    rcases hreports _ hc with hold | hmade
    · exact (h.reports c o hold ho).later hlater
    · exact (hmade c o rfl ho).later hlater
  runs := by
    intro n r' hr' hstate
    rcases hruns n r' hr' hstate with ⟨r, hr, hsucceeded, houtputs⟩ | ⟨o, ho, hmade⟩
    · obtain ⟨o, ho, hmade⟩ := h.runs n r hr hsucceeded
      exact ⟨o, houtputs.trans ho, hmade.later hlater⟩
    · exact ⟨o, ho, hmade.later hlater⟩

theorem Worked.move (hp : p.Sound) (hu : p.Untangled) (ht : e.site? a = some t)
    (hroot : Rooted p e a t given) (hrecorded : t.scope.Recorded) (h : Worked p t)
    (hmoves : Moves p now e a t event t') (hbuiltin : event.Builtin p e) : Worked p t' := by
  have hlater := (hmoves.rooted hp hu ht hroot).2
  have hdecided := hmoves.decided hp hu hroot hrecorded h.decided
  have hsame : ∀ n r, t.scope.run? n = some r → r.state = .succeeded →
      (∃ r₀, t.scope.run? n = some r₀ ∧ r₀.state = .succeeded ∧ r.outputs = r₀.outputs) ∨
        ∃ o, r.outputs = some o ∧ Made p t.scope n o :=
    fun n r hr hstate => Or.inl ⟨r, hr, hstate, rfl⟩
  have hstarted : ∀ {s r}, t.scope.Coherent p given [] → t.scope.startNext? now = some (s, r) →
      ∀ n r', s.run? n = some r' → r'.state = .succeeded →
        ∃ r₀, t.scope.run? n = some r₀ ∧ r₀.state = .succeeded ∧ r'.outputs = r₀.outputs := by
    intro s r hcoherent hstart n r' hr' hstate
    obtain ⟨m, k, r₀, rest, -, hr₀, -, -, rfl⟩ := Scope.startNext?_eq_some hcoherent hstart
    rcases Scope.run?_started_cases hcoherent hr₀ hr' with ⟨rfl, rfl⟩ | ⟨-, hold⟩
    · simp [NodeRun.start] at hstate
    · exact ⟨r', hold, hstate, rfl⟩
  cases hmoves with
  | startLoop hphase _ hstart =>
    obtain ⟨hcoherent, -⟩ := hroot.coherent (by simp [hphase])
    exact h.goOn hlater hdecided (fun _ => Or.inl) (fun _ => Or.inl)
      fun n r' hr' hstate => Or.inl (hstarted hcoherent hstart n r' hr' hstate)
  | @startWork s r hphase _ hstart =>
    obtain ⟨hcoherent, -⟩ := hroot.coherent (by simp [hphase])
    refine h.goOn hlater hdecided ?_ (fun _ => Or.inl)
      fun n r' hr' hstate => Or.inl (hstarted hcoherent hstart n r' hr' hstate)
    intro n hn
    rcases List.mem_append.mp hn with hold | hnew
    · exact Or.inl hold
    · obtain rfl := List.mem_singleton.mp hnew
      refine Or.inr ?_
      change (s.startOf? r.node).isSome = true
      rw [Scope.startOf?_startNext hcoherent hstart, if_pos rfl]
      rfl
  | @report r hmem =>
    refine h.goOn hlater hdecided (fun _ hn => Or.inl (List.erase_subset hn)) ?_ hsame
    intro r' hr'
    rcases List.mem_append.mp hr' with hold | hnew
    · exact Or.inl hold
    · obtain rfl := List.mem_singleton.mp hnew
      refine Or.inr ?_
      rintro c o rfl ho node hnode hkind
      have hstart := h.busy c.node hmem
      unfold Scope.startOf? at hstart
      cases hr : t.scope.run? c.node with
      | none => simp [hr] at hstart
      | some run =>
        exact ⟨run, rfl, by simpa [hr] using hstart, hbuiltin o t run node ho ht hr hnode hkind⟩
  | @hear r id hlive _ hfind =>
    obtain ⟨hcoherent, -⟩ := hroot.coherent hlive
    refine h.goOn hlater hdecided (fun _ => Or.inl)
      (fun r' hr' => Or.inl (List.mem_of_mem_filter hr')) ?_
    intro n r' hr' hstate
    rcases Scope.succeeded_of_hear hp hu hcoherent hrecorded hr' hstate with
      ⟨r₀, hr₀, hrecord⟩ | ⟨c, r₀, o, rfl, rfl, ho, -, houtputs, -⟩
    · exact Or.inl ⟨r₀, hr₀, (NodeRun.state_of_record hrecord).symm.trans hstate,
        (congrArg NodeRun.outputs hrecord :)⟩
    · exact Or.inr ⟨o, houtputs, h.reports c o (List.mem_of_find?_eq_some hfind) ho⟩
  | iterate => exact h.goOn hlater hdecided (fun _ => Or.inl) (fun _ => Or.inl) hsame
  | @conclude loop l hl =>
    refine h.goOn hlater hdecided (fun _ => Or.inl) ?_ hsame
    intro r hr
    rcases List.mem_append.mp hr with hold | hnew
    · exact Or.inl hold
    · -- a loop is no condition
      obtain rfl := List.mem_singleton.mp hnew
      refine Or.inr ?_
      intro c o hc _ node hnode hkind
      obtain rfl := Report.ended.inj hc
      obtain ⟨node', hnode', hsettings⟩ := (hroot.loops loop l hl).settings
      obtain rfl := Option.some.inj (hnode.symm.trans hnode')
      unfold Node.kind at hkind
      rw [hsettings] at hkind
      simp [NodeSettings.kind] at hkind
  | leave => exact h.goOn hlater hdecided (fun _ => Or.inl) (fun _ => Or.inl) hsame
  | @close aborted hphase =>
    obtain ⟨hcoherent, -⟩ := hroot.coherent (by simp [hphase])
    refine h.goOn hlater hdecided (fun _ => Or.inl) (fun _ => Or.inl) ?_
    intro n r' hr' hstate
    change (t.scope.close now aborted).run? n = some r' at hr'
    rw [Scope.run?_close hcoherent.shape] at hr'
    obtain ⟨r, hr, rfl⟩ := Option.map_eq_some_iff.mp hr'
    split_ifs at hstate ⊢ with hterm
    · exact hsame n r hr hstate
    · rw [Scope.leftOver_state] at hstate
      split_ifs at hstate

theorem worked_seed (hp : p.Sound) (hu : p.Untangled) {owner : ScopeId}
    {deliveries : List (PortRef × Json)} (hproper : p.Proper owner deliveries)
    (hloop : ∀ l, owner = some l → p.graph.kind? l = some .loop) :
    Worked p ⟨Scope.seed p now owner deliveries, .running, [], [], []⟩ := by
  refine ⟨?_, by simp, by simp, ?_⟩
  · intro c _ hstart
    unfold Scope.startOf? at hstart
    cases hr : (Scope.seed p now owner deliveries).run? c with
    | none => simp [hr] at hstart
    | some r =>
      simp [hr, Scope.idle_seed hp hu now hproper hloop hr] at hstart
  · intro n r hr hstate
    have hin : (Scope.seed p now owner deliveries).isIn .succeeded n = false :=
      Scope.isIn_seed hp hu hproper hloop rfl n
    rw [Scope.isIn_iff.mpr ⟨r, hr, hstate⟩] at hin
    simp at hin

theorem Builtin.worked (hp : p.Sound) (hu : p.Untangled) (h : Builtin p verbose e) :
    ∀ a t, e.site? a = some t → Worked p t := by
  induction h with
  | begin now permits aborted =>
    intro a t ht
    obtain ⟨rfl, rfl⟩ := site?_begin_eq_some ht
    exact worked_seed hp hu (proper_top p) (by simp)
  | step h hbuiltin hevent ih =>
    have hbooked := h.reachable.booked hp hu
    refine hbooked.grounded.each hp hevent (fun _ _ => worked_seed hp hu) ?_ ih
    intro a t t' ht hmoves hworked
    obtain ⟨given, hroot⟩ := hbooked.grounded.sites a t ht
    exact hworked.move hp hu ht hroot (hbooked.logged.recorded a t ht) hmoves hbuiltin

/-- Each condition that succeeded has a value, and gives the value of the branch that it took. -/
def Agreeing (p : Plan) (e : Execution) : Prop :=
  ∀ a t c r, e.site? a = some t → t.scope.run? c = some r → r.state = .succeeded →
    p.kind? c = some .condition → ∃ holds, t.scope.resolved.find? c = some holds ∧
      r.inputs.truth PortName.condition = .ok holds ∧
        r.outputs = some (Worker.single "result" (r.inputs.value (Branch.taken holds).port))

theorem Builtin.agreeing (hp : p.Sound) (hu : p.Untangled) (h : Builtin p verbose e) :
    Agreeing p e := by
  intro a t c r ht hr hstate hkind
  have hworked := h.worked hp hu a t ht
  obtain ⟨node, hnode, hcondition⟩ := Option.map_eq_some_iff.mp hkind
  obtain ⟨o, ho, hmade⟩ := hworked.runs c r hr hstate
  obtain ⟨r', hr', hstart, hfinishes⟩ := hmade node hnode hcondition
  obtain rfl := Option.some.inj (hr.symm.trans hr')
  obtain ⟨holds, htruth, rfl⟩ := (finishes_condition_iff hcondition).mp hfinishes
  have hstarted : (t.scope.startOf? c).isSome = true := by
    unfold Scope.startOf?
    simpa [hr] using hstart
  obtain ⟨b, hb⟩ := Option.ne_none_iff_exists'.mp (hworked.decided c hkind hstarted)
  -- the value of a condition is what its input says, before and after the scope has closed
  obtain ⟨given, hroot⟩ := (h.reachable.grounded hp hu).sites a t ht
  obtain ⟨s, hcoherent, -, -, hclosed⟩ := hroot.scope
  obtain ⟨r₀, hr₀, hinputs, hres⟩ : ∃ r₀, s.run? c = some r₀ ∧ r.inputs = r₀.inputs ∧
      s.resolved.find? c = some b := by
    rcases hclosed with ⟨-, rfl⟩ | ⟨-, now, aborted, heq⟩
    · exact ⟨r, hr, rfl, hb⟩
    · rw [heq] at hr hb
      obtain ⟨r₀, hr₀, hinputs, -⟩ := Scope.run?_of_close hcoherent.shape aborted hr
      rw [(Scope.close_kept aborted).2] at hb
      exact ⟨r₀, hr₀, hinputs, hb⟩
  obtain ⟨-, r₁, hr₁, htruth', -⟩ := hcoherent.sourced.decided c b hres
  obtain rfl := Option.some.inj (hr₀.symm.trans hr₁)
  rw [hinputs] at htruth
  obtain rfl := Except.ok.inj (htruth.symm.trans htruth')
  exact ⟨holds, hb, by rw [hinputs]; exact htruth, ho⟩

/-- Branches are respected. Whatever order things happen in, a node is queued only after each
condition that it is behind has taken its branch; behind the other branch, or behind a condition that
has ended without a value, nobody is ever queued or started. A condition that succeeds with the worker
built in has a value, and what it gives is its input at the branch that was taken. -/
theorem branchesRespected {p : Plan} (h : p.Accepted) (hu : p.Untangled) {verbose : Bool}
    {e : Execution} (he : Reachable p verbose e) :
    Gated p e ∧ Pruned p verbose e ∧ (Builtin p verbose e → Agreeing p e) := by
  have hp := Plan.sound_of_accepted h
  have hg := he.grounded hp hu
  exact ⟨hg.gated hp hu, hg.pruned hp hu, fun hbuiltin => hbuiltin.agreeing hp hu⟩

theorem builtin_of_after? {events : List (Timestamp × Event)} (h : Builtin p verbose e)
    (hbuiltin : ∀ x ∈ events, ∀ e, x.2.Builtin p e) (hafter : e.after? p verbose events = some e') :
    Builtin p verbose e' := by
  induction events generalizing e with
  | nil =>
    obtain rfl := Option.some.inj hafter
    exact h
  | cons x rest ih =>
    obtain ⟨e₁, hevent, hrest⟩ := Option.bind_eq_some_iff.mp hafter
    exact ih (.step h (hbuiltin x List.mem_cons_self e) hevent)
      (fun y hy => hbuiltin y (List.mem_cons_of_mem _ hy)) hrest

/-- A condition with a node behind each branch. -/
def choice : Definition :=
  ⟨[⟨"in", "data-input", []⟩, ⟨"yes", "data-transform", []⟩, ⟨"no", "data-transform", []⟩,
    ⟨"if", "logic-condition", []⟩, ⟨"out", "data-output", []⟩],
   [⟨⟨"in", "value"⟩, ⟨"if", "condition"⟩⟩, ⟨⟨"in", "value"⟩, ⟨"yes", "input"⟩⟩,
    ⟨⟨"in", "value"⟩, ⟨"no", "input"⟩⟩, ⟨⟨"yes", "output"⟩, ⟨"if", "trueValue"⟩⟩,
    ⟨⟨"no", "output"⟩, ⟨"if", "falseValue"⟩⟩, ⟨⟨"if", "result"⟩, ⟨"out", "data"⟩⟩]⟩

/-- The input is true, so one node is skipped and the other one runs. -/
def choiceEvents : List (Timestamp × Event) :=
  [.dispatch [], .report [] (.ended ⟨"in", [], .succeeded [("value", .bool true)]⟩), .hear [] "in",
    .dispatch [], .report [] (.ended ⟨"yes", [], .succeeded [("output", .string "left")]⟩),
    .hear [] "yes", .dispatch []].map fun event => (.epoch, event)

/-- The condition gives what the node behind the branch taken has sent. -/
def chosenEvent : Event :=
  .report [] (.ended ⟨"if", [], .succeeded [("result", .string "left")]⟩)

theorem choice_branchesRespected : ∃ p e, Plan.ofDefinition choice = .ok p ∧ Builtin p false e ∧
    ((e.site? []).any fun t => t.scope.isIn .succeeded "if" && t.scope.isIn .skipped "no") = true ∧
      Gated p e ∧ Pruned p false e ∧ (Builtin p false e → Agreeing p e) := by
  obtain ⟨p, hp, hloops, ⟨hin, hyes⟩, hall⟩ := Plan.exists_of_check (d := choice)
    (P := fun p =>
      (∀ a ∈ p.nesting.loops, ∀ b ∈ p.nesting.loops, ¬ (a.1 ∈ b.2.body ∧ b.1 ∈ a.2.body)) ∧
      (p.kind? "in" ≠ some .condition ∧ p.kind? "yes" ≠ some .condition) ∧
      (((begin p false .epoch 1 false).after? p false choiceEvents).any fun e =>
        ((e.site? []).bind fun t => t.scope.run? "if").any (fun r =>
          (r.inputs.truth PortName.condition).toOption == some true &&
            r.inputs.value PortName.trueValue == .string "left") &&
        (e.after? p false [(.epoch, chosenEvent), (.epoch, .hear [] "if")]).any fun e =>
          (e.site? []).any fun t => t.scope.isIn .succeeded "if" && t.scope.isIn .skipped "no"))
    (by decide +kernel)
  obtain ⟨e₀, hbefore, hrest⟩ := (Option.any_eq_true _ _).mp hall
  obtain ⟨hinputs, hafter⟩ := (Bool.and_eq_true _ _).mp hrest
  obtain ⟨e, hafter, hstates⟩ := (Option.any_eq_true _ _).mp hafter
  obtain ⟨r, hr, hvalues⟩ := (Option.any_eq_true _ _).mp hinputs
  obtain ⟨htruth, hvalue⟩ := (Bool.and_eq_true _ _).mp hvalues
  have h₀ : Builtin p false e₀ := by
    refine builtin_of_after? (.begin .epoch 1 false) ?_ hbefore
    intro x hx e
    simp only [choiceEvents, List.map_cons, List.map_nil, List.mem_cons, List.not_mem_nil,
      or_false] at hx
    rcases hx with rfl | rfl | rfl | rfl | rfl | rfl | rfl
    · trivial
    · rintro o t r node - - - hnode hkind
      exact absurd (Option.map_eq_some_iff.mpr ⟨node, hnode, hkind⟩) hin
    · trivial
    · trivial
    · rintro o t r node - - - hnode hkind
      exact absurd (Option.map_eq_some_iff.mpr ⟨node, hnode, hkind⟩) hyes
    · trivial
    · trivial
  have he : Builtin p false e := by
    obtain ⟨e₁, hreport, hhear⟩ := Option.bind_eq_some_iff.mp hafter
    refine builtin_of_after? (.step h₀ ?_ hreport) (fun x hx _ => ?_) hhear
    · -- the condition has read true, and has the value for it
      rintro o t r' node ho ht hr' - hkind
      obtain rfl := Outcome.succeeded.inj ho
      rw [ht] at hr
      obtain rfl := Option.some.inj (hr.symm.trans hr')
      refine (finishes_condition_iff hkind).mpr ⟨true, ?_, ?_⟩
      · cases h : r.inputs.truth PortName.condition with
        | error err => simp [h, Except.toOption] at htruth
        | ok holds => simpa [h, Except.toOption] using htruth
      · have hleft : r.inputs.value PortName.trueValue = .string "left" := by simpa using hvalue
        exact congrArg (Worker.single "result") hleft.symm
    · obtain rfl := List.mem_singleton.mp hx
      trivial
  exact ⟨p, e, hp, he, hstates,
    branchesRespected ⟨choice, hp⟩ (Plan.untangled_of_loops hloops) he.reachable⟩

end Execution

end PortGraph
