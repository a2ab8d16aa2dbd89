import PortGraph.Proofs.Execution.Grounded

/-!
Dataflow. Every connected input of a started node holds the value that its feeder has sent,
converted to the type of the port, or is a value port that its condition may do without. This holds
of all executions of a plan just if no condition of the top level is queued at the very beginning
although the value of its branch is already known to be lost.
-/

namespace PortGraph.Execution

open Nesting Plan

/-- How a connected input of a started node stands to its feeder. -/
inductive Fulfils (p : Plan) (e : Execution) (a : Address) (t : Site) (node : Node)
    (inputs : PortValues) (q : String) (source : PortRef) : Prop
  /-- It holds what the feeder has sent. -/
  | brought {v w : Json} : e.valueAt? p a source = some v → NodeRun.Converts node q v w →
      inputs.find? q = some w → Fulfils p e a t node inputs q source
  /-- It belongs to the branch not taken, which alone needs the feeder. -/
  | untaken {holds : Bool} : t.scope.resolved.find? node.id = some holds →
      q = (Branch.taken holds).other.port →
      source.node ∈ p.exclusive ⟨node.id, (Branch.taken holds).other⟩ →
      inputs.find? q = none → Fulfils p e a t node inputs q source
  /-- It belongs to the branch not taken, and the feeder failed or was skipped. -/
  | unselected {holds : Bool} : Scope.Tolerant p node.id →
      t.scope.resolved.find? node.id = some holds → q = (Branch.taken holds).other.port →
      t.scope.Lost source.node → inputs.find? q = none → Fulfils p e a t node inputs q source
  /-- It is the condition, and the feeder failed or was skipped. -/
  | countedFalse : Scope.Tolerant p node.id → q = PortName.condition →
      t.scope.Lost source.node → inputs.find? q = some (.bool false) →
      Fulfils p e a t node inputs q source

/-- Every connected input of every started node stands as it should. -/
def Dataflow (p : Plan) (e : Execution) : Prop :=
  ∀ a t n r node q source, e.site? a = some t → t.scope.run? n = some r →
    r.startedAt.isSome = true → p.node? n = some node → p.graph.inbound? n q = some source →
      Graph.returnsToLoop node q = false → Fulfils p e a t node r.inputs q source

end PortGraph.Execution

namespace PortGraph

open Nesting Plan

section Inputs

variable {p : Plan} (hp : p.Sound) {n : NodeId} {node : Node} {q : String}
include hp

/-- A condition has three inputs. -/
theorem Plan.Sound.condition_inputs (hnode : p.node? n = some node)
    (hkind : p.kind? n = some .condition) (hq : q ∈ p.connectedInputs node) (holds : Bool) :
    q = PortName.condition ∨ q = (Branch.taken holds).port ∨
      q = (Branch.taken holds).other.port := by
  obtain ⟨node', hnode', hcond⟩ := Graph.kind?_eq_some hkind
  obtain rfl : node = node' := Option.some.inj (hnode.symm.trans hnode')
  obtain ⟨port, hport, rfl⟩ := List.mem_map.mp hq
  have hmem := List.mem_of_mem_filter (List.mem_of_mem_filter hport)
  rw [(hp.graph.ports node (Graph.node?_eq_some hnode).1).1] at hmem
  cases hsettings : node.settings with
  | condition settings =>
    rw [hsettings] at hmem
    have hthree : port ∈ [⟨PortName.condition, .boolean⟩, ⟨PortName.trueValue, .any⟩,
        (⟨PortName.falseValue, .any⟩ : Port)] := hmem
    simp only [List.mem_cons, List.not_mem_nil, or_false] at hthree
    rcases hthree with rfl | rfl | rfl
    · exact Or.inl rfl
    · cases holds
      · exact Or.inr (Or.inr rfl)
      · exact Or.inr (Or.inl rfl)
    · cases holds
      · exact Or.inr (Or.inl rfl)
      · exact Or.inr (Or.inr rfl)
  | _ =>
    unfold Node.kind at hcond
    rw [hsettings] at hcond
    simp [NodeSettings.kind] at hcond

/-- The feeder of a lost input is lost. -/
theorem Scope.FeederLost.source {s : Scope} {x : PortRef} (h : Scope.FeederLost p s x)
    {source : PortRef} (hin : p.graph.inbound? x.node x.port = some source) :
    s.Lost source.node := by
  obtain ⟨m, hm, c, hc, rfl⟩ := h
  rw [hp.inbound?_of_forwardOut hc] at hin
  rw [← Option.some.inj hin]
  exact hm

end Inputs

namespace Execution

section Started

variable {p : Plan} {e : Execution} {a : Address} {t : Site} {given : List (PortRef × Json)}

theorem fulfils_of_rooted (hp : p.Sound) (hsighted : p.SeedsSighted)
    (ht : e.site? a = some t) (hroot : Rooted p e a t given) {n : NodeId} {r : NodeRun}
    (hr : t.scope.run? n = some r) (hstart : r.startedAt.isSome = true) {node : Node}
    (hnode : p.node? n = some node) {q : String} {source : PortRef}
    (hin : p.graph.inbound? n q = some source) (hback : Graph.returnsToLoop node q = false) :
    Fulfils p e a t node r.inputs q source := by
  obtain ⟨s, h, howner, hchosen, hclosed⟩ := hroot.scope
  have hid : node.id = n := (Graph.node?_eq_some hnode).2
  -- the scope before it closed
  obtain ⟨hlater, r₀, hr₀, hinputs, hstart₀⟩ : Scope.Later s t.scope ∧
      ∃ r₀, s.run? n = some r₀ ∧ r.inputs = r₀.inputs ∧ r₀.startedAt.isSome = true := by
    rcases hclosed with ⟨-, heq⟩ | ⟨-, now, aborted, heq⟩
    · rw [heq] at hr ⊢
      exact ⟨.refl s, r, hr, rfl, hstart⟩
    · rw [heq] at hr ⊢
      obtain ⟨r₀, hr₀, hinputs, hsame, -⟩ := Scope.run?_of_close h.shape aborted hr
      exact ⟨Scope.later_close h.shape aborted, r₀, hr₀, hinputs, hsame ▸ hstart⟩
  have hconnected : q ∈ p.connectedInputs node :=
    (hp.mem_connectedInputs_iff hnode).mpr ⟨by simp [hin], hback⟩
  have hlost : Scope.FeederLost p s ⟨n, q⟩ → t.scope.Lost source.node := fun hl =>
    hlater.lost (hl.source hp hin)
  rw [hinputs]
  cases hw : r₀.inputs.find? q with
  | some w =>
    obtain ⟨node', v, hnode', hconverts, hsupplied | hfallback⟩ :=
      h.sourced.inputs n r₀ q w hr₀ hw
    · obtain rfl : node = node' := Option.some.inj (hnode.symm.trans hnode')
      rcases hsupplied with hoffered | ⟨htolerant, rfl, rfl, hl⟩
      · obtain ⟨source', hin', hv⟩ :=
          bears_of_offered hp ht hlater h.shape howner hroot.bears hoffered
        obtain rfl := Option.some.inj (hin.symm.trans hin')
        exact .brought hv hconverts hw
      · obtain ⟨applied, hconvert⟩ := hconverts
        rw [Scope.condition_port hp hnode htolerant.kind] at hconvert
        obtain ⟨rfl, -⟩ := Prod.mk.inj (Except.ok.inj hconvert)
        exact .countedFalse (hid ▸ htolerant) rfl (hlost hl) hw
    · obtain rfl : node = node' := Option.some.inj (hnode.symm.trans hnode')
      have hnone := Scope.inbound?_of_fallback hfallback
      rw [hid, hin] at hnone
      simp at hnone
  | none =>
    have hfree := ((h.shape.clear n r₀ hr₀).free (Or.inr (Or.inr (Or.inl hstart₀)))).1
    rcases h.accounted.inputs n r₀ node q hr₀ hnode hconnected (Or.inr hstart₀) with
      hwaits | hsome | hfailed | ⟨branch, ⟨holds, hholds, rfl⟩, ⟨feeder, hfeeder, hmem⟩, rfl⟩ | hfail
    · simp [hfree] at hwaits
    · simp [hw] at hsome
    · obtain ⟨o, ho⟩ := Option.isSome_iff_exists.mp hfailed
      obtain ⟨htolerant, hne, hl⟩ := h.sourced.failedPorts n r₀ q o hr₀ ho
      obtain ⟨holds, hholds, htaken⟩ := hchosen hsighted n r₀ hr₀ htolerant.kind (Or.inr hstart₀)
      have hport : q = (Branch.taken holds).other.port := by
        rcases hp.condition_inputs hnode htolerant.kind hconnected holds with rfl | rfl | hport
        · exact absurd rfl hne
        · rw [htaken] at ho
          simp at ho
        · exact hport
      exact .unselected (hid ▸ htolerant) (by rw [hid]; exact hlater.resolved n holds hholds)
        hport (hlost hl) hw
    · obtain rfl := Option.some.inj (hin.symm.trans hfeeder)
      exact .untaken (by rw [hid]; exact hlater.resolved n holds hholds) rfl
        (by rw [hid]; exact hmem) hw
    · obtain ⟨-, err, rest, hnil⟩ := hfail
      simp at hnil

end Started

/-! ### Working through the first queue -/

section Queue

variable {p : Plan} {verbose : Bool} {now : Timestamp} {e : Execution} {t : Site}

/-- With a free permit, the top level can start the first node of its queue. -/
theorem dispatch_top (p : Plan) (verbose : Bool) (hsites : e.sites = [([], t)]) (hphase : t.phase = .running)
    (hfault : t.scope.fault = none) {s : Scope} {r : NodeRun}
    (hstart : t.scope.startNext? now = some (s, r)) (hfree : t.busy.length < e.permits) :
    ∃ e' t', e.perform? p verbose now (.dispatch []) = some e' ∧ e'.sites = [([], t')] ∧
      t'.scope = s ∧ t'.phase = .running ∧ t'.busy.length ≤ t.busy.length + 1 ∧
      e'.permits = e.permits := by
  have ht : e.site? [] = some t := by
    unfold site?
    rw [hsites]
    rfl
  have hput : ∀ t' : Site, (e.putSite p verbose [] t').sites = [([], t')] := by
    intro t'
    unfold putSite
    simp [ht, hsites]
  have hcount : e.busyCount = t.busy.length := by
    unfold busyCount
    simp [hsites]
  have hguard : ¬ (t.phase ≠ .running ∨ t.scope.fault.isSome = true) := by
    simp [hphase, hfault]
  simp only [perform?, dispatch?, ht, Option.bind_eq_bind, Option.bind_some, if_neg hguard, hstart]
  split
  · exact ⟨_, _, rfl, hput _, rfl, hphase, Nat.le_succ _, rfl⟩
  · rw [if_pos (by rw [hcount]; exact hfree)]
    exact ⟨_, _, rfl, hput _, rfl, hphase, by simp, rfl⟩

/-- With enough permits, each node in the queue of the top level can be started. -/
theorem started_of_queued (hp : p.Sound) (hu : p.Untangled) (now : Timestamp)
    (queue : List (ℕ × NodeId)) (h : Reachable p verbose e) (hsites : e.sites = [([], t)])
    (hphase : t.phase = .running) (hfault : t.scope.fault = none) (hqueue : t.scope.ready = queue)
    (hfree : t.busy.length + queue.length ≤ e.permits) {n : NodeId} {r : NodeRun}
    (hr : t.scope.run? n = some r) (hready : r.state = .ready) :
    ∃ e' t', Reachable p verbose e' ∧ e'.site? [] = some t' ∧
      t'.scope.run? n = some (r.start now) ∧ t'.scope.resolved = t.scope.resolved := by
  have ht : e.site? [] = some t := by
    unfold site?
    rw [hsites]
    rfl
  obtain ⟨given, hroot⟩ := (h.grounded hp hu).sites [] t ht
  obtain ⟨hcoherent, -⟩ := hroot.coherent (by simp [hphase])
  have hmem : (p.rank n, n) ∈ t.scope.ready :=
    (hcoherent.listed.ready _).mpr ⟨rfl, r, hr, hready⟩
  induction queue generalizing e t given with
  | nil => simp [hqueue] at hmem
  | cons x rest ih =>
    obtain ⟨k, m⟩ := x
    obtain ⟨-, rm, hrm, hstate⟩ := (hcoherent.listed.ready (k, m)).mp (by rw [hqueue]; simp)
    have hstart : t.scope.startNext? now =
        some (Scope.started now t.scope rm rest, rm.start now) := by
      unfold Scope.startNext?
      simp [hqueue, hrm, Scope.started]
    obtain ⟨e', t', hevent, hsites', hscope, hphase', hbusy, hpermits⟩ :=
      dispatch_top p verbose hsites hphase hfault hstart
        (by rw [List.length_cons] at hfree; omega)
    have h' : Reachable p verbose e' := .step h hevent
    have ht' : e'.site? [] = some t' := by
      unfold site?
      rw [hsites']
      rfl
    have hrun : t'.scope.run? n = if m = n then some (rm.start now) else t.scope.run? n := by
      rw [hscope]
      exact Scope.run?_started hcoherent hrm n
    by_cases hn : m = n
    · subst hn
      obtain rfl := Option.some.inj (hr.symm.trans hrm)
      rw [if_pos rfl] at hrun
      exact ⟨e', t', h', ht', hrun, by rw [hscope]; rfl⟩
    · rw [if_neg hn, hr] at hrun
      obtain ⟨given', hroot'⟩ := (h'.grounded hp hu).sites [] t' ht'
      obtain ⟨hcoherent', -⟩ := hroot'.coherent (by simp [hphase'])
      obtain ⟨e'', t'', h'', ht'', hr'', hresolved⟩ := ih h' hsites' hphase'
        (by rw [hscope]; exact hfault) (by rw [hscope]; rfl)
        (by rw [hpermits]; rw [List.length_cons] at hfree; omega) hrun ht' given' hroot'
        hcoherent' ((hcoherent'.listed.ready _).mpr ⟨rfl, r, hrun, hready⟩)
      exact ⟨e'', t'', h'', ht'', hr'', by rw [hresolved, hscope]; rfl⟩

end Queue

/-! ### Dataflow -/

/-- A condition that is queued at the very beginning although the value of its branch is lost can
be started without it. -/
theorem sighted_of_dataflow {p : Plan} {verbose : Bool} (hp : p.Sound) (hu : p.Untangled)
    (h : ∀ e, Reachable p verbose e → e.Dataflow p) : p.SeedsSighted := by
  intro now n r hr hready
  by_contra hchoice
  obtain ⟨o, ho⟩ := Option.ne_none_iff_exists'.mp hchoice
  obtain ⟨holds, hholds, hfailed⟩ := Option.bind_eq_some_iff.mp ho
  obtain ⟨hcoherent, hfault, -⟩ :=
    Scope.coherent_seed now none hp (proper_top p) hu (by simp)
  have hid : r.node = n := hcoherent.shape.node n r hr
  rw [hid] at hholds
  obtain ⟨htolerant, hne, hl⟩ := hcoherent.sourced.failedPorts n r _ o hr hfailed
  obtain ⟨node, settings, hnode, hsettings, hblind⟩ := htolerant
  have hnodeid : node.id = n := (Graph.node?_eq_some hnode).2
  obtain ⟨m, hm, c, hc, hinput⟩ := hl
  have hin := hp.inbound?_of_forwardOut hc
  rw [hinput] at hin
  have hback : Graph.returnsToLoop node (Branch.taken holds).port = false := by
    simp [Graph.returnsToLoop, Node.kind, hsettings, NodeSettings.kind]
  -- the node starts
  obtain ⟨e, t, he, ht, hrun, hresolved⟩ := started_of_queued hp hu now _
    (.begin now (Scope.seed p now none []).ready.length false) (sites_begin _ _)
    rfl hfault rfl (by simp [begin, openSite]) hr hready
  have hbranch : (Branch.taken holds).port ≠ (Branch.taken holds).other.port := by
    cases holds <;> decide
  cases h e he [] t n (r.start now) node _ _ ht hrun rfl hnode hin hback with
  | @brought v w hv hconverts hw =>
    obtain ⟨node', v', hnode', -, hsupplied | hfallback⟩ :=
      hcoherent.sourced.inputs n r _ w hr hw
    · rcases hsupplied with hoffered | ⟨-, hcondition, -⟩
      · exact Scope.not_feederLost_of_offered hp hcoherent.shape hcoherent.proper hoffered
          ⟨m, hm, c, hc, hinput⟩
      · exact hne hcondition
    · have hnone := Scope.inbound?_of_fallback hfallback
      rw [(Graph.node?_eq_some hnode').2, hin] at hnone
      simp at hnone
  | untaken hholds' hport =>
    rw [hresolved, hnodeid, hholds] at hholds'
    obtain rfl := Option.some.inj hholds'
    exact hbranch hport
  | unselected _ hholds' hport =>
    rw [hresolved, hnodeid, hholds] at hholds'
    obtain rfl := Option.some.inj hholds'
    exact hbranch hport
  | countedFalse _ hcondition => exact hne hcondition

/-- Where every node of the top level is within reach of an input, the queue begins sighted. -/
theorem seedsSighted_of_reached {p : Plan} (hp : p.Sound) (hu : p.Untangled)
    (h : p.unreachable = []) : p.SeedsSighted := by
  intro now
  have hloop : ∀ l, (none : ScopeId) = some l → p.graph.kind? l = some .loop := by simp
  refine Scope.sighted_of_chosen hp hu now (proper_top p) hloop
    (Scope.chosen_of_reached hp hu now (proper_top p) hloop ?_)
  simp [Scope.unreached, h]

/-- The connected inputs of all started nodes stand as they should, in every execution of a plan,
just if its top level begins sighted. -/
theorem dataflow_iff_seedsSighted {p : Plan} (h : p.Accepted) (hu : p.Untangled) (verbose : Bool) :
    (∀ e, Reachable p verbose e → e.Dataflow p) ↔ p.SeedsSighted := by
  have hp := Plan.sound_of_accepted h
  constructor
  · exact sighted_of_dataflow hp hu
  · intro hsighted e he a t n r node q source ht hr hstart hnode hin hback
    obtain ⟨given, hroot⟩ := (he.grounded hp hu).sites a t ht
    exact fulfils_of_rooted hp hsighted ht hroot hr hstart hnode hin hback

theorem loopInLoop_dataflow : ∃ p, Plan.ofDefinition Plan.loopInLoop = .ok p ∧
    ∀ e, Reachable p false e → e.Dataflow p := by
  obtain ⟨p, hp, hreached, hloops⟩ := Plan.exists_of_check (d := Plan.loopInLoop)
    (P := fun p => p.unreachable = [] ∧
      ∀ a ∈ p.nesting.loops, ∀ b ∈ p.nesting.loops, ¬ (a.1 ∈ b.2.body ∧ b.1 ∈ a.2.body))
    (by decide +kernel)
  have haccepted : p.Accepted := ⟨Plan.loopInLoop, hp⟩
  have hu := Plan.untangled_of_loops hloops
  exact ⟨p, hp, (dataflow_iff_seedsSighted haccepted hu false).mpr
    (seedsSighted_of_reached (Plan.sound_of_accepted haccepted) hu hreached)⟩

/-- A condition, settled by a property, whose branch waits for a loop that nothing reaches. -/
def blindChoice : Definition :=
  ⟨[⟨"dead", "logic-loop", []⟩, ⟨"t", "data-transform", []⟩, ⟨"y", "data-input", []⟩,
    ⟨"x", "logic-condition", []⟩,
    ⟨"n", "logic-condition", [("condition", .bool true), ("errorAsFalse", .bool true)]⟩,
    ⟨"out", "data-output", []⟩],
   [⟨⟨"dead", "item"⟩, ⟨"t", "input"⟩⟩, ⟨⟨"t", "output"⟩, ⟨"dead", "result"⟩⟩,
    ⟨⟨"dead", "results"⟩, ⟨"x", "trueValue"⟩⟩, ⟨⟨"y", "value"⟩, ⟨"x", "falseValue"⟩⟩,
    ⟨⟨"dead", "results"⟩, ⟨"n", "trueValue"⟩⟩, ⟨⟨"x", "result"⟩, ⟨"n", "falseValue"⟩⟩,
    ⟨⟨"n", "result"⟩, ⟨"out", "data"⟩⟩]⟩

/-- The condition starts without the value of its branch. -/
theorem blindChoice_not_dataflow : ∃ p, Plan.ofDefinition blindChoice = .ok p ∧ p.Untangled ∧
    ¬ ∀ e, Reachable p false e → e.Dataflow p := by
  obtain ⟨p, hp, hloops, hblind⟩ := Plan.exists_of_check (d := blindChoice)
    (P := fun p =>
      (∀ a ∈ p.nesting.loops, ∀ b ∈ p.nesting.loops, ¬ (a.1 ∈ b.2.body ∧ b.1 ∈ a.2.body)) ∧
      ((Scope.seed p .epoch none []).run? "n").any fun r => r.state == .ready &&
        (Scope.seed p .epoch none []).failedChoice? r == some "dead")
    (by decide +kernel)
  have hu := Plan.untangled_of_loops hloops
  refine ⟨p, hp, hu, fun hall => ?_⟩
  have hsighted := sighted_of_dataflow (Plan.sound_of_accepted ⟨blindChoice, hp⟩) hu hall
  obtain ⟨r, hr, hcheck⟩ := (Option.any_eq_true _ _).mp hblind
  obtain ⟨hready, hchoice⟩ := (Bool.and_eq_true _ _).mp hcheck
  rw [hsighted .epoch "n" r hr (by simpa using hready)] at hchoice
  simp at hchoice

end Execution

end PortGraph
