import PortGraph.Proofs.Execution.Logged

/-!
The nodes that no source reaches. Those at the top level are passed over when the execution begins,
and what is on record stays; a loop that starts is reached, and so is whatever runs in its iterations.
So nothing out of reach ever runs.
-/

namespace PortGraph

open Plan Relation

namespace Scope

variable {p : Plan} {n : NodeId}

/-- A top level begins with those out of reach on record. -/
theorem passedOver_seed (hp : p.Sound) (now : Timestamp) (hn : n ∈ p.membersIn none)
    (hdead : n ∈ p.unreachable) :
    ∃ r, (seed p now none []).run? n = some r ∧ r.state = .skipped ∧
      r.skipReason = some .unreachable ∧ r.startedAt = none := by
  have hshape := shape_opening now none hp
  obtain ⟨r, hr⟩ := Option.isSome_iff_exists.mp ((hshape.member n).mpr (by
    rw [(opening_spec now none hp).2.2.2.1]
    exact hn))
  obtain ⟨-, node, r₀, -, -, hfresh, ⟨hnot, -⟩ | ⟨-, rfl⟩⟩ := opening_run now none hp hr
  · exact absurd ((mem_unreached none).mpr ⟨rfl, hn, hdead⟩) hnot
  have hdrains := drains_drain p now (budget p (openingSignals p none []))
    (opening p now none) (openingSignals p none [])
  obtain ⟨-, hretains, -⟩ := hdrains.recorded hp hshape (recorded_opening now hp none)
  obtain ⟨r', hr', hrecord⟩ := hretains.runs n _ hr rfl
  rw [seed_eq now none hp]
  exact ⟨r', hr', (congrArg NodeRun.state hrecord :), (congrArg NodeRun.skipReason hrecord :),
    (congrArg NodeRun.startedAt hrecord :).trans hfresh.startedAt⟩

end Scope

namespace Execution

variable {p : Plan} {verbose : Bool} {e : Execution} {a : Address} {t : Site} {n : NodeId}

theorem Reachable.from_begin (h : Reachable p verbose e) :
    ∃ now permits aborted, Leads p verbose (Execution.begin p verbose now permits aborted) e := by
  induction h with
  | begin now permits aborted => exact ⟨now, permits, aborted, .refl⟩
  | @step now _ _ event _ hevent ih =>
    obtain ⟨now₀, permits, aborted, hleads⟩ := ih
    exact ⟨now₀, permits, aborted, hleads.tail ⟨now, event, hevent⟩⟩

section Runs

variable (hp : p.Sound) (hu : p.Untangled) (h : Reachable p verbose e)
include hp hu h

/-- The top level keeps on record who was passed over. -/
theorem Reachable.passedOver (ht : e.site? [] = some t) (hn : n ∈ p.membersIn none)
    (hdead : n ∈ p.unreachable) :
    ∃ r, t.scope.run? n = some r ∧ r.state = .skipped ∧ r.skipReason = some .unreachable ∧
      r.startedAt = none := by
  obtain ⟨now, permits, aborted, hleads⟩ := h.from_begin
  obtain ⟨r, hr, hstate, hreason, hstart⟩ := Scope.passedOver_seed hp now hn hdead
  obtain ⟨t', ht', hfollows⟩ :=
    (hleads.continues hp hu (booked_begin hp hu permits aborted)).sites [] _
      (site?_begin permits aborted [])
  obtain rfl := Option.some.inj (ht.symm.trans ht')
  obtain ⟨r', hr', hrecord⟩ := hfollows.retains.runs n r hr (by rw [hstate]; rfl)
  exact ⟨r', hr', (congrArg NodeRun.state hrecord :).trans hstate,
    (congrArg NodeRun.skipReason hrecord :).trans hreason,
    (congrArg NodeRun.startedAt hrecord :).trans hstart⟩

/-- An iteration has none but reached members. Its loop has started in the scope around it, so it is
reached itself: at the top level because who is out of reach never starts, further down because it
is a member of an iteration. -/
theorem Reachable.reached_of_iteration {l : NodeId} {i : ℕ} (ht : e.site? ((l, i) :: a) = some t)
    (hn : n ∈ p.membersIn (some l)) : n ∉ p.unreachable := by
  induction a generalizing l i t n with
  | nil =>
    intro hdead
    obtain ⟨given, hroot⟩ := (h.grounded hp hu).sites _ t ht
    obtain ⟨u, r, hu', hr, hstarted⟩ := hroot.parent l i [] rfl
    obtain ⟨given', hroot'⟩ := (h.grounded hp hu).sites _ u hu'
    have hloop : l ∈ p.membersIn none := (hroot'.member l).mp (by rw [hr]; rfl)
    obtain ⟨r', hr', -, -, hnever⟩ := h.passedOver hp hu hu' hloop
      (hp.unreachable_of_path (hp.path_of_member hn) hdead)
    rw [Option.some.inj (hr.symm.trans hr'), hnever] at hstarted
    simp at hstarted
  | cons x outer ih =>
    intro hdead
    obtain ⟨given, hroot⟩ := (h.grounded hp hu).sites _ t ht
    obtain ⟨u, r, hu', hr, -⟩ := hroot.parent l i (x :: outer) rfl
    obtain ⟨given', hroot'⟩ := (h.grounded hp hu).sites _ u hu'
    have hloop : l ∈ p.membersIn (some x.1) := (hroot'.member l).mp (by rw [hr]; rfl)
    exact ih hu' hloop (hp.unreachable_of_path (hp.path_of_member hn) hdead)

end Runs

/-- What an execution does about the nodes that no source reaches. -/
structure Unreached (p : Plan) (e : Execution) : Prop where
  idle : ∀ a t n r, e.site? a = some t → n ∈ p.unreachable → t.scope.run? n = some r →
    r.state = .skipped ∧ r.startedAt = none
  told : ∀ x ∈ e.log, x.node ∈ p.unreachable → x.state = .skipped ∧ x.startedAt = none
  /-- The log has one entry for such a node of the top level. -/
  logged : ∀ n ∈ p.membersIn none, n ∈ p.unreachable →
    ∃ x, (e.log.filter fun y => y.node == n) = [x] ∧ x.state = .skipped ∧
      x.skipReason = some .unreachable
  iterations : ∀ a t l i, e.site? ((l, i) :: a) = some t →
    ∀ n ∈ p.membersIn (some l), n ∉ p.unreachable

section Runs

variable (hp : p.Sound) (hu : p.Untangled) (h : Reachable p verbose e)
include hp hu h

theorem Reachable.unreached_idle {r : NodeRun} (ht : e.site? a = some t)
    (hdead : n ∈ p.unreachable) (hr : t.scope.run? n = some r) :
    r.state = .skipped ∧ r.startedAt = none := by
  obtain ⟨given, hroot⟩ := (h.grounded hp hu).sites a t ht
  have hn : n ∈ p.membersIn a.owner := (hroot.member n).mp (by rw [hr]; rfl)
  cases a with
  | nil =>
    obtain ⟨r', hr', hstate, -, hstart⟩ := h.passedOver hp hu ht hn hdead
    obtain rfl := Option.some.inj (hr.symm.trans hr')
    exact ⟨hstate, hstart⟩
  | cons x outer => exact absurd hdead (h.reached_of_iteration hp hu ht hn)

/-- Whatever the log says of a node of the top level, it says of its only run. -/
theorem Reachable.entries_top {r : NodeRun} {node : Node} (ht : e.site? [] = some t)
    (hr : t.scope.run? n = some r) (hnode : p.node? n = some node)
    (hterm : r.state.isTerminal = true) :
    (e.log.filter fun y => y.node == n) = [LogEntry.ofRun node r [] verbose] := by
  have hbooked := h.booked hp hu
  have hentry := hbooked.entry hp ht hr hnode
  rw [if_pos hterm] at hentry
  rw [← show Address.iteration [] = [] from rfl, ← hentry]
  refine List.filter_congr fun y hy => ?_
  obtain ⟨b, u, -, -, -, hiteration, howner, -, -⟩ := hbooked.covered hy
  by_cases hy : y.node = n
  · -- the address of a node of the top level is the empty one
    have hn : n ∈ p.membersIn none := by
      obtain ⟨given, hroot⟩ := (h.grounded hp hu).sites [] t ht
      exact (hroot.member n).mp (by rw [hr]; rfl)
    rw [hy, (hp.mem_membersIn.mp hn).2] at howner
    cases b with
    | nil => simp [hy, hiteration]
    | cons x outer => simp [Address.owner] at howner
  · have hbeq : (y.node == n) = false := beq_eq_false_iff_ne.mpr hy
    rw [hbeq, Bool.false_and]

theorem Reachable.unreached : Unreached p e where
  idle := fun a t n r ht hdead hr => h.unreached_idle hp hu ht hdead hr
  told := by
    intro x hx hdead
    have hbooked := h.booked hp hu
    obtain ⟨a, t, r, node, ht, hiteration, -, hr, hnode⟩ := hbooked.covered hx
    obtain ⟨hstate, hstart⟩ := h.unreached_idle hp hu ht hdead hr
    have hmem : x ∈ e.log.filter fun y => y.node == x.node && y.iteration == a.iteration :=
      List.mem_filter.mpr ⟨hx, by simp [hiteration]⟩
    rw [hbooked.entry hp ht hr hnode, if_pos (by rw [hstate]; rfl)] at hmem
    obtain rfl := List.mem_singleton.mp hmem
    exact ⟨hstate, hstart⟩
  logged := by
    intro n hn hdead
    obtain ⟨t, ht⟩ := h.top hp hu
    obtain ⟨r, hr, hstate, hreason, -⟩ := h.passedOver hp hu ht hn hdead
    obtain ⟨node, hnode, -⟩ := hp.node?_of_mem_membersIn hn
    exact ⟨_, h.entries_top hp hu ht hr hnode (by rw [hstate]; rfl), hstate, hreason⟩
  iterations := fun a t l i ht n hn => h.reached_of_iteration hp hu ht hn

end Runs

/-- Dead nodes never run. The nodes out of reach are those that no path of edges leads to from a node
without edges into it, and whatever only feeds a branch of a condition out of reach is one of them.
In no execution does one of them start, those of the top level are logged once, as passed over, and
no iteration has one. -/
theorem deadNeverRun {p : Plan} (h : p.Accepted) (hu : p.Untangled) :
    (∀ n, n ∈ p.unreachable ↔ n ∈ p.graph.ids ∧
      ¬ ∃ m, IsEntry p.graph m ∧ ReflTransGen (Links p.graph) m n) ∧
    (∀ gate, gate.condition ∈ p.unreachable → ∀ n ∈ p.exclusive gate, n ∈ p.unreachable) ∧
    ∀ verbose e, Reachable p verbose e → Unreached p e := by
  have hp := Plan.sound_of_accepted h
  exact ⟨fun n => hp.mem_unreachable_iff_paths,
    fun gate hc n hn => hp.unreachable_of_exclusive hu hn hc,
    fun verbose e he => he.unreached hp hu⟩

/-- A loop over the input; and one without a collection, which nothing reaches, nor the condition
behind it. -/
def strandedLoop : Definition :=
  ⟨[⟨"in", "data-input", []⟩, ⟨"items", "logic-loop", []⟩, ⟨"item", "data-transform", []⟩,
    ⟨"rows", "logic-loop", []⟩, ⟨"row", "data-transform", []⟩, ⟨"ask", "data-transform", []⟩,
    ⟨"yes", "data-transform", []⟩, ⟨"if", "logic-condition", []⟩],
   [⟨⟨"in", "value"⟩, ⟨"items", "collection"⟩⟩, ⟨⟨"items", "item"⟩, ⟨"item", "input"⟩⟩,
    ⟨⟨"item", "output"⟩, ⟨"items", "result"⟩⟩, ⟨⟨"rows", "item"⟩, ⟨"row", "input"⟩⟩,
    ⟨⟨"row", "output"⟩, ⟨"rows", "result"⟩⟩, ⟨⟨"rows", "results"⟩, ⟨"ask", "input"⟩⟩,
    ⟨⟨"ask", "output"⟩, ⟨"if", "condition"⟩⟩, ⟨⟨"rows", "results"⟩, ⟨"yes", "input"⟩⟩,
    ⟨⟨"yes", "output"⟩, ⟨"if", "trueValue"⟩⟩]⟩

/-- The loop over the input begins its first iteration. -/
def itemEvents : List (Timestamp × Event) :=
  [.dispatch [], .report [] (.ended ⟨"in", [], .succeeded [("value", .array [.null])]⟩),
    .hear [] "in", .dispatch [], .iterate [] "items"].map fun event => (.epoch, event)

theorem strandedLoop_deadNeverRun : ∃ p e, Plan.ofDefinition strandedLoop = .ok p ∧
    p.unreachable = ["ask", "if", "row", "rows", "yes"] ∧ p.exclusive ⟨"if", .whenTrue⟩ = ["yes"] ∧
    (e.site? [("items", 0)]).isSome = true ∧ Reachable p false e ∧ Unreached p e ∧
    (∀ n, n ∈ ["ask", "if", "row", "rows", "yes"] ↔ n ∈ p.graph.ids ∧
      ¬ ∃ m, IsEntry p.graph m ∧ ReflTransGen (Links p.graph) m n) := by
  obtain ⟨p, hp, hunreachable, hexclusive, hloops, hafter⟩ := Plan.exists_of_check
    (d := strandedLoop)
    (P := fun p => p.unreachable = ["ask", "if", "row", "rows", "yes"] ∧
      p.exclusive ⟨"if", .whenTrue⟩ = ["yes"] ∧
      (∀ a ∈ p.nesting.loops, ∀ b ∈ p.nesting.loops, ¬ (a.1 ∈ b.2.body ∧ b.1 ∈ a.2.body)) ∧
      ((begin p false .epoch 1 false).after? p false itemEvents).any fun e =>
        (e.site? [("items", 0)]).isSome)
    (by decide +kernel)
  obtain ⟨e, hafter, hsite⟩ := (Option.any_eq_true _ _).mp hafter
  have he : Reachable p false e := (Reachable.begin .epoch 1 false).leads (leads_of_after? hafter)
  obtain ⟨hpaths, -, hruns⟩ := deadNeverRun ⟨strandedLoop, hp⟩ (Plan.untangled_of_loops hloops)
  exact ⟨p, e, hp, hunreachable, hexclusive, hsite, he, hruns false e he, hunreachable ▸ hpaths⟩

end Execution

end PortGraph
