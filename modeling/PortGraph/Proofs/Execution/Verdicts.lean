import PortGraph.Execution.Result
import PortGraph.Proofs.Execution.Completed
import PortGraph.Proofs.Execution.Failures
import PortGraph.Proofs.Execution.Logged

/-!
Why an execution does not complete. Its output is read from nodes of the top level that send nothing
on, so no branch holds them back; one of them is without a value only when a failure has come to it,
or when nothing reaches it, and the log tells which.
-/

namespace PortGraph

open Plan Relation

/-- The nodes that the output is read from. -/
def OutputTarget.ids : OutputTarget → List NodeId
  | .node id => [id]
  | .sinks ids => ids

namespace Plan.Sound

variable {p : Plan} (hp : p.Sound)
include hp

theorem forwardOut_output {id : NodeId} (h : p.kind? id = some .output) : p.forwardOut id = [] := by
  refine List.eq_nil_iff_forall_not_mem.mpr fun c hc => ?_
  have he := (Graph.mem_carried.mp hc).1
  obtain ⟨n, hn, hport⟩ := hp.graph.source _ he
  obtain ⟨hmem, -⟩ := Graph.node?_eq_some hn
  have hkind : n.kind = .output := by
    have hsome : (p.graph.node? id).map Node.kind = some .output := h
    rw [show p.graph.node? id = some n from hn] at hsome
    exact Option.some.inj hsome
  have hnone : n.outputs = [] := by
    rw [(hp.graph.ports n hmem).2]
    unfold Node.kind at hkind
    cases hs : n.settings with
    | output s => rfl
    | _ =>
      rw [hs] at hkind
      simp [NodeSettings.kind] at hkind
  simp [Node.output?, hnone] at hport

/-- The output is read from members of the top level that send nothing on. -/
theorem mem_output {n : NodeId} (hn : n ∈ p.output.ids) :
    n ∈ p.membersIn none ∧ p.forwardOut n = [] := by
  rcases hp.output with ⟨id, hout, hkind, hscope⟩ | hout
  · rw [hout] at hn
    obtain rfl := List.mem_singleton.mp hn
    have hids : n ∈ p.graph.ids := ids_of_kind? hkind
    exact ⟨hp.mem_membersIn.mpr ⟨hids, hscope⟩, hp.forwardOut_output hkind⟩
  · rw [hout] at hn
    obtain ⟨hmem, hsink⟩ := List.mem_filter.mp hn
    obtain ⟨-, hnone⟩ := (Bool.and_eq_true _ _).mp hsink
    exact ⟨hmem, List.isEmpty_iff.mp hnone⟩

/-- No branch of a condition holds them back. -/
theorem not_exclusive_of_output (hu : p.Untangled) {n : NodeId} (hn : n ∈ p.output.ids)
    (gate : Gate) : n ∉ p.exclusive gate := by
  intro hmem
  exact ((hp.mem_exclusive_iff hu).mp hmem).2.2.2.1 (hp.mem_output hn).2

end Plan.Sound

namespace Verdict

theorem isSome_mapM {α β : Type} {f : α → Option β} {l : List α}
    (h : ∀ a ∈ l, (f a).isSome = true) : (l.mapM f).isSome = true := by
  induction l with
  | nil => rfl
  | cons a rest ih =>
    obtain ⟨b, hb⟩ := Option.isSome_iff_exists.mp (h a (by simp))
    obtain ⟨bs, hbs⟩ := Option.isSome_iff_exists.mp (ih fun x hx => h x (List.mem_cons_of_mem _ hx))
    simp [List.mapM_cons, hb, hbs]

/-- Without an output, one of the nodes that should have delivered did not succeed. -/
theorem missing_of_output? {p : Plan} {s : Scope} (h : output? p s = none) :
    ∃ n ∈ p.output.ids, ∀ r, s.run? n = some r → r.state ≠ .succeeded := by
  by_contra hno
  push Not at hno
  unfold output? at h
  cases hout : p.output with
  | node id =>
    obtain ⟨r, hr, hstate⟩ := hno id (by simp [hout, OutputTarget.ids])
    simp [hout, hr, hstate] at h
  | sinks ids =>
    have hvalues : (sinkValues? p s ids).isSome = true := by
      refine isSome_mapM fun id hid => ?_
      obtain ⟨r, hr, hstate⟩ := hno id (by rw [hout]; exact hid)
      simp [hr, hstate]
    obtain ⟨vs, hvs⟩ := Option.isSome_iff_exists.mp hvalues
    simp [hout, hvs] at h

end Verdict

namespace Scope

variable {p : Plan} {given : List (PortRef × Json)} {s : Scope} {n o : NodeId} {r : NodeRun}

/-- Where every node is reached, failures begin with nodes that failed. -/
theorem Coherent.failed_of_root (hs : Coherent p given s []) (hreached : p.unreachable = [])
    (ho : s.Root o) : ∃ r, s.run? o = some r ∧ r.state = .failed := by
  obtain ⟨r, hr, hfailed | ⟨-, hskipped, hreason⟩⟩ := ho
  · exact ⟨r, hr, hfailed⟩
  · have hstart := (hs.shape.clear o r hr).skipped hskipped
    rcases hs.sourced.ended o r hr (by rw [hskipped]; rfl) hstart with
      ⟨-, reason, hreason', hcause⟩ | ⟨hfailed, -⟩
    · obtain rfl := Option.some.inj (hreason'.symm.trans hreason)
      rw [SkipCause, hreached] at hcause
      simp at hcause
    · exact ⟨r, hr, hfailed⟩

end Scope

namespace Execution

variable {p : Plan} {verbose : Bool} {e : Execution} {a : Address} {t : Site}

/-- The log has an entry of each run that has ended. -/
theorem Booked.mem_log (hp : p.Sound) (h : Booked p verbose e) (ht : e.site? a = some t)
    {n : NodeId} {r : NodeRun} (hr : t.scope.run? n = some r)
    (hterm : r.state.isTerminal = true) :
    ∃ x ∈ e.log, x.node = n ∧ x.iteration = a.iteration ∧ x.state = r.state ∧
      x.skipReason = r.skipReason := by
  obtain ⟨given, hroot⟩ := h.grounded.sites a t ht
  obtain ⟨node, hnode, -⟩ := hp.node?_of_mem_membersIn ((hroot.member n).mp (by rw [hr]; rfl))
  have hentry := h.entry hp ht hr hnode
  rw [if_pos hterm] at hentry
  have hmem : LogEntry.ofRun node r a.iteration verbose ∈ e.log :=
    List.mem_of_mem_filter (by rw [hentry]; exact List.mem_singleton_self _)
  exact ⟨_, hmem, hroot.node hr, rfl, rfl, rfl⟩

/-- The log tells why an execution did not complete. -/
structure Explained (p : Plan) (e : Execution) : Prop where
  reason : (Verdict.ofExecution p e false).status ≠ .completed →
    (∃ x ∈ e.log, x.state = .failed) ∨
      ∃ x ∈ e.log, x.iteration = [] ∧ x.state = .skipped ∧ x.skipReason = some .unreachable
  completed : p.unreachable = [] → (∀ x ∈ e.log, x.state ≠ .failed) →
    (Verdict.ofExecution p e false).status = .completed
  error : p.unreachable = [] → ∀ err, (Verdict.ofExecution p e false).error = some err →
    ∃ x, e.log.find? (fun x => x.state == .failed) = some x ∧
      err = .nodeFailed x.node (x.error.getD (.failed "no error recorded"))
  /-- No node that the output is read from is held back by a condition. -/
  spared : ∀ t n, e.site? [] = some t → n ∈ p.output.ids → ∃ r, t.scope.run? n = some r ∧
    (r.state = .succeeded ∨ r.state = .failed ∨
      (r.state = .skipped ∧ ((∃ o, r.skipReason = some (.feederFailed o)) ∨
        (r.skipReason = some .unreachable ∧ n ∈ p.unreachable))))

/-- The top level of an execution that is over without a fault. -/
theorem Orderly.top_over (hp : p.Sound) (hu : p.Untangled) (he : Orderly p verbose e)
    (hclean : e.Clean) (hover : e.isOver = true) :
    ∃ t given, e.site? [] = some t ∧ Scope.Coherent p given t.scope [] ∧ t.scope.owner = none ∧
      ∀ n r, t.scope.run? n = some r → r.state.isTerminal = true ∧ r.state ≠ .cancelled := by
  have hreach := he.reachable
  have haborted := he.aborted_of_clean hp hu hclean
  obtain ⟨t, ht⟩ := hreach.top hp hu
  have hended := (hreach.booked hp hu).hosted.over hover ht
  obtain ⟨given, -, hcoherent, howner, -⟩ := he.unclosed hp hu haborted ht hended
  exact ⟨t, given, ht, hcoherent, howner,
    fun n r hr => (he.calm hp hu haborted [] t ht).done hended hr⟩

/-- The output is read from members that have ended by themselves. -/
theorem Orderly.ended_of_output (hp : p.Sound) (hu : p.Untangled) (he : Orderly p verbose e)
    (hclean : e.Clean) (hover : e.isOver = true) (ht : e.site? [] = some t) {n : NodeId}
    (hn : n ∈ p.output.ids) :
    ∃ r, t.scope.run? n = some r ∧ r.state.isTerminal = true ∧ r.state ≠ .cancelled := by
  obtain ⟨t', given, ht', hcoherent, howner, hdone⟩ := he.top_over hp hu hclean hover
  obtain rfl := Option.some.inj (ht.symm.trans ht')
  have hmember : n ∈ p.membersIn t.scope.owner := howner ▸ (hp.mem_output hn).1
  obtain ⟨r, hr⟩ := Option.isSome_iff_exists.mp ((hcoherent.shape.member n).mpr hmember)
  exact ⟨r, hr, hdone n r hr⟩

section Over

variable (hp : p.Sound) (hu : p.Untangled) (he : Orderly p verbose e) (hclean : e.Clean)
  (hover : e.isOver = true) (ht : e.site? [] = some t)
include hp hu he hclean hover ht

/-- Without an output, a failure has begun at the top level. -/
theorem Orderly.root_of_missing (hout : Verdict.output? p t.scope = none) :
    ∃ o, t.scope.Root o := by
  obtain ⟨t', given, ht', hcoherent, -⟩ := he.top_over hp hu hclean hover
  obtain rfl := Option.some.inj (ht.symm.trans ht')
  obtain ⟨n, hn, hmissing⟩ := Verdict.missing_of_output? hout
  obtain ⟨r, hr, hterm, hkept⟩ := he.ended_of_output hp hu hclean hover ht hn
  exact hcoherent.root_of_spared
    (he.reachable.invariant hp hu (Scope.invariant_attributed hp) [] t ht)
    (hp.not_exclusive_of_output hu hn) hr hterm hkept (hmissing r hr)

/-- Without an output, the log has a failure or a node that nothing reaches. -/
theorem Orderly.logged_of_missing (hout : Verdict.output? p t.scope = none) :
    (∃ x ∈ e.log, x.state = .failed) ∨
      ∃ x ∈ e.log, x.iteration = [] ∧ x.state = .skipped ∧ x.skipReason = some .unreachable := by
  have hbooked := he.reachable.booked hp hu
  obtain ⟨o, r, hr, hstate | ⟨-, hstate, hreason⟩⟩ := he.root_of_missing hp hu hclean hover ht hout
  · obtain ⟨x, hx, -, -, hsame, -⟩ := hbooked.mem_log hp ht hr (by rw [hstate]; rfl)
    exact Or.inl ⟨x, hx, hsame.trans hstate⟩
  · obtain ⟨x, hx, -, hiteration, hsame, hreason'⟩ :=
      hbooked.mem_log hp ht hr (by rw [hstate]; rfl)
    exact Or.inr ⟨x, hx, hiteration, hsame.trans hstate, hreason'.trans hreason⟩

/-- If every node is reached, the log has a failure. -/
theorem Orderly.failed_of_missing (hreached : p.unreachable = [])
    (hout : Verdict.output? p t.scope = none) : ∃ x ∈ e.log, x.state = .failed := by
  obtain ⟨t', given, ht', hcoherent, -⟩ := he.top_over hp hu hclean hover
  obtain rfl := Option.some.inj (ht.symm.trans ht')
  obtain ⟨o, ho⟩ := he.root_of_missing hp hu hclean hover ht hout
  obtain ⟨r, hr, hstate⟩ := hcoherent.failed_of_root hreached ho
  obtain ⟨x, hx, -, -, hsame, -⟩ :=
    (he.reachable.booked hp hu).mem_log hp ht hr (by rw [hstate]; rfl)
  exact ⟨x, hx, hsame.trans hstate⟩

/-- What the output is read from has succeeded, failed, or been skipped for a failure or because
nothing reaches it. -/
theorem Orderly.spared_of_output {n : NodeId} (hn : n ∈ p.output.ids) :
    ∃ r, t.scope.run? n = some r ∧ (r.state = .succeeded ∨ r.state = .failed ∨
      (r.state = .skipped ∧ ((∃ o, r.skipReason = some (.feederFailed o)) ∨
        (r.skipReason = some .unreachable ∧ n ∈ p.unreachable)))) := by
  obtain ⟨t', given, ht', hcoherent, -⟩ := he.top_over hp hu hclean hover
  obtain rfl := Option.some.inj (ht.symm.trans ht')
  obtain ⟨r, hr, hterm, hkept⟩ := he.ended_of_output hp hu hclean hover ht hn
  refine ⟨r, hr, ?_⟩
  cases hstate : r.state with
  | succeeded => exact Or.inl rfl
  | failed => exact Or.inr (Or.inl rfl)
  | skipped =>
    refine Or.inr (Or.inr ⟨rfl, ?_⟩)
    exact (hcoherent.skipped_of_spared (hp.not_exclusive_of_output hu hn) hr hstate).imp_right
      fun h => ⟨h.1, h.2.2⟩
  | cancelled => exact absurd hstate hkept
  | pending | ready | running =>
    rw [hstate] at hterm
    simp [RunState.isTerminal] at hterm

end Over

section Verdict

variable (hclean : e.Clean) (haborted : e.aborted = false) (ht : e.site? [] = some t)
include hclean ht

theorem Clean.completed {output : Json} (hout : Verdict.output? p t.scope = some output) :
    Verdict.ofExecution p e false = ⟨.completed, output, none⟩ := by
  have hfault := hclean [] t ht
  unfold Verdict.ofExecution
  rw [ht]
  change Verdict.ofScope p t.scope false e.aborted e.log = _
  unfold Verdict.ofScope
  rw [hfault, hout]

include haborted in
theorem Clean.failed (hout : Verdict.output? p t.scope = none) {x : LogEntry}
    (hx : e.log.find? (fun x => x.state == .failed) = some x) :
    Verdict.ofExecution p e false =
      .ofFailure (.nodeFailed x.node (x.error.getD (.failed "no error recorded"))) := by
  have hfault := hclean [] t ht
  unfold Verdict.ofExecution
  rw [ht]
  change Verdict.ofScope p t.scope false e.aborted e.log = _
  unfold Verdict.ofScope
  simp [hfault, hout, haborted, hx]

end Verdict

/-- An execution fails only for a recorded reason. When one that nobody calls off is over without a
fault and has not completed, a node has failed or nothing reaches a node of the top level, and the
log says so. If every node is reached, it completes unless a node fails, and the error names the
first that did: what a condition holds back is never what the output is read from. -/
theorem failuresExplained {p : Plan} (h : p.Accepted) (hu : p.Untangled) {verbose : Bool}
    {e : Execution} (he : Orderly p verbose e) (hclean : e.Clean) (hover : e.isOver = true) :
    Explained p e := by
  have hp := Plan.sound_of_accepted h
  have haborted := he.aborted_of_clean hp hu hclean
  obtain ⟨t, ht⟩ := he.reachable.top hp hu
  refine ⟨?_, ?_, ?_, ?_⟩
  · intro hnot
    cases hout : Verdict.output? p t.scope with
    | some output => exact absurd (by rw [hclean.completed ht hout]) hnot
    | none => exact he.logged_of_missing hp hu hclean hover ht hout
  · intro hreached hnone
    cases hout : Verdict.output? p t.scope with
    | some output => rw [hclean.completed ht hout]
    | none =>
      obtain ⟨x, hx, hstate⟩ := he.failed_of_missing hp hu hclean hover ht hreached hout
      exact absurd hstate (hnone x hx)
  · intro hreached err herr
    cases hout : Verdict.output? p t.scope with
    | some output =>
      rw [hclean.completed ht hout] at herr
      simp at herr
    | none =>
      obtain ⟨x, hx, hstate⟩ := he.failed_of_missing hp hu hclean hover ht hreached hout
      cases hfind : e.log.find? fun x => x.state == .failed with
      | none => exact absurd hstate (by simpa using List.find?_eq_none.mp hfind x hx)
      | some y =>
        rw [hclean.failed haborted ht hout hfind] at herr
        exact ⟨y, rfl, (Option.some.inj herr).symm⟩
  · intro t' n ht' hn
    exact he.spared_of_output hp hu hclean hover ht' hn

theorem loopInLoop_failuresExplained : ∃ p e, Plan.ofDefinition Plan.loopInLoop = .ok p ∧
    Orderly p false e ∧ e.isOver = true ∧ p.unreachable = [] ∧
      (Verdict.ofExecution p e false).error = some (.nodeFailed "in" (.failed "no input")) ∧
      Explained p e := by
  obtain ⟨p, hp, hloops, hreached, hall⟩ := Plan.exists_of_check (d := Plan.loopInLoop)
    (P := fun p =>
      (∀ a ∈ p.nesting.loops, ∀ b ∈ p.nesting.loops, ¬ (a.1 ∈ b.2.body ∧ b.1 ∈ a.2.body)) ∧
      p.unreachable = [] ∧
      ((begin p false .epoch 1 false).after? p false failingEvents).any fun e =>
        e.isOver && (e.sites.all fun x => x.2.scope.fault.isNone) &&
          (Verdict.ofExecution p e false).error == some (.nodeFailed "in" (.failed "no input")))
    (by decide +kernel)
  obtain ⟨e, hafter, hrest⟩ := (Option.any_eq_true _ _).mp hall
  obtain ⟨hrest, herror⟩ := (Bool.and_eq_true _ _).mp hrest
  obtain ⟨hover, hsites⟩ := (Bool.and_eq_true _ _).mp hrest
  have he : Orderly p false e := orderly_of_after? (.begin .epoch 1) regular_of_failing hafter
  have hclean : e.Clean := clean_of_check hsites
  exact ⟨p, e, hp, he, hover, hreached, by simpa using herror,
    failuresExplained ⟨Plan.loopInLoop, hp⟩ (Plan.untangled_of_loops hloops) he hclean hover⟩

end Execution

end PortGraph
