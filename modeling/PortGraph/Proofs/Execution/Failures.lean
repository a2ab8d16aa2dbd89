import PortGraph.Proofs.Execution.Faults
import PortGraph.Proofs.Execution.Invariants
import PortGraph.Proofs.Scope.Blamed
import PortGraph.Proofs.Scope.Contained

/-!
Failures. Whoever is skipped for a failure names the node that failed first, and the failure has come
from there along what nodes supply; whoever is supplied by a node that failed ends without a value.
-/

namespace PortGraph

open Plan Relation

namespace Scope

/-- What a scope says of failures is right, and they stop nowhere but at a condition for which an
error counts as false. -/
structure Accountable (p : Plan) (s : Scope) : Prop where
  origin : ∀ o n, s.SkippedFor o n → s.Root o ∧ TransGen (PassedOn p s o) o n
  stopped : ∀ m n, s.Doomed m → p.Supplies s.owner m n → ¬ Tolerant p n → s.Lost n

variable {p : Plan} {given : List (PortRef × Json)} {s : Scope} {n : NodeId} {r : NodeRun}

theorem invariant_attributed (hp : p.Sound) : Invariant p (Attributed p) where
  opening := fun now owner deliveries _ _ => attributed_opening hp now owner deliveries
  react := fun hs h hreact => h.react hp hs.shape hreact
  start := fun hs h hstart => h.start hs hstart
  conclude := fun c hs h hr hrunning => h.conclude hs c hr hrunning
  violate := fun _ h => ⟨h.signals, h.failedPorts, h.skipped⟩
  close := fun aborted hs h => h.close hs aborted

theorem invariant_contained (hp : p.Sound) (hu : p.Untangled) : Invariant p (Contained p) where
  opening := fun now owner deliveries _ _ => contained_opening hp now owner deliveries
  react := fun hs h hreact => h.react hp hu hs.shape hreact hs.sourced hs.proper
  start := fun hs h hstart => h.start hp hu hs hstart
  conclude := fun c hs h hr hrunning => h.conclude hs c hr hrunning
  violate := fun f h => h.goOn (later_violate _ f) (fun _ => rfl) (fun _ hm => Or.inl hm.ended)
    fun _ r hr hstart => Or.inl ⟨r, hr, hstart⟩
  close := fun aborted hs h => h.close hs aborted

/-- A member that no branch holds back is skipped for a failure or because nothing reaches it. -/
theorem Coherent.skipped_of_spared (hs : Coherent p given s []) (hspared : ∀ gate, n ∉ p.exclusive gate)
    (hr : s.run? n = some r) (hskipped : r.state = .skipped) :
    (∃ o, r.skipReason = some (.feederFailed o)) ∨
      (r.skipReason = some .unreachable ∧ s.owner = none ∧ n ∈ p.unreachable) := by
  have hstart := (hs.shape.clear n r hr).skipped hskipped
  rcases hs.sourced.ended n r hr (by rw [hskipped]; rfl) hstart with
    ⟨-, reason, hreason, hcause⟩ | ⟨hfailed, -⟩
  · cases reason with
    | feederFailed o => exact Or.inl ⟨o, hreason⟩
    | branchNotTaken c =>
      obtain ⟨branch, -, hmem⟩ := hcause
      exact absurd hmem (hspared ⟨c, branch⟩)
    | conditionUnresolved c =>
      obtain ⟨-, -, branch, hmem⟩ := hcause
      exact absurd hmem (hspared ⟨c, branch⟩)
    | unreachable => exact Or.inr ⟨hreason, hcause⟩
    | aborted => exact hcause.elim
  · rw [hskipped] at hfailed
    simp at hfailed

/-- If it has not succeeded, a failure has begun somewhere in its scope. -/
theorem Coherent.root_of_spared (hs : Coherent p given s []) (hattributed : Attributed p s [])
    (hspared : ∀ gate, n ∉ p.exclusive gate) (hr : s.run? n = some r)
    (hterm : r.state.isTerminal = true) (hkept : r.state ≠ .cancelled)
    (hmissing : r.state ≠ .succeeded) : ∃ o, s.Root o := by
  cases hstate : r.state with
  | failed => exact ⟨n, r, hr, Or.inl hstate⟩
  | skipped =>
    rcases hs.skipped_of_spared hspared hr hstate with ⟨o, hreason⟩ | ⟨hreason, howner, -⟩
    · obtain ⟨m, hblamed, -⟩ := hattributed.skipped o n ⟨r, hr, hstate, hreason⟩
      exact ⟨o, hblamed.1⟩
    · exact ⟨n, r, hr, Or.inr ⟨howner, hstate, hreason⟩⟩
  | succeeded => exact absurd hstate hmissing
  | cancelled => exact absurd hstate hkept
  | pending | ready | running =>
    rw [hstate] at hterm
    simp [RunState.isTerminal] at hterm

end Scope

namespace Execution

/-- Failures are contained and laid where they belong. In every scope of an execution, a node that is
skipped for a failure names one that failed, or that nothing reaches, and from that one a chain of
nodes that were skipped for it leads there along what they supply. Whoever is supplied by a node that
failed, was skipped for a failure or is out of reach is itself skipped or failed, unless it is a
condition for which an error counts as false. -/
theorem failuresContained {p : Plan} (h : p.Accepted) (hu : p.Untangled) {verbose : Bool}
    {e : Execution} (he : Reachable p verbose e) {a : Address} {t : Site}
    (ht : e.site? a = some t) : t.scope.Accountable p := by
  have hp := Plan.sound_of_accepted h
  have hblamed := he.invariant hp hu (Scope.invariant_attributed hp) a t ht
  have hcontained := he.invariant hp hu (Scope.invariant_contained hp hu) a t ht
  refine ⟨?_, ?_⟩
  · intro o n hn
    obtain ⟨m, ⟨hroot, hchain⟩, hsupplies⟩ := hblamed.skipped o n hn
    exact ⟨hroot, TransGen.tail' hchain ⟨hsupplies, hn⟩⟩
  · intro m n hm hsupplies htolerant
    rcases hcontained.told m n hm hsupplies htolerant with hlost | ⟨sig, hsig, -⟩
    · exact hlost
    · simp at hsig

/-- The input node fails, and nobody else starts. -/
def failingEvents : List (Timestamp × Event) :=
  [.dispatch [], .report [] (.ended ⟨"in", [], .failed (.failed "no input")⟩), .hear [] "in",
    .leave [], .close []].map fun event => (.epoch, event)

theorem regular_of_failing : ∀ x ∈ failingEvents, x.2.Regular := by
  intro x hx
  simp only [failingEvents, List.map_cons, List.map_nil, List.mem_cons, List.not_mem_nil,
    or_false] at hx
  rcases hx with rfl | rfl | rfl | rfl | rfl
  · trivial
  · exact ⟨_, rfl, Or.inr ⟨_, rfl⟩⟩
  · trivial
  · trivial
  · trivial

theorem loopInLoop_failuresContained : ∃ p e t, Plan.ofDefinition Plan.loopInLoop = .ok p ∧
    Reachable p false e ∧ e.site? [] = some t ∧ e.isOver = true ∧ t.scope.fault = none ∧
      t.scope.SkippedFor "in" "rows" ∧ t.scope.Accountable p := by
  obtain ⟨p, hp, hloops, hall⟩ := Plan.exists_of_check (d := Plan.loopInLoop)
    (P := fun p =>
      (∀ a ∈ p.nesting.loops, ∀ b ∈ p.nesting.loops, ¬ (a.1 ∈ b.2.body ∧ b.1 ∈ a.2.body)) ∧
      ((begin p false .epoch 1 false).after? p false failingEvents).any fun e =>
        e.isOver && (e.site? []).any fun t => t.scope.fault.isNone &&
          (t.scope.run? "rows").any fun r =>
            r.state == .skipped && r.skipReason == some (.feederFailed "in"))
    (by decide +kernel)
  obtain ⟨e, hafter, hrest⟩ := (Option.any_eq_true _ _).mp hall
  obtain ⟨hover, hsite⟩ := (Bool.and_eq_true _ _).mp hrest
  obtain ⟨t, ht, hscope⟩ := (Option.any_eq_true _ _).mp hsite
  obtain ⟨hfault, hrows⟩ := (Bool.and_eq_true _ _).mp hscope
  obtain ⟨r, hr, hskipped⟩ := (Option.any_eq_true _ _).mp hrows
  obtain ⟨hstate, hreason⟩ := (Bool.and_eq_true _ _).mp hskipped
  have he : Reachable p false e :=
    (orderly_of_after? (.begin .epoch 1) regular_of_failing hafter).reachable
  exact ⟨p, e, t, hp, he, ht, hover, by simpa using hfault,
    ⟨r, hr, by simpa using hstate, by simpa using hreason⟩,
    failuresContained ⟨Plan.loopInLoop, hp⟩ (Plan.untangled_of_loops hloops) he ht⟩

end Execution

end PortGraph
