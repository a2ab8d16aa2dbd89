import PortGraph.Proofs.Execution.Captures
import PortGraph.Proofs.Execution.Heedful

/-!
Results of iterations. An iteration that leaves of its own accord and in which nothing fails has
written its result just once: the value that the node feeding the result has sent. So the null that a
loop would collect for want of a result is never collected.
-/

namespace PortGraph

open Plan

namespace Scope

variable {p : Plan} {now : Timestamp} {owner : ScopeId} {given : List (PortRef × Json)}
variable {s : Scope} {l : NodeId} {source : PortRef} {done : List Signal}

/-- Whoever has succeeded has outputs. -/
def Spoken (s : Scope) : Prop :=
  ∀ n r, s.run? n = some r → r.state = .succeeded → r.outputs.isSome = true

theorem invariant_spoken (hp : p.Sound) : Invariant p (fun s _ => Spoken s) where
  opening := by
    intro now owner deliveries _ _ n r hr hstate
    obtain ⟨-, node, r₀, -, -, hfresh, ⟨-, rfl⟩ | ⟨-, rfl⟩⟩ := opening_run now owner hp hr
    · rw [hfresh.state] at hstate
      cases hstate
    · cases hstate
  react := by
    intro now given s sig rest s' more hs h hreact n r' hr' hstate
    obtain ⟨r, hr, hevolves⟩ := hreact.evolved hp hs.shape hr'
    rw [hevolves.outputs]
    exact h n r hr ((Evolves.firm hevolves rfl).mp hstate)
  start := by
    intro now given s s' r' hs h hstart n r₁ hr₁ hstate
    obtain ⟨m, k, r, rest, -, hr, -, rfl, rfl⟩ := startNext?_eq_some hs hstart
    rcases run?_started_cases hs hr hr₁ with ⟨rfl, rfl⟩ | ⟨-, hold⟩
    · cases hstate
    · exact h n r₁ hold hstate
  conclude := by
    intro now given s r c hs h hr hrunning n r₁ hr₁ hstate
    rcases run?_conclude_cases hs hr (concludes_concluded now r c.attempts c.outcome) hr₁ with
      ⟨rfl, rfl⟩ | ⟨-, hold⟩
    · cases hout : c.outcome with
      | succeeded outputs => rfl
      | _ =>
        rw [hout] at hstate
        cases hstate
    · exact h n r₁ hold hstate
  violate := fun _ h => h
  close := by
    intro now given s aborted hs h n r' hr' hstate
    rw [run?_close hs.shape] at hr'
    obtain ⟨r, hr, rfl⟩ := Option.map_eq_some_iff.mp hr'
    split_ifs at hstate ⊢
    · exact h n r hr hstate
    · rw [leftOver_state] at hstate
      split_ifs at hstate

/-- Closing sends nothing, and takes nothing back. -/
theorem sent?_close (hs : Shape p s) (aborted : Bool) (source : PortRef) :
    (s.close now aborted).sent? source = s.sent? source := by
  have hrun : (s.close now aborted).run? source.node = _ := run?_close hs aborted source.node
  cases hr : s.run? source.node with
  | none =>
    rw [hr] at hrun
    exact sent?_congr (hrun.trans hr.symm)
  | some r =>
    rw [hr, Option.map_some] at hrun
    split_ifs at hrun with hterm
    · exact sent?_congr (hrun.trans hr.symm)
    · have hleft : (leftOver now r).state ≠ .succeeded := by
        rw [leftOver_state]
        split_ifs <;> simp
      have hstate : r.state ≠ .succeeded := fun hstate => hterm (by rw [hstate]; rfl)
      rw [sent?_eq hr, sent?_eq hrun, if_neg hleft, if_neg hstate]

theorem CameBy.writes (hp : p.Sound) (hu : p.Untangled)
    (hin : p.graph.inbound? l PortName.result = some source)
    (h : CameBy p (some l) given s [] done) : Writes p l source s [] done := by
  have hkind := h.isLoop l rfl
  rcases h.course with hcourse | ⟨-, s₀, now, aborted, hcourse, rfl⟩
  · exact hcourse.writes hp hu h.proper hkind hin
  · have hwrites := hcourse.writes hp hu h.proper hkind hin
    obtain ⟨hcoherent, -⟩ := hcourse.coherent hp hu h.proper h.isLoop
    exact ⟨hwrites.sent.trans (by rw [sent?_close hcoherent.shape]),
      (result_close ..).trans hwrites.last⟩

end Scope

namespace Execution

variable {p : Plan} {verbose : Bool} {e e₀ : Execution} {a : Address} {t t₀ : Site} {l : NodeId}
variable {source : PortRef} {i : ℕ}

/-- An iteration of a loop has returned a value: what the node that feeds the result has sent. -/
structure Returns (p : Plan) (e : Execution) (a : Address) (l : NodeId) (i : ℕ) (t : Site)
    (source : PortRef) (v : Json) : Prop where
  /-- The value of the output, or null if it was left unset. -/
  sent : ∃ r o, t.scope.run? source.node = some r ∧ r.state = .succeeded ∧ r.outputs = some o ∧
    (o.find? source.port = some v ∨ (o.find? source.port = none ∧ v = .null))
  /-- The iteration has come about by signals. -/
  traced : ∃ given done, Traced p t (some l) given done
  /-- Whichever they were, one of them has written the result. -/
  written : ∀ given done, Traced p t (some l) given done → Scope.written p (some l) done = [v]
  result : t.scope.result = some v
  /-- The loop collects this value. -/
  collected : ∀ u looping, e.site? a = some u → u.loops.find? l = some looping →
    looping.contribution (i, t.scope) = v

/-- A scope that has left of its own accord and closed without a fault is as it was when it left. -/
theorem Heedful.finished (hp : p.Sound) (hu : p.Untangled) (h : Heedful p verbose e₀)
    (ht₀ : e₀.site? a = some t₀) (hleft : t₀.phase = .leaving false)
    (hleads : Leads p verbose e₀ e) (ht : e.site? a = some t) (hended : t.phase = .ended)
    (hfault : t.scope.fault = none) :
    t.scope = t₀.scope ∧
      ∀ n r, t.scope.run? n = some r → r.state.isTerminal = true ∧ r.state ≠ .cancelled := by
  obtain ⟨given, hroot⟩ := (h.reachable.grounded hp hu).sites a t₀ ht₀
  obtain ⟨hcoherent, -⟩ := hroot.coherent (by simp [hleft])
  obtain ⟨hnone, -, hkept⟩ := (h.unhurt hp hu ht₀).left hleft
  obtain rfl | ⟨now, rfl⟩ := h.closed_of_leads hp hu ht₀ hleft hleads ht
  · rw [hleft] at hended
    cases hended
  dsimp only at hfault ⊢
  rw [Scope.fault_close hnone] at hfault
  split_ifs at hfault with hfinished
  rw [Scope.close_of_finished false hfinished]
  refine ⟨rfl, fun n r hr => ⟨?_, fun hcancelled => ?_⟩⟩
  · by_contra hlive
    have hmem := (Scope.mem_unfinished hcoherent.shape).mpr ⟨r, hr, by simpa using hlive⟩
    simp [hfinished] at hmem
  · have hin := Scope.isIn_iff.mpr ⟨r, hr, hcancelled⟩
    rw [hkept n] at hin
    cases hin

theorem Heedful.returns (hp : p.Sound) (hu : p.Untangled)
    (hin : p.graph.inbound? l PortName.result = some source) (h : Heedful p verbose e₀)
    (ht₀ : e₀.site? ((l, i) :: a) = some t₀) (hleft : t₀.phase = .leaving false)
    (hleads : Leads p verbose e₀ e) (ht : e.site? ((l, i) :: a) = some t)
    (hended : t.phase = .ended) (hfault : t.scope.fault = none) (hwell : ¬ t.scope.Fails) :
    ∃ v, Returns p e a l i t source v := by
  have hreach := h.reachable.leads hleads
  have hg := hreach.grounded hp hu
  obtain ⟨hsame, hdone⟩ := h.finished hp hu ht₀ hleft hleads ht hended hfault
  obtain ⟨given, hroot⟩ := (h.reachable.grounded hp hu).sites _ t₀ ht₀
  obtain ⟨hcoherent, howner, -⟩ := hroot.coherent (by simp [hleft])
  rw [← hsame] at hcoherent howner
  -- the node that feeds the result has nothing to be skipped for
  obtain ⟨r, hr, hstate⟩ := hcoherent.succeeded_of_returns hp hu
    (hreach.invariant hp hu (Scope.invariant_attributed hp) _ t ht) howner hin hdone hwell
  obtain ⟨o, ho⟩ := Option.isSome_iff_exists.mp
    (hreach.invariant hp hu (Scope.invariant_spoken hp) _ t ht _ r hr hstate)
  have hsent : t.scope.sent? source = some ((o.find? source.port).getD .null) :=
    Scope.sent?_eq_some.mpr ⟨r, o, hr, hstate, ho, rfl⟩
  have hwrites : ∀ given done, Traced p t (some l) given done →
      Scope.Writes p l source t.scope [] done :=
    fun given done htraced => htraced.cameBy.writes hp hu hin
  have hwritten : ∀ given done, Traced p t (some l) given done →
      Scope.written p (some l) done = [(o.find? source.port).getD .null] := by
    intro given done htraced
    have hall := (hwrites given done htraced).sent
    rw [hsent] at hall
    simpa [Scope.written] using hall
  obtain ⟨given', done, htraced⟩ := hreach.traced hp hu _ t ht
  have hresult : t.scope.result = some ((o.find? source.port).getD .null) := by
    rw [(hwrites given' done htraced).last, hwritten given' done htraced]
    rfl
  refine ⟨_, ⟨r, o, hr, hstate, ho, ?_⟩, ⟨given', done, htraced⟩, hwritten, hresult, ?_⟩
  · cases o.find? source.port <;> simp
  · intro u looping hsite hlooping
    obtain ⟨given'', houter⟩ := hg.sites a u hsite
    have hstems := houter.loops l looping hlooping
    obtain ⟨lp, hlp⟩ := Option.isSome_iff_exists.mp (hp.isSome_loop?_iff.mpr hstems.kind)
    have hhas : looping.hasResult = true := by
      rw [hstems.hasResult, hlp, Option.map_some, Option.getD_some,
        (hp.loop?_eq_some hlp).2.2.1, hin]
      rfl
    rw [Looping.contribution, if_pos hhas, hresult]
    rfl

/-- An iteration without a failure always returns its result. When a body feeds the result, each
iteration that leaves of its own accord and closes without a fault and without a failed member has
written the result once, with what the node that feeds it has sent, and the loop collects just that.
Whatever happens elsewhere, before or after, the iteration need only be of an execution in which
nobody is interrupted before it is called off; on a clock every execution is. -/
theorem resultReturned {p : Plan} (h : p.Accepted) (hu : p.Untangled) {l : NodeId} {source : PortRef}
    (hin : p.graph.inbound? l PortName.result = some source) :
    (∀ {verbose e₀ e a i t₀ t}, Heedful p verbose e₀ → e₀.site? ((l, i) :: a) = some t₀ →
      t₀.phase = .leaving false → Leads p verbose e₀ e → e.site? ((l, i) :: a) = some t →
      t.phase = .ended → t.scope.fault = none → ¬ t.scope.Fails →
        ∃ v, Returns p e a l i t source v) ∧
    ∀ (u : Clock.Setup) (permits : ℕ) (cancelled : Bool) (cancelAt : Option ℕ) (fuel : ℕ),
      u.plan = p →
        Heedful p u.verbose
          ((Clock.Simulation.begin u permits cancelled cancelAt).run u fuel).execution := by
  have hp := Plan.sound_of_accepted h
  refine ⟨fun he ht₀ hleft hleads ht hended hfault hwell =>
    he.returns hp hu hin ht₀ hleft hleads ht hended hfault hwell, ?_⟩
  rintro u permits cancelled cancelAt fuel rfl
  exact Clock.Simulation.heedful_run hp hu permits cancelled cancelAt fuel

/-- The first cell has its pair, and leaves. -/
def pairEvents : List (Timestamp × Event) :=
  [.dispatch [("cells", 0), ("rows", 0)],
    .report [("cells", 0), ("rows", 0)] (.ended ⟨"pair", [], .succeeded [("merged", .bool true)]⟩),
    .hear [("cells", 0), ("rows", 0)] "pair",
    .leave [("cells", 0), ("rows", 0)]].map fun event => (.epoch, event)

theorem regular_of_pair : ∀ x ∈ cellEvents ++ pairEvents, x.2.Regular := by
  simp [cellEvents, pairEvents, Event.Regular, Outcome.Regular]

/-- Once it has closed, the cell has returned the pair. -/
theorem pairedCells_resultReturned : ∃ p e t, Plan.ofDefinition pairedCells = .ok p ∧
    Returns p e [("rows", 0)] "cells" 0 t ⟨"pair", "merged"⟩ (.bool true) := by
  obtain ⟨p, hp, hloops, hin, hall⟩ := Plan.exists_of_check (d := pairedCells)
    (P := fun p =>
      (∀ a ∈ p.nesting.loops, ∀ b ∈ p.nesting.loops, ¬ (a.1 ∈ b.2.body ∧ b.1 ∈ a.2.body)) ∧
      p.graph.inbound? "cells" PortName.result = some ⟨"pair", "merged"⟩ ∧
      ((begin p false .epoch 1 false).after? p false (cellEvents ++ pairEvents)).any fun e₀ =>
        (e₀.site? [("cells", 0), ("rows", 0)]).any (fun t₀ => t₀.phase == .leaving false) &&
          (e₀.after? p false [(.epoch, .close [("cells", 0), ("rows", 0)])]).any fun e =>
            (e.site? [("cells", 0), ("rows", 0)]).any fun t =>
              t.phase == .ended && t.scope.fault.isNone &&
                t.scope.runs.all (fun x => x.2.state != .failed) &&
                t.scope.result == some (.bool true))
    (by decide +kernel)
  obtain ⟨e₀, hbefore, hrest⟩ := (Option.any_eq_true _ _).mp hall
  obtain ⟨hleaving, hclosed⟩ := (Bool.and_eq_true _ _).mp hrest
  obtain ⟨t₀, ht₀, hleft⟩ := (Option.any_eq_true _ _).mp hleaving
  obtain ⟨e, hafter, hsite⟩ := (Option.any_eq_true _ _).mp hclosed
  obtain ⟨t, ht, hchecks⟩ := (Option.any_eq_true _ _).mp hsite
  simp only [Bool.and_eq_true, beq_iff_eq, Option.isNone_iff_eq_none, List.all_eq_true,
    bne_iff_ne] at hchecks hleft
  obtain ⟨⟨⟨hended, hfault⟩, hnone⟩, hresult⟩ := hchecks
  have hwell : ¬ t.scope.Fails := by
    rintro ⟨m, r, hr, hfailed⟩
    exact hnone _ (Table.mem_of_find? hr) hfailed
  have he₀ : Heedful p false e₀ :=
    (orderly_of_after? (.begin .epoch 1) regular_of_pair hbefore).heedful
  obtain ⟨v, hreturns⟩ := (resultReturned ⟨pairedCells, hp⟩ (Plan.untangled_of_loops hloops) hin).1
    he₀ ht₀ hleft (leads_of_after? hafter) ht hended hfault hwell
  obtain rfl : Json.bool true = v := Option.some.inj (hresult.symm.trans hreturns.result)
  exact ⟨p, e, t, hp, hreturns⟩

end Execution

end PortGraph
