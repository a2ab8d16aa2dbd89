import PortGraph.Proofs.Execution.Clock

/-!
Executions in which a node is interrupted only when all is called off. Anything else may happen in
them: workers may die, faults may come up, and the execution may be called off at any time. A scope
that has nothing to do before that has interrupted nobody, and does not change until it closes.
-/

namespace PortGraph

open Plan Relation

/-- Whoever a scope hears of as interrupted was interrupted by the end of the execution. -/
def Event.Heeds (e : Execution) : Event → Prop
  | .hear a n => ∀ t c, e.site? a = some t →
      t.reports.find? (fun r => r.node == n) = some (.ended c) → c.outcome = .cancelled →
        e.aborted = true
  | _ => True

namespace Execution

/-- An execution in which nobody is interrupted before it is called off. -/
inductive Heedful (p : Plan) (verbose : Bool) : Execution → Prop
  | begin (now : Timestamp) (permits : ℕ) (aborted : Bool) :
      Heedful p verbose (begin p verbose now permits aborted)
  | step {now : Timestamp} {e e' : Execution} {event : Event} :
      Heedful p verbose e → event.Heeds e → e.perform? p verbose now event = some e' →
      Heedful p verbose e'

variable {p : Plan} {verbose : Bool} {now : Timestamp} {e e' e₀ : Execution} {a : Address}
variable {t t' t₀ : Site} {event : Event} {given : List (PortRef × Json)}

theorem Heedful.reachable (h : Heedful p verbose e) : Reachable p verbose e := by
  induction h with
  | begin now permits aborted => exact .begin now permits aborted
  | step _ _ hevent ih => exact .step ih hevent

/-- In an orderly execution whoever says to have been interrupted was so by a fault. -/
theorem Orderly.told (h : Orderly p verbose e) {c : Completion} (ht : e.site? a = some t)
    (hc : .ended c ∈ t.reports) (hcancelled : c.outcome = .cancelled) : e.aborted = true := by
  induction h generalizing a t with
  | begin now permits =>
    obtain ⟨rfl, rfl⟩ := site?_begin_eq_some ht
    simp at hc
  | step _ hregular hevent ih =>
    obtain ⟨t', ht', hc'⟩ | rfl | ⟨-, haborted⟩ := told_of_perform? hevent ht hc
    · exact aborted_mono hevent (ih ht' hc')
    · obtain ⟨c', heq, hout⟩ := hregular
      rw [← Report.ended.inj heq, hcancelled] at hout
      simp [Outcome.Regular] at hout
    · exact aborted_mono hevent (haborted hcancelled)

theorem Orderly.heedful (h : Orderly p verbose e) : Heedful p verbose e := by
  induction h with
  | begin now permits => exact .begin now permits false
  | @step now e e' event h hregular hevent ih =>
    refine ih.step ?_ hevent
    cases event with
    | hear a n =>
      exact fun t c ht hr hcancelled => h.told ht (List.mem_of_find?_eq_some hr) hcancelled
    | _ => trivial

/-! ### Who is interrupted -/

/-- A scope in which nobody is interrupted before the execution is called off. -/
structure Unhurt (aborted : Bool) (t : Site) : Prop where
  kept : aborted = false → ∀ n, t.scope.isIn .cancelled n = false
  called : t.phase = .leaving true → aborted = true
  left : t.phase = .leaving false →
    t.scope.fault = none ∧ t.inFlight = false ∧ ∀ n, t.scope.isIn .cancelled n = false

theorem Unhurt.mono {aborted aborted' : Bool} (h : Unhurt aborted t)
    (hmono : aborted = true → aborted' = true) : Unhurt aborted' t := by
  refine ⟨fun hgoes => h.kept ?_, fun hleaves => hmono (h.called hleaves), h.left⟩
  by_contra haborted
  rw [hmono (by simpa using haborted)] at hgoes
  cases hgoes

/-- In a scope that has left with nothing under way there is nothing to hear or to go on with. -/
theorem Unhurt.idle {aborted : Bool} (h : Unhurt aborted t) (hleft : t.phase = .leaving false) :
    t.busy = [] ∧ t.reports = [] ∧ t.loops = [] := by
  have hidle := (h.left hleft).2.1
  simpa [Site.inFlight, and_assoc] using hidle

section Sound

variable (hp : p.Sound) (hu : p.Untangled)
include hp hu

/-- Hearing of a node interrupts nobody unless the node was interrupted, or brings a fault. -/
theorem kept_hear (hcoherent : Scope.Coherent p given t.scope [])
    (hkept : ∀ n, t.scope.isIn .cancelled n = false) {r : Report}
    (hheeds : ∀ c, r = .ended c → c.outcome ≠ .cancelled)
    (hfault : (t.scope.hear p now r).fault = none) (n : NodeId) :
    (t.scope.hear p now r).isIn .cancelled n = false := by
  have hviolates : ∀ {s : Scope} {f}, (s.violate f).fault ≠ none := by simp [Scope.violate]
  rcases Scope.hear_eq p now t.scope r with
    ⟨f, heq⟩ | ⟨c, run, rfl, hrun, hrunning, heq | ⟨f, heq⟩⟩
  · rw [heq] at hfault
    exact absurd hfault hviolates
  · have hin : (t.scope.hear p now (.ended c)).isIn .cancelled n = _ :=
      hcoherent.isIn_complete hp hu hrun hrunning rfl n
    rw [hin]
    split_ifs
    · cases hout : c.outcome with
      | succeeded outputs | failed error => rfl
      | cancelled => exact absurd hout (hheeds c rfl)
      | fatal f =>
        have hhear : t.scope.hear p now (.ended c) = t.scope.complete p now c := rfl
        rw [hhear] at hfault
        simp [Scope.complete, hrun, hrunning, hout, Scope.violate] at hfault
    · exact hkept n
  · rw [heq] at hfault
    exact absurd hfault hviolates

/-- A scope that moves on interrupts nobody before the execution is called off. -/
theorem Unhurt.move (hroot : Rooted p e a t given) (h : Unhurt e.aborted t)
    (hheeds : event.Heeds e) (ht : e.site? a = some t) (hmoves : Moves p now e a t event t')
    {aborted : Bool} (hmono : e.aborted = true → aborted = true)
    (hfaulty : t'.scope.fault.isSome = true → aborted = true) : Unhurt aborted t' := by
  have hgoes : aborted = false → e.aborted = false ∧ t'.scope.fault = none := by
    rintro rfl
    exact ⟨by simpa using hmono, by simpa using hfaulty⟩
  cases hmoves with
  | startLoop hphase hfault hstart | startWork hphase hfault hstart =>
    obtain ⟨hcoherent, -⟩ := hroot.coherent (by simp [hphase])
    refine ⟨fun haborted n => ?_, by simp [hphase], by simp [hphase]⟩
    rw [hcoherent.isIn_startNext hstart]
    split_ifs
    · rfl
    · exact h.kept (hgoes haborted).1 n
  | report hbusy =>
    refine ⟨(h.mono hmono).kept, (h.mono hmono).called, fun hleft => ?_⟩
    simp [(h.idle hleft).1] at hbusy
  | @hear r id hphase hrunning hr =>
    refine ⟨fun haborted n => ?_, (h.mono hmono).called, fun hleft => ?_⟩
    · obtain ⟨hgoing, hfault⟩ := hgoes haborted
      obtain ⟨hcoherent, -⟩ := hroot.coherent hphase
      refine kept_hear hp hu hcoherent (h.kept hgoing) ?_ hfault n
      rintro c rfl hcancelled
      rw [hheeds t c ht hr hcancelled] at hgoing
      cases hgoing
    · simp [(h.idle hleft).2.1] at hr
  | iterate hl | conclude hl =>
    refine ⟨(h.mono hmono).kept, (h.mono hmono).called, fun hleft => ?_⟩
    rw [(h.idle hleft).2.2] at hl
    cases hl
  | leave hphase heq hmay =>
    refine ⟨(h.mono hmono).kept, ?_, ?_⟩
    · intro hleft
      cases hleft
      simp only [Bool.true_eq, Bool.or_eq_true] at heq
      exact heq.elim hmono hfaulty
    · intro hleft
      cases hleft
      simp only [Bool.false_eq, Bool.or_eq_false_iff] at heq
      obtain ⟨-, hidle⟩ := hmay.resolve_left (by simp)
      exact ⟨by simpa using heq.2, hidle, h.kept heq.1⟩
  | @close leaving hphase hflight =>
    refine ⟨fun haborted n => ?_, by simp, by simp⟩
    obtain ⟨hgoing, hfault⟩ := hgoes haborted
    cases leaving
    · obtain ⟨hnone, -, hkept⟩ := h.left hphase
      -- a scope that closes without a fault was finished
      dsimp only at hfault ⊢
      rw [Scope.fault_close hnone] at hfault
      split_ifs at hfault with hfinished
      rw [Scope.close_of_finished false hfinished]
      exact hkept n
    · rw [h.called hphase] at hgoing
      cases hgoing

/-- As long as an execution in which nobody is interrupted early goes on, nobody is interrupted. -/
theorem Heedful.unhurt (h : Heedful p verbose e) (ht : e.site? a = some t) :
    Unhurt e.aborted t := by
  induction h generalizing a t with
  | begin now permits aborted =>
    obtain ⟨rfl, rfl⟩ := site?_begin_eq_some ht
    refine ⟨fun _ n => ?_, by simp, by simp⟩
    exact Scope.isIn_seed hp hu (proper_top p) (by simp) rfl n
  | @step now e e' event h hheeds hevent ih =>
    have hmono : e.aborted = true → e'.aborted = true := aborted_mono hevent
    have hg := h.reachable.grounded hp hu
    have hfaulty := (h.reachable.step hevent).aborted_of_fault a t ht
    rcases perform?_site_cases hevent ht with
      hsame | ⟨t₀, ht₀, hmoves⟩ | ⟨outer, u, loop, l, -, hu', hl, rfl⟩
    · exact (ih hsame).mono hmono
    · obtain ⟨given, hroot⟩ := hg.sites a t₀ ht₀
      exact (ih ht₀).move hp hu hroot hheeds ht₀ hmoves hmono hfaulty
    · obtain ⟨given, hroot⟩ := hg.sites outer u hu'
      have hstems := hroot.loops loop l hl
      refine ⟨fun _ n => ?_, by simp, by simp⟩
      refine Scope.isIn_seed hp hu (hstems.proper hp l.opened) ?_ rfl n
      intro k hk
      rw [← Option.some.inj hk]
      exact hstems.kind

/-- A scope that has left of its own accord does nothing any more but close. -/
theorem Heedful.closed_of_leads (h : Heedful p verbose e₀) (ht₀ : e₀.site? a = some t₀)
    (hleft : t₀.phase = .leaving false) (hleads : Leads p verbose e₀ e)
    (ht : e.site? a = some t) :
    t = t₀ ∨ ∃ now, t = { t₀ with scope := t₀.scope.close now false, phase := .ended } := by
  obtain ⟨hbusy, hreports, hloops⟩ := (h.unhurt hp hu ht₀).idle hleft
  induction hleads generalizing t with
  | refl => exact Or.inl (Option.some.inj (ht.symm.trans ht₀))
  | @tail e e' hleads hstep ih =>
    obtain ⟨now, event, hevent⟩ := hstep
    obtain ⟨hg, hlater⟩ := Leads.grounded hp hu (h.reachable.grounded hp hu) hleads
    rcases perform?_site_cases hevent ht with
      hsame | ⟨u, hu', hmoves⟩ | ⟨outer, u, loop, l, rfl, hu', hl, -⟩
    · exact ih hsame
    · obtain rfl | ⟨closing, rfl⟩ := ih hu'
      · cases hmoves with
        | close hphase =>
          obtain rfl := Phase.leaving.inj (hleft.symm.trans hphase)
          exact Or.inr ⟨now, rfl⟩
        | _ => simp_all
      · cases hmoves <;> simp_all
    · -- the scope was there before
      obtain ⟨u', hthere, -⟩ := hlater _ _ ht₀
      rw [hg.fresh hu' hl] at hthere
      cases hthere

end Sound

end Execution

/-! ### Runs of the clock -/

namespace Clock.Simulation

open Execution

variable {u : Setup} {m m' : Simulation} {j : Job} {w : Worker}

/-- Nobody was interrupted before the execution was called off, and whoever reports an interruption
has a reason for it. -/
structure Sober (u : Setup) (m : Simulation) : Prop where
  heedful : Heedful u.plan u.verbose m.execution
  told : ∀ a t c, m.execution.site? a = some t → .ended c ∈ t.reports → c.outcome = .cancelled →
    m.Stops u

/-- The outcome of an attempt is never that of an interruption. -/
theorem sequel_ne_cancelled (w : Worker) (hasTime : ℕ → Bool) (attempt draw : ℕ)
    (result : Except NodeError PortValues) :
    w.sequel hasTime attempt draw result ≠ .over .cancelled := by
  have hgiveUp : ∀ error, w.giveUp attempt error ≠ .cancelled := by
    intro error
    unfold Worker.giveUp
    dsimp only
    split <;> simp
  unfold Worker.sequel
  split
  · simp
  · split
    · simpa using hgiveUp _
    · dsimp only
      split_ifs
      · simp
      · simpa using hgiveUp _

/-- A worker gives up between two attempts only when the execution is called off. -/
theorem aborted_of_progress {j' : Job} {result : Except NodeError PortValues}
    (h : m.progress u w j result = .stops j' .cancelled) : m.execution.aborted = true := by
  unfold progress Worker.after at h
  dsimp only at h
  split at h
  · rename_i attempts outcome heq
    obtain ⟨-, rfl⟩ := Progress.stops.inj h
    exact (sequel_ne_cancelled _ _ _ _ _ (Prod.mk.inj heq).2).elim
  · split_ifs at h with haborted
    exact haborted

theorem Sober.of_eq (h : Sober u m) (hexecution : m'.execution = m.execution)
    (htime : m.time ≤ m'.time) : Sober u m' := by
  refine ⟨hexecution ▸ h.heedful, fun a t c ht hc hcancelled => ?_⟩
  rw [hexecution] at ht
  exact (h.told a t c ht hc hcancelled).later (by rw [hexecution]; exact id) htime

theorem Sober.same (h : Sober u m) (hsame : Same m m') : Sober u m' :=
  h.of_eq hsame.execution hsame.time

theorem Sober.grant (h : Sober u m) : Sober u m.grant := by
  unfold Simulation.grant
  split
  · exact h
  · refine Sober.same ?_ (same_wake _ _)
    exact h.of_eq rfl le_rfl

/-- An event that interrupts nobody early keeps a simulation sober, unless it reports an interruption
without a reason. -/
theorem Sober.happens (h : Sober u m) {event : Event}
    (hheeds : ∀ e, m.execution.perform? u.plan u.verbose (m.now u) event = some e →
      event.Heeds m.execution)
    (hreport : ∀ a c, event = .report a (.ended c) → c.outcome = .cancelled → m.Stops u) :
    Sober u (m.perform u event) := by
  refine Sober.same ?_ (same_perform u m event)
  unfold Execution.perform
  cases hevent : m.execution.perform? u.plan u.verbose (m.now u) event with
  | none => exact h
  | some e =>
    refine ⟨h.heedful.step (hheeds e hevent) hevent, fun a t c ht hc hcancelled => ?_⟩
    refine Stops.later ?_ (aborted_mono hevent) le_rfl
    obtain ⟨t', ht', hc'⟩ | rfl | ⟨-, haborted⟩ := told_of_perform? hevent ht hc
    · exact h.told a t' c ht' hc' hcancelled
    · exact hreport a c rfl hcancelled
    · exact Or.inl (haborted hcancelled)

theorem Sober.report (h : Sober u m) (j : Job) {outcome : Outcome}
    (houtcome : outcome = .cancelled → m.Stops u) : Sober u (m.report u j outcome) := by
  have hdrop : Sober u (m.dropJob j) := h.of_eq rfl le_rfl
  refine Sober.same (Sober.grant ?_) (same_wake _ _)
  refine hdrop.happens (fun _ _ => trivial) ?_
  rintro a c heq hcancelled
  simp only [Event.report.injEq, Report.ended.injEq] at heq
  obtain ⟨-, rfl⟩ := heq
  exact houtcome hcancelled

theorem Sober.finish (h : Sober u m) (w : Worker) (j : Job)
    (result : Except NodeError PortValues) : Sober u (m.finish u w j result) := by
  unfold Simulation.finish
  cases hprogress : m.progress u w j result with
  | waits j' => exact h.of_eq rfl le_rfl
  | stops j' outcome =>
    refine h.report j' ?_
    rintro rfl
    exact Or.inl (aborted_of_progress hprogress)

theorem Sober.cancel (h : Sober u m) : Sober u (m.cancel u) := by
  have hcalled : Sober u (m.perform u .abort) := h.happens (fun _ _ => trivial) (by simp)
  exact hcalled.of_eq rfl le_rfl

theorem Sober.asks (h : Sober u m) (hasks : Asks u m m') : Sober u m' := by
  have hrequests : ∀ requests, Sober u { m with requests } := fun _ => h.of_eq rfl le_rfl
  cases hasks with
  | nobody => exact h
  | service => exact hrequests _
  | caller => exact (hrequests _).cancel

theorem Sober.works (h : Sober u m) (hworks : Works u m j m') : Sober u m' := by
  cases hworks with
  | waits => exact h
  | unfit => exact h.report j (by simp)
  | interrupted hstops => exact h.report j fun _ => hstops
  | tries result _ _ _ hasks => exact (h.asks hasks).finish _ j result
  | asks time result _ _ _ hasks => exact (h.asks hasks).of_eq rfl le_rfl
  | answered => exact h.finish _ j _

/-- Whoever is heard of as interrupted in a turn was so by the end of the execution. -/
theorem Sober.heeds (hp : u.plan.Sound) (hu : u.plan.Untangled) (h : Sober u m) {event : Event}
    (hfits : m.Fits u event) {e : Execution}
    (hevent : m.execution.perform? u.plan u.verbose (m.now u) event = some e) :
    event.Heeds m.execution := by
  cases event with
  | hear a n =>
    intro t c ht hr hcancelled
    have hmem := List.mem_of_find?_eq_some hr
    have hunhurt := h.heedful.unhurt hp hu ht
    obtain ⟨t', _, ht', hmoves, -⟩ := moves_of_hear hevent
    obtain rfl := Option.some.inj (ht.symm.trans ht')
    cases hmoves with
    | hear hlive =>
      cases hphase : t.phase with
      | running => exact hfits t ht hphase (h.told a t c ht hmem hcancelled)
      | leaving aborted =>
        cases aborted
        · simp [(hunhurt.idle hphase).2.1] at hmem
        · exact hunhurt.called hphase
      | ended => exact absurd hphase hlive
  | _ => trivial

theorem invariant_sober (hp : u.plan.Sound) (hu : u.plan.Untangled) : Invariant u (Sober u) where
  quiet := fun h hexecution _ htime => h.of_eq hexecution htime
  engage := fun _ _ h => h.of_eq rfl le_rfl
  perform := by
    intro m event h hfits
    refine h.happens (fun e hevent => h.heeds hp hu hfits hevent) ?_
    rintro a c rfl
    exact hfits.elim
  works := fun h _ hworks => h.works hworks

theorem sober_begin (u : Setup) (permits : ℕ) (cancelled : Bool) (cancelAt : Option ℕ) :
    Sober u (begin u permits cancelled cancelAt) := by
  refine ⟨.begin u.start permits cancelled, fun a t c ht hc _ => ?_⟩
  change (Execution.begin ..).site? a = some t at ht
  obtain ⟨rfl, rfl⟩ := site?_begin_eq_some ht
  simp at hc

/-- On a clock nobody is interrupted before the execution is called off. -/
theorem heedful_run (hp : u.plan.Sound) (hu : u.plan.Untangled) (permits : ℕ) (cancelled : Bool)
    (cancelAt : Option ℕ) (fuel : ℕ) :
    Heedful u.plan u.verbose ((begin u permits cancelled cancelAt).run u fuel).execution :=
  ((invariant_sober hp hu).run (sober_begin u permits cancelled cancelAt) fuel).heedful

end Clock.Simulation

end PortGraph
