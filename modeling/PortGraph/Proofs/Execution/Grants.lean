import PortGraph.Proofs.Execution.Clock
import PortGraph.Proofs.Execution.Permits

/-!
Permits at the clock. A scope takes a free permit at once, or it waits for one and is granted the next
that becomes free. Whichever way it goes, the permits granted and those in use are never more than there
are, and none is free while a scope waits.
-/

namespace PortGraph

open Plan

/-- An event by which no worker begins or ends. -/
def Event.Spares (p : Plan) (e : Execution) : Event → Prop
  | .report _ _ => False
  | .dispatch a => ∀ t, e.site? a = some t → ∃ k n rest, t.scope.ready = (k, n) :: rest ∧
      p.kind? n = some .loop
  | _ => True

namespace Execution

variable {p : Plan} {verbose : Bool} {now : Timestamp} {e e' : Execution} {a b : Address}
variable {t t' : Site} {event : Event} {n : NodeId}

/-- A worker is busy with a node of the scope of an address. -/
def Busy (e : Execution) (a : Address) (n : NodeId) : Prop := ∃ t, e.site? a = some t ∧ n ∈ t.busy

theorem Busy.putSite (h : e.Busy b n) (ht : e.site? a = some t)
    (hstill : a = b → n ∈ t.busy → n ∈ t'.busy) : (e.putSite p verbose a t').Busy b n := by
  obtain ⟨u, hu, hn⟩ := h
  unfold Busy
  rw [site?_putSite]
  split_ifs with heq
  · subst heq
    obtain rfl := Option.some.inj (ht.symm.trans hu)
    exact ⟨t', rfl, hstill rfl hn⟩
  · exact ⟨u, hu, hn⟩

theorem Busy.openSite (h : e.Busy b n) (hfresh : e.site? a = none)
    (deliveries : List (PortRef × Json)) :
    (e.openSite p verbose now a deliveries).Busy b n := by
  obtain ⟨u, hu, hn⟩ := h
  exact ⟨u, site?_openSite_of_known hfresh hu, hn⟩

theorem Moves.sameBusy (hg : Grounded p e) (ht : e.site? a = some t)
    (hmoves : Moves p now e a t event t') (hspares : event.Spares p e) : t'.busy = t.busy := by
  cases hmoves with
  | @startWork s r hphase _ hstart hother =>
    obtain ⟨k, m, rest, hqueue, hkind⟩ := hspares t ht
    obtain ⟨given, hroot⟩ := hg.sites a t ht
    obtain ⟨hcoherent, -⟩ := hroot.coherent (by simp [hphase])
    obtain ⟨m', k', r₀, rest', hqueue', hr₀, -, rfl, -⟩ :=
      Scope.startNext?_eq_some hcoherent hstart
    rw [hqueue] at hqueue'
    obtain ⟨⟨rfl, rfl⟩, rfl⟩ : (k = k' ∧ m = m') ∧ rest = rest' := by simpa using hqueue'
    obtain ⟨node, settings, hnode, hsettings⟩ := Graph.loop_of_kind? hkind
    have hid : (r₀.start now).node = m := hcoherent.shape.node m r₀ hr₀
    rw [hid] at hother
    exact absurd hsettings (hother node settings hnode)
  | report => exact hspares.elim
  | _ => rfl

/-- What spares the workers leaves each of them at its node. -/
theorem sameBusy_perform (hg : Grounded p e) (hspares : event.Spares p e) :
    (e.perform p verbose now event).busyCount = e.busyCount ∧
    ∀ b n, e.Busy b n → (e.perform p verbose now event).Busy b n := by
  have hput : ∀ {a t t'}, e.site? a = some t → Moves p now e a t event t' →
      (e.putSite p verbose a t').busyCount = e.busyCount ∧
      ∀ b n, e.Busy b n → (e.putSite p verbose a t').Busy b n := by
    intro a t t' ht hmoves
    have hbusy := hmoves.sameBusy hg ht hspares
    have hcount := busyCount_putSite p verbose t' hg.keys ht
    refine ⟨by rw [hbusy] at hcount; omega, fun b n hb => hb.putSite ht fun _ hn => ?_⟩
    rw [hbusy]
    exact hn
  unfold perform
  cases hevent : e.perform? p verbose now event with
  | none => exact ⟨rfl, fun _ _ h => h⟩
  | some e' =>
    obtain ⟨-, rfl⟩ | ⟨a, t, t', ht, hmoves, ⟨-, rfl⟩ | ⟨loop, l, rfl, hl, -, -, rfl⟩⟩ :=
      perform?_eq_some hevent
    · exact ⟨rfl, fun _ _ h => h⟩
    · exact hput ht hmoves
    · obtain ⟨hcount, hstill⟩ := hput ht hmoves
      have hfresh : (e.putSite p verbose a t').site? ((loop, l.opened) :: a) = none :=
        hg.fresh_putSite ht hl
      exact ⟨(busyCount_openSite hfresh _).trans hcount,
        fun b n hb => (hstill b n hb).openSite hfresh _⟩

end Execution

namespace Clock.Simulation

open Execution

variable (u : Setup) {m m' : Simulation} {a : Address} {t : Site} {j : Job} {held : ℕ}

/-- The permits in use, those granted to scopes and those that whoever has its turn holds are accounted
for, and every worker is busy with its node. -/
structure Accounts (held : ℕ) (m : Simulation) : Prop where
  reachable : Reachable u.plan u.verbose m.execution
  within : m.execution.busyCount + m.granted.length + held ≤ m.execution.permits
  /-- No permit is free while a scope waits for one. -/
  scarce : m.waiting ≠ [] → m.execution.permits ≤ m.execution.busyCount + m.granted.length + held
  jobs : ∀ j ∈ m.jobs, m.execution.Busy j.site j.node

variable {u}

/-! ### Permits pass from hand to hand -/

theorem Accounts.same (h : Accounts u held m) (hsame : Same m m') : Accounts u held m' := by
  obtain ⟨hexecution, hwaiting, hgranted, hjobs⟩ := hsame
  refine ⟨?_, ?_, ?_, ?_⟩
  · rw [hexecution]
    exact h.reachable
  · rw [hexecution, hgranted]
    exact h.within
  · rw [hexecution, hwaiting, hgranted]
    exact h.scarce
  · rw [hexecution, hjobs]
    exact h.jobs

/-- A permit that is given up goes to the next scope that waits. -/
theorem Accounts.grant (h : Accounts u 1 m) : Accounts u 0 m.grant := by
  have hwithin := h.within
  unfold Simulation.grant
  split
  · rename_i hnone
    exact ⟨h.reachable, by omega, fun hwaiting => absurd hnone hwaiting, h.jobs⟩
  · rename_i a rest hsome
    refine Accounts.same ?_ (same_wake _ _)
    have hfull := h.scarce (by simp [hsome])
    refine ⟨h.reachable, ?_, fun _ => ?_, h.jobs⟩
    · simpa [add_assoc] using hwithin
    · simpa [add_assoc] using hfull

/-- A scope takes up the permit it was granted. -/
theorem Accounts.takeUp (h : Accounts u 0 m) (ha : a ∈ m.granted) :
    Accounts u 1 { m with granted := m.granted.erase a } := by
  have hlength := List.length_erase_add_one ha
  refine ⟨h.reachable, ?_, fun hwaiting => ?_, h.jobs⟩
  · have hwithin := h.within
    dsimp only
    omega
  · have hfull := h.scarce hwaiting
    dsimp only
    omega

/-- A scope takes a free permit; none is free while another one waits. -/
theorem Accounts.acquire (h : Accounts u 0 m) (hfree : 0 < m.free) : Accounts u 1 m := by
  unfold free at hfree
  refine ⟨h.reachable, by omega, fun hwaiting => ?_, h.jobs⟩
  have hfull := h.scarce hwaiting
  omega

theorem Accounts.wait (h : Accounts u 0 m) (hfull : ¬ 0 < m.free) :
    Accounts u 0 { m with waiting := m.waiting ++ [a] } := by
  unfold free at hfull
  refine ⟨h.reachable, h.within, fun _ => ?_, h.jobs⟩
  dsimp only
  omega

theorem Accounts.withdraw (h : Accounts u 0 m) (a : Address) : Accounts u 0 (m.withdraw a) := by
  unfold Simulation.withdraw
  split_ifs with hgranted
  · exact (h.takeUp (by simpa using hgranted)).grant
  · refine ⟨h.reachable, h.within, fun hwaiting => h.scarce fun hnone => ?_, h.jobs⟩
    dsimp only at hwaiting
    rw [hnone] at hwaiting
    exact hwaiting rfl

/-- An event changes how many permits are in use and how many are in hand alike. -/
theorem Accounts.exchange (h : Accounts u held m) {event : Event} {held' : ℕ}
    (hcount : (m.execution.perform u.plan u.verbose (m.now u) event).busyCount + held' =
      m.execution.busyCount + held)
    (hjobs : ∀ j ∈ m.jobs,
      (m.execution.perform u.plan u.verbose (m.now u) event).Busy j.site j.node) :
    Accounts u held' (m.perform u event) := by
  have hgoes := goes_perform u m event
  unfold Goes at hgoes
  rw [(same_perform u m event).execution] at hgoes
  have hpermits := permits_of_leads hgoes
  dsimp only at hpermits
  refine Accounts.same ?_ (same_perform u m event)
  refine ⟨h.reachable.leads hgoes, ?_, fun hwaiting => ?_, hjobs⟩
  · have hwithin := h.within
    dsimp only
    omega
  · have hfull := h.scarce hwaiting
    dsimp only
    omega

/-! ### Workers -/

theorem Accounts.putJob (h : Accounts u held m) (hbusy : m.execution.Busy j.site j.node) :
    Accounts u held (m.putJob j) := by
  refine ⟨h.reachable, h.within, h.scarce, fun k hk => ?_⟩
  obtain ⟨x, hx, rfl⟩ := List.mem_map.mp hk
  split_ifs
  · exact hbusy
  · exact h.jobs x hx

theorem busy_cancel (h : m.execution.Busy j.site j.node) :
    (m.cancel u).execution.Busy j.site j.node := by
  have hcalled : (m.cancel u).execution = { m.execution with aborted := true } :=
    (same_perform u m .abort).execution
  rw [hcalled]
  exact h

section Sound

variable (hp : u.plan.Sound) (hu : u.plan.Untangled)
include hp hu

/-- A worker that is done gives up its permit. -/
theorem Accounts.report (h : Accounts u 0 m) (hbusy : m.execution.Busy j.site j.node)
    (outcome : Outcome) : Accounts u 0 (m.report u j outcome) := by
  obtain ⟨t, ht, hn⟩ := hbusy
  have hkeys := (h.reachable.grounded hp hu).keys
  have hdrop : Accounts u 0 (m.dropJob j) :=
    ⟨h.reachable, h.within, h.scarce, fun k hk => h.jobs k (List.mem_of_mem_filter hk)⟩
  have hdone : (m.dropJob j).execution.perform u.plan u.verbose ((m.dropJob j).now u)
      (.report j.site (.ended ⟨j.node, j.attempts, outcome⟩)) =
      m.execution.putSite u.plan u.verbose j.site
        { t with
          busy := t.busy.erase j.node
          reports := t.reports ++ [.ended ⟨j.node, j.attempts, outcome⟩] } := by
    simp [dropJob, Execution.perform, perform?, report?, ht, Report.node, hn]
  refine Accounts.same (Accounts.grant (hdrop.exchange ?_ fun k hk => ?_)) (same_wake _ _)
  · rw [hdone]
    have hcount := busyCount_putSite u.plan u.verbose { t with
      busy := t.busy.erase j.node
      reports := t.reports ++ [.ended ⟨j.node, j.attempts, outcome⟩] } hkeys ht
    have hlength := List.length_erase_add_one hn
    change _ = m.execution.busyCount + 0
    dsimp only at hcount
    omega
  · rw [hdone]
    obtain ⟨hk, hother⟩ := List.mem_filter.mp hk
    refine (h.jobs k hk).putSite ht fun hsite hbusy => ?_
    rw [List.mem_erase_of_ne]
    · exact hbusy
    · intro hnode
      simp [hsite, hnode] at hother

/-- An event that spares the workers leaves the permits as they are. -/
theorem Accounts.perform (h : Accounts u held m) (event : Event)
    (hspares : event.Spares u.plan m.execution) : Accounts u held (m.perform u event) := by
  have hg := h.reachable.grounded hp hu
  refine h.exchange ?_ fun k hk => ?_
  · rw [(sameBusy_perform hg hspares).1]
  · exact (sameBusy_perform hg hspares).2 _ _ (h.jobs k hk)

theorem Accounts.follow (h : Accounts u 0 m) {progress : Progress}
    (hbusy : m.execution.Busy progress.job.site progress.job.node) :
    Accounts u 0 (m.follow u progress) := by
  cases progress with
  | waits j => exact h.putJob hbusy
  | stops j outcome => exact h.report hp hu hbusy outcome

theorem Accounts.finish (h : Accounts u 0 m) (hbusy : m.execution.Busy j.site j.node) (w : Worker)
    (result : Except NodeError PortValues) : Accounts u 0 (m.finish u w j result) := by
  obtain ⟨hsite, hnode⟩ := job_progress u m w j result
  exact h.follow hp hu (by rw [hsite, hnode]; exact hbusy)

/-- Calling off an execution sends nobody away. -/
theorem Accounts.cancel (h : Accounts u held m) : Accounts u held (m.cancel u) :=
  (h.perform hp hu .abort trivial).same ⟨rfl, rfl, rfl, rfl, le_rfl⟩

theorem Accounts.asks (h : Accounts u 0 m) (hbusy : m.execution.Busy j.site j.node)
    (hasks : Asks u m m') : Accounts u 0 m' ∧ m'.execution.Busy j.site j.node := by
  have hrequests : ∀ requests, Accounts u 0 { m with requests } :=
    fun _ => h.same ⟨rfl, rfl, rfl, rfl, le_rfl⟩
  cases hasks with
  | nobody => exact ⟨h, hbusy⟩
  | service => exact ⟨hrequests _, hbusy⟩
  | caller => exact ⟨(hrequests _).cancel hp hu, busy_cancel hbusy⟩

theorem Accounts.works (h : Accounts u 0 m) (hbusy : m.execution.Busy j.site j.node)
    (hworks : Works u m j m') : Accounts u 0 m' := by
  cases hworks with
  | waits => exact h
  | unfit | interrupted => exact h.report hp hu hbusy _
  | tries result _ _ _ hasks =>
    obtain ⟨hasked, hbusy⟩ := h.asks hp hu hbusy hasks
    exact hasked.finish hp hu hbusy _ result
  | asks time result _ _ _ hasks =>
    obtain ⟨hasked, hbusy⟩ := h.asks hp hu hbusy hasks
    exact hasked.putJob hbusy
  | answered => exact h.finish hp hu hbusy _ _

/-! ### Scopes and loops -/

/-- A loop starts without a permit. -/
theorem Accounts.dispatch_loop (h : Accounts u held m) (ht : m.execution.site? a = some t)
    {k : ℕ} {n : NodeId} {rest : List (ℕ × NodeId)} (hqueue : t.scope.ready = (k, n) :: rest)
    (hkind : u.plan.kind? n = some .loop) : Accounts u held (m.dispatch u a n) := by
  unfold Simulation.dispatch
  dsimp only
  rw [if_pos hkind]
  refine Accounts.same (h.perform hp hu (.dispatch a) ?_) (same_wake _ _)
  intro t' ht'
  obtain rfl := Option.some.inj (ht.symm.trans ht')
  exact ⟨k, n, rest, hqueue, hkind⟩

/-- Any other node keeps the permit that is in hand for it. -/
theorem Accounts.dispatch_work (h : Accounts u 1 m) (ht : m.execution.site? a = some t)
    (hphase : t.phase = .running) (hgoes : m.execution.aborted = false)
    {k : ℕ} {n : NodeId} {rest : List (ℕ × NodeId)} (hqueue : t.scope.ready = (k, n) :: rest)
    (hkind : u.plan.kind? n ≠ some .loop) : Accounts u 0 (m.dispatch u a n) := by
  have hg := h.reachable.grounded hp hu
  -- a scope with a fault would have called the execution off
  have hfault : t.scope.fault = none := by
    by_contra hfault
    have haborted := h.reachable.aborted_of_fault a t ht (Option.isSome_iff_ne_none.mpr hfault)
    rw [hgoes] at haborted
    simp at haborted
  have hwithin := h.within
  obtain ⟨t', hdispatch, hbusy⟩ : ∃ t', m.execution.dispatch? u.plan u.verbose (m.now u) a =
      some (m.execution.putSite u.plan u.verbose a t') ∧ t'.busy = t.busy ++ [n] :=
    (dispatch?_of_ready hg ht hphase hfault hqueue).2 hkind (by omega)
  have hstarts : m.execution.perform u.plan u.verbose (m.now u) (.dispatch a) =
      m.execution.putSite u.plan u.verbose a t' := by
    simp [Execution.perform, perform?, hdispatch]
  have hcount := busyCount_putSite u.plan u.verbose t' hg.keys ht
  rw [hbusy, List.length_append, List.length_singleton] at hcount
  have hstarted : Accounts u 0 (m.perform u (.dispatch a)) := by
    refine h.exchange (by rw [hstarts]; omega) fun j hj => ?_
    rw [hstarts]
    refine (h.jobs j hj).putSite ht fun _ hn => ?_
    rw [hbusy]
    exact List.mem_append_left _ hn
  have hnew : (m.perform u (.dispatch a)).execution.Busy a n := by
    refine ⟨t', ?_, ?_⟩
    · rw [(same_perform u m (.dispatch a)).execution, hstarts, site?_putSite, if_pos rfl]
    · rw [hbusy]
      exact List.mem_append_right _ (List.mem_singleton_self n)
  unfold Simulation.dispatch
  dsimp only
  rw [if_neg hkind]
  refine Accounts.same ?_ (same_wake _ _)
  refine ⟨hstarted.reachable, hstarted.within, hstarted.scarce, fun j hj => ?_⟩
  rcases List.mem_append.mp hj with hj | hj
  · exact hstarted.jobs j hj
  · obtain rfl := List.mem_singleton.mp hj
    exact hnew

theorem Accounts.visitRunning (h : Accounts u 0 m) (ht : m.execution.site? a = some t)
    (hphase : t.phase = .running) : Accounts u 0 (m.visitRunning u a t) := by
  unfold Simulation.visitRunning
  -- a scope that is late calls the execution off first, and is itself as it was
  have hlate : Accounts u 0 (if m.isLate u then m.perform u .abort else m) ∧
      (if m.isLate u then m.perform u .abort else m).execution.site? a = some t := by
    split_ifs
    · refine ⟨h.perform hp hu .abort trivial, ?_⟩
      rw [(same_perform u m .abort).execution]
      exact ht
    · exact ⟨h, ht⟩
  obtain ⟨h, ht⟩ := hlate
  generalize (if m.isLate u then m.perform u .abort else m) = m at h ht ⊢
  have hvisit : ∀ {m'}, Accounts u 0 m' → Accounts u 0 (m'.next [.visit a]) :=
    fun h => h.same (same_next _ _)
  dsimp only
  split
  · exact hvisit ((h.withdraw a).perform hp hu (.leave a) trivial)
  · rename_i hgoes
    simp only [Bool.or_eq_true, not_or, Bool.not_eq_true] at hgoes
    split
    · rename_i k n rest hqueue _
      split_ifs with hkind hgranted hwaiting hfree
      · exact hvisit (h.dispatch_loop hp hu ht hqueue hkind)
      · exact hvisit ((h.takeUp (by simpa using hgranted)).dispatch_work hp hu ht hphase hgoes.1
          hqueue hkind)
      · exact h
      · exact hvisit ((h.acquire hfree).dispatch_work hp hu ht hphase hgoes.1 hqueue hkind)
      · exact h.wait hfree
    · rename_i k n rest r hqueue _
      split_ifs with hstarts
      · by_cases hkind : u.plan.kind? n = some .loop
        · exact hvisit (h.dispatch_loop hp hu ht hqueue hkind)
        · exact hvisit ((h.acquire (hstarts.1.resolve_left hkind)).dispatch_work hp hu ht hphase
            hgoes.1 hqueue hkind)
      · exact hvisit ((h.withdraw a).perform hp hu (.hear a _) trivial)
    · exact hvisit (h.perform hp hu (.hear a _) trivial)
    · exact h

theorem Accounts.visit (h : Accounts u 0 m) (a : Address) : Accounts u 0 (m.visit u a) := by
  unfold Simulation.visit
  split
  · exact h
  · rename_i t ht
    split
    · rename_i hphase
      exact h.visitRunning hp hu ht hphase
    · exact (h.perform hp hu (.hear a _) trivial).same (same_next _ _)
    · split_ifs
      · exact h
      · exact h.perform hp hu (.close a) trivial
    · exact h

theorem Accounts.advance (h : Accounts u 0 m) (a : Address) (id : NodeId) :
    Accounts u 0 (m.advance u a id) := by
  unfold Simulation.advance
  split
  · exact h
  · split_ifs
    · exact (h.perform hp hu (.conclude a id) trivial).same (same_wake _ _)
    · exact (h.perform hp hu (.iterate a id) trivial).same (same_next _ _)
    · exact h

/-! ### Runs -/

theorem Accounts.turn (h : Accounts u 0 m) (t : Turn) : Accounts u 0 (turn u m t) := by
  unfold Simulation.turn
  split
  · rename_i loop
    cases loop <;> exact h.same (same_next _ _)
  · exact h.visit hp hu _
  · exact h.advance hp hu _ _
  · split
    · rename_i j hj
      exact h.works hp hu (h.jobs j (List.mem_of_find?_eq_some hj)) (works_work m j)
    · exact h

theorem Accounts.pass? (h : Accounts u 0 m) (hpass : m.pass? u = some m') : Accounts u 0 m' := by
  obtain ⟨n, hn, rfl | rfl⟩ := pass?_eq_some hpass
  · exact h.same hn
  · exact ((h.same hn).cancel hp hu).same ⟨rfl, rfl, rfl, rfl, le_rfl⟩

theorem Accounts.step? (h : Accounts u 0 m) (hstep : m.step? u = some m') : Accounts u 0 m' := by
  unfold Simulation.step? at hstep
  split_ifs at hstep
  split at hstep
  · rename_i t rest _
    rw [← Option.some.inj hstep]
    have hqueue : Accounts u 0 { m with queue := rest } := h.same ⟨rfl, rfl, rfl, rfl, le_rfl⟩
    exact hqueue.turn hp hu t
  · exact h.pass? hp hu hstep

theorem Accounts.run (h : Accounts u 0 m) (fuel : ℕ) : Accounts u 0 (run u fuel m) := by
  induction fuel generalizing m with
  | zero => exact h
  | succ fuel ih =>
    unfold Simulation.run
    split
    · rename_i m' hstep
      exact ih (h.step? hp hu hstep)
    · exact h

end Sound

theorem accounts_begin (permits : ℕ) (cancelled : Bool) (cancelAt : Option ℕ) :
    Accounts u 0 (begin u permits cancelled cancelAt) := by
  refine ⟨.begin u.start permits cancelled, ?_, fun hwaiting => absurd rfl hwaiting, ?_⟩
  · have hnobody : (Execution.begin u.plan u.verbose u.start permits cancelled).busyCount = 0 := by
      simp [busyCount_eq, sites_begin]
    change (Execution.begin u.plan u.verbose u.start permits cancelled).busyCount + 0 + 0 ≤ _
    rw [hnobody]
    exact Nat.zero_le _
  · exact fun j hj => absurd hj List.not_mem_nil

end Clock.Simulation

namespace Execution

/-- Concurrency is bounded and never stuck, whatever the events and their order. So it is in every run
of the clock, where the permits of scopes that have not used them yet count as well, and a scope waits
for a permit only while none is free. -/
theorem permitsSuffice {p : Plan} (h : p.Accepted) (hu : p.Untangled) (concurrency : ℕ) :
    (∀ {verbose now aborted e}, Leads p verbose (begin p verbose now concurrency aborted) e →
      BoundedAndLive p verbose concurrency e) ∧
    ∀ (u : Clock.Setup) (cancelled : Bool) (cancelAt : Option ℕ) (fuel : ℕ), u.plan = p →
      let m := (Clock.Simulation.begin u concurrency cancelled cancelAt).run u fuel
      BoundedAndLive p u.verbose concurrency m.execution ∧
      m.execution.busyCount + m.granted.length ≤ max 1 concurrency ∧
      (m.waiting ≠ [] → m.execution.busyCount + m.granted.length = max 1 concurrency) := by
  have hp := Plan.sound_of_accepted h
  refine ⟨boundedAndLive_of_leads hp hu, ?_⟩
  rintro u cancelled cancelAt fuel rfl m
  have hleads : Leads u.plan u.verbose (begin u.plan u.verbose u.start concurrency cancelled)
      m.execution := Clock.Simulation.goes_run u fuel (.begin u concurrency cancelled cancelAt)
  have haccounts : m.Accounts u 0 :=
    (Clock.Simulation.accounts_begin concurrency cancelled cancelAt).run hp hu fuel
  have hpermits : m.execution.permits = max 1 concurrency := permits_of_leads hleads
  have hwithin := haccounts.within
  refine ⟨boundedAndLive_of_leads hp hu hleads, by omega, fun hwaiting => ?_⟩
  have hfull := haccounts.scarce hwaiting
  omega

/-- Cells in rows, all of them at once. -/
def cellsAtOnce : Definition :=
  ⟨[⟨"in", "data-input", []⟩, ⟨"rows", "logic-loop", [("parallel", .bool true)]⟩,
    ⟨"cells", "logic-loop", [("parallel", .bool true)]⟩, ⟨"cell", "data-transform", []⟩],
   [⟨⟨"in", "value"⟩, ⟨"rows", "collection"⟩⟩, ⟨⟨"rows", "item"⟩, ⟨"cells", "collection"⟩⟩,
    ⟨⟨"cells", "item"⟩, ⟨"cell", "input"⟩⟩, ⟨⟨"cell", "output"⟩, ⟨"cells", "result"⟩⟩,
    ⟨⟨"cells", "results"⟩, ⟨"rows", "result"⟩⟩]⟩

/-- Both cells of a row have begun, and one of them is worked on. -/
def cellsAtOnceEvents : List (Timestamp × Event) :=
  [.dispatch [], .report [] (.ended ⟨"in", [], .succeeded [("value", .array [.array [.null, .null]])]⟩),
    .hear [] "in", .dispatch [], .iterate [] "rows", .dispatch [("rows", 0)],
    .iterate [("rows", 0)] "cells", .iterate [("rows", 0)] "cells",
    .dispatch [("cells", 0), ("rows", 0)]].map fun event => (.epoch, event)

/-- Without any concurrency the other cell waits for the one permit, which neither loop holds. -/
theorem cellsAtOnce_permitsSuffice : ∃ p e, Plan.ofDefinition cellsAtOnce = .ok p ∧
    e.busyCount = 1 ∧ (e.dispatch? p false .epoch [("cells", 1), ("rows", 0)]).isNone = true ∧
    BoundedAndLive p false 0 e := by
  obtain ⟨p, hp, hloops, hall⟩ := Plan.exists_of_check (d := cellsAtOnce)
    (P := fun p =>
      (∀ a ∈ p.nesting.loops, ∀ b ∈ p.nesting.loops, ¬ (a.1 ∈ b.2.body ∧ b.1 ∈ a.2.body)) ∧
      ((begin p false .epoch 0 false).after? p false cellsAtOnceEvents).any fun e =>
        e.busyCount == 1 && (e.dispatch? p false .epoch [("cells", 1), ("rows", 0)]).isNone)
    (by decide +kernel)
  obtain ⟨e, hafter, hchecks⟩ := (Option.any_eq_true _ _).mp hall
  obtain ⟨hbusy, hwaits⟩ := (Bool.and_eq_true _ _).mp hchecks
  exact ⟨p, e, hp, by simpa using hbusy, hwaits,
    (permitsSuffice ⟨cellsAtOnce, hp⟩ (Plan.untangled_of_loops hloops) 0).1
      (leads_of_after? hafter)⟩

end Execution

end PortGraph
