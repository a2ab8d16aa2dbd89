import PortGraph.Execution.Clock
import PortGraph.Proofs.Execution.Logged

/-!
What the clock does with an execution. Tasks, permits and workers are its own business; to the execution
it does nothing but let events happen. So whatever holds of all that events lead to holds of its runs;
and a property of simulations is kept by every run if events and the turns of workers keep it.
-/

namespace PortGraph.Clock

/-- The worker that a node is for, if there is one. -/
def Setup.worker? (u : Setup) (n : NodeId) : Option Worker :=
  (u.plan.node? n).bind fun node => u.registry node.kind

/-- The worker waits for no answer. -/
def Job.IsIdle (j : Job) : Prop := j.stage = .starting ∨ ∃ time, j.stage = .pausing time

/-- What the worker goes on with, or is done with. -/
def Progress.job : Progress → Job
  | .waits j => j
  | .stops j _ => j

namespace Simulation

open Execution Relation

variable (u : Setup) {m m' : Simulation}

/-! ### What leaves the execution alone -/

/-- Nothing but the queue of tasks may have changed, and the clock may have moved on. -/
structure Same (m m' : Simulation) : Prop where
  execution : m'.execution = m.execution
  waiting : m'.waiting = m.waiting
  granted : m'.granted = m.granted
  jobs : m'.jobs = m.jobs
  time : m.time ≤ m'.time

theorem Same.trans {m'' : Simulation} (h : Same m m') (h' : Same m' m'') : Same m m'' :=
  ⟨h'.execution.trans h.execution, h'.waiting.trans h.waiting, h'.granted.trans h.granted,
    h'.jobs.trans h.jobs, h.time.trans h'.time⟩

theorem same_next (m : Simulation) (ts : List Turn) : Same m (m.next ts) :=
  ⟨rfl, rfl, rfl, rfl, le_rfl⟩

theorem same_wake (m : Simulation) (t : Turn) : Same m (m.wake t) := by
  unfold wake
  split_ifs <;> exact ⟨rfl, rfl, rfl, rfl, le_rfl⟩

theorem same_foldl_wake {α : Type} (f : α → Turn) (l : List α) (m : Simulation) :
    Same m (l.foldl (fun m a => m.wake (f a)) m) := by
  induction l generalizing m with
  | nil => exact ⟨rfl, rfl, rfl, rfl, le_rfl⟩
  | cons a rest ih => exact (same_wake m (f a)).trans (ih _)

theorem same_wakeAll (m : Simulation) : Same m m.wakeAll :=
  (same_foldl_wake (fun x : Address × Site => hostOf x.1) _ m).trans
    (same_foldl_wake (fun j : Job => Turn.job j.site j.node) _ _)

@[simp] theorem execution_wake (m : Simulation) (t : Turn) : (m.wake t).execution = m.execution :=
  (same_wake m t).execution

@[simp] theorem execution_grant (m : Simulation) : m.grant.execution = m.execution := by
  unfold grant
  split
  · rfl
  · rw [execution_wake]

theorem time_wake (m : Simulation) (t : Turn) : (m.wake t).time = m.time := by
  unfold wake
  split_ifs <;> rfl

theorem time_withdraw (m : Simulation) (a : Address) : (m.withdraw a).time = m.time := by
  unfold withdraw grant
  split_ifs
  · split
    · rfl
    · rw [time_wake]
  · rfl

@[simp] theorem execution_withdraw (m : Simulation) (a : Address) :
    (m.withdraw a).execution = m.execution := by
  unfold withdraw
  split_ifs
  · rw [execution_grant]
  · rfl

/-! ### What lets events happen -/

/-- Events lead from the one execution to the other. -/
def Goes (m m' : Simulation) : Prop := Leads u.plan u.verbose m.execution m'.execution

theorem goes_of_eq (h : m'.execution = m.execution) : Goes u m m' := by
  unfold Goes
  rw [h]
  exact .refl

theorem Goes.trans {m'' : Simulation} (h : Goes u m m') (h' : Goes u m' m'') : Goes u m m'' :=
  ReflTransGen.trans h h'

/-- An event changes the execution only, and may wake tasks. -/
theorem same_perform (m : Simulation) (event : Event) :
    Same { m with execution := m.execution.perform u.plan u.verbose (m.now u) event }
      (m.perform u event) := by
  unfold perform
  dsimp only
  split_ifs
  · exact same_wakeAll _
  · exact ⟨rfl, rfl, rfl, rfl, le_rfl⟩

theorem goes_perform (m : Simulation) (event : Event) : Goes u m (m.perform u event) := by
  unfold Goes Leads
  rw [(same_perform u m event).execution]
  unfold Execution.perform
  cases hevent : m.execution.perform? u.plan u.verbose (m.now u) event with
  | none => exact .refl
  | some e => exact .single ⟨m.now u, event, hevent⟩

theorem goes_cancel (m : Simulation) : Goes u m (m.cancel u) := goes_perform u m .abort

theorem aborted_cancel (m : Simulation) : (m.cancel u).execution.aborted = true := by
  have hcalled : (m.cancel u).execution = { m.execution with aborted := true } :=
    (same_perform u m .abort).execution
  rw [hcalled]

theorem goes_report (m : Simulation) (j : Job) (outcome : Outcome) :
    Goes u m (m.report u j outcome) := by
  have hdrop : Goes u m (m.dropJob j) := goes_of_eq u rfl
  have hreport := goes_perform u (m.dropJob j)
    (.report j.site (.ended ⟨j.node, j.attempts, outcome⟩))
  refine hdrop.trans u (hreport.trans u (goes_of_eq u ?_))
  exact (execution_wake _ _).trans (execution_grant _)

/-- A worker stays with its node. -/
theorem job_progress (m : Simulation) (w : Worker) (j : Job)
    (result : Except NodeError PortValues) :
    (m.progress u w j result).job.site = j.site ∧ (m.progress u w j result).job.node = j.node := by
  unfold progress
  dsimp only
  split
  · exact ⟨rfl, rfl⟩
  · split_ifs <;> exact ⟨rfl, rfl⟩

theorem goes_finish (m : Simulation) (w : Worker) (j : Job)
    (result : Except NodeError PortValues) : Goes u m (m.finish u w j result) := by
  unfold finish follow
  split
  · exact goes_of_eq u rfl
  · exact goes_report u m _ _

/-! ### The turn of a worker -/

/-- The execution has been called off, or the deadline has come. -/
def Stops (m : Simulation) : Prop := m.execution.aborted = true ∨ m.isLate u = true

/-- A service may be asked, and may call the execution off. -/
inductive Asks (u : Setup) (m : Simulation) : Simulation → Prop
  | nobody : Asks u m m
  | service (request : Request) : Asks u m { m with requests := m.requests ++ [request] }
  | caller (request : Request) :
      Asks u m (({ m with requests := m.requests ++ [request] } : Simulation).cancel u)

/-- What becomes of a simulation in the turn of a worker. -/
inductive Works (u : Setup) (m : Simulation) (j : Job) : Simulation → Prop
  | waits : Works u m j m
  /-- Nobody can work on the node. -/
  | unfit (fault : Fault) : u.worker? j.node = none → Works u m j (m.report u j (.fatal fault))
  | interrupted : m.Stops u → Works u m j (m.report u j .cancelled)
  /-- An attempt begins and is over at once. -/
  | tries {w : Worker} {n : Simulation} (result : Except NodeError PortValues) :
      u.worker? j.node = some w → ¬ m.Stops u → j.IsIdle → Asks u m n →
      Works u m j (n.finish u w j result)
  /-- An attempt begins, and the answer takes time. -/
  | asks {w : Worker} {n : Simulation} (time : ℕ) (result : Except NodeError PortValues) :
      u.worker? j.node = some w → ¬ m.Stops u → j.IsIdle → Asks u m n →
      Works u m j (n.putJob { j with stage := .asked time result })
  | answered {w : Worker} {time : ℕ} {result : Except NodeError PortValues} :
      u.worker? j.node = some w → ¬ m.Stops u → j.stage = .asked time result →
      Works u m j (m.finish u w j result)

variable {u} {j : Job} {w : Worker}

theorem works_attempt (hw : u.worker? j.node = some w) (hgoes : ¬ m.Stops u) (hidle : j.IsIdle)
    (node : Node) (inputs : PortValues) : Works u m j (m.attempt u w node inputs j) := by
  unfold attempt
  split
  · exact .tries _ hw hgoes hidle .nobody
  · exact .tries _ hw hgoes hidle .nobody
  · rename_i request outputs _
    obtain ⟨n, hn, hasked⟩ : ∃ n, Asks u m n ∧
        (if (u.services m.requests request).cancels then
          ({ m with requests := m.requests ++ [request] } : Simulation).cancel u
        else { m with requests := m.requests ++ [request] }) = n := by
      refine ⟨_, ?_, rfl⟩
      split_ifs
      · exact .caller request
      · exact .service request
    dsimp only
    rw [hasked]
    split_ifs
    · exact .tries _ hw hgoes hidle hn
    · exact .asks _ _ hw hgoes hidle hn

theorem works_work (m : Simulation) (j : Job) : Works u m j (m.work u j) := by
  unfold work
  split
  · rename_i hnode
    exact .unfit _ (by simp [Setup.worker?, hnode])
  · rename_i node hnode
    split
    · rename_i hworker
      exact .unfit _ (by simp [Setup.worker?, hnode, hworker])
    · rename_i w hworker
      have hw : u.worker? j.node = some w := by simp [Setup.worker?, hnode, hworker]
      dsimp only
      split_ifs with hstops
      · exact .interrupted (by simpa [Stops] using hstops)
      · have hgoes : ¬ m.Stops u := by simpa [Stops] using hstops
        split
        · rename_i hstage
          exact works_attempt hw hgoes (Or.inl hstage) _ _
        · rename_i time result hstage
          split_ifs
          · exact .answered hw hgoes hstage
          · exact .waits
        · rename_i time hstage
          split_ifs
          · exact works_attempt hw hgoes (Or.inr ⟨time, hstage⟩) _ _
          · exact .waits

theorem Asks.goes (h : Asks u m m') : Goes u m m' := by
  cases h with
  | nobody | service => exact goes_of_eq u rfl
  | caller request =>
    have hrequests : Goes u m { m with requests := m.requests ++ [request] } := goes_of_eq u rfl
    exact hrequests.trans u (goes_cancel u _)

theorem Works.goes (h : Works u m j m') : Goes u m m' := by
  cases h with
  | waits => exact goes_of_eq u rfl
  | unfit | interrupted => exact goes_report u m j _
  | tries result _ _ _ hasks => exact hasks.goes.trans u (goes_finish u _ _ j result)
  | asks time result _ _ _ hasks => exact hasks.goes.trans u (goes_of_eq u rfl)
  | answered => exact goes_finish u m _ j _

/-! ### What the clock keeps -/

/-- When the clock moves on, tasks are woken, and the caller may call the execution off. -/
theorem pass?_eq_some (h : m.pass? u = some m') :
    ∃ n, Same m n ∧ (m' = n ∨ m' = { n.cancel u with cancelAt := none }) := by
  unfold pass? at h
  obtain ⟨moment, -, h⟩ := Option.bind_eq_some_iff.mp h
  dsimp only at h
  generalize hwoken : List.foldl (fun (m : Simulation) (j : Job) => m.wake (.job j.site j.node)) _ _ = n
    at h
  have hn : Same m n := by
    have hfold := same_foldl_wake (fun j : Job => Turn.job j.site j.node)
      (m.jobs.filter (Job.isDue (max m.time moment))) { m with time := max m.time moment }
    rw [hwoken] at hfold
    exact ⟨hfold.execution, hfold.waiting, hfold.granted, hfold.jobs,
      (le_max_left ..).trans hfold.time⟩
  have hlate : Same m (if isLate u n then n.wakeAll else n) := by
    split_ifs
    · exact hn.trans (same_wakeAll n)
    · exact hn
  generalize (if isLate u n then n.wakeAll else n) = k at h hlate
  refine ⟨k, hlate, ?_⟩
  split at h
  · exact Or.inr (Option.some.inj h).symm
  · exact Or.inl (Option.some.inj h).symm

theorem Stops.later (h : m.Stops u)
    (haborted : m.execution.aborted = true → m'.execution.aborted = true)
    (htime : m.time ≤ m'.time) : m'.Stops u := by
  refine h.imp haborted fun hlate => ?_
  unfold isLate at hlate ⊢
  cases hdeadline : u.deadline with
  | none => simp [hdeadline] at hlate
  | some d =>
    simp only [hdeadline, decide_eq_true_eq] at hlate ⊢
    exact hlate.trans htime

/-- What a turn of the top level or of a loop may bring about. It reports nobody, and past the deadline
it calls the execution off before it hears of anyone. -/
def Fits (u : Setup) (m : Simulation) : Event → Prop
  | .report _ _ => False
  | .hear a _ => ∀ t, m.execution.site? a = some t → t.phase = .running → m.Stops u →
      m.execution.aborted = true
  | _ => True

/-- A property that the turns of scopes, loops and workers keep. -/
structure Invariant (u : Setup) (I : Simulation → Prop) : Prop where
  /-- The queue of tasks and the permits do not matter. -/
  quiet : ∀ {m m'}, I m → m'.execution = m.execution → m'.jobs = m.jobs → m.time ≤ m'.time → I m'
  engage : ∀ {m} (a : Address) (n : NodeId), I m →
    I { m with jobs := m.jobs ++ [⟨a, n, m.time, [], .starting⟩] }
  perform : ∀ {m event}, I m → m.Fits u event → I (m.perform u event)
  works : ∀ {m j m'}, I m → j ∈ m.jobs → Works u m j m' → I m'

section Invariant

variable {I : Simulation → Prop} (hI : Invariant u I)
include hI

theorem Invariant.same (h : I m) (hsame : Same m m') : I m' :=
  hI.quiet h hsame.execution hsame.jobs hsame.time

theorem Invariant.withdraw (h : I m) (a : Address) : I (m.withdraw a) := by
  refine hI.quiet h (execution_withdraw m a) ?_ (time_withdraw m a).ge
  unfold Simulation.withdraw grant
  split_ifs
  · split
    · rfl
    · exact (same_wake _ _).jobs
  · rfl

theorem Invariant.dispatch (h : I m) (a : Address) (n : NodeId) : I (m.dispatch u a n) := by
  have hstarted : I (m.perform u (.dispatch a)) := hI.perform h trivial
  unfold Simulation.dispatch
  dsimp only
  split_ifs
  · exact hI.same hstarted (same_wake _ _)
  · exact hI.same (hI.engage a n hstarted) (same_wake _ _)

theorem Invariant.visitRunning (h : I m) (a : Address) (t : Site) : I (m.visitRunning u a t) := by
  -- past the deadline the execution is called off first
  obtain ⟨n, hn, hpunctual, hcalled⟩ : ∃ n, I n ∧ (n.Stops u → n.execution.aborted = true) ∧
      (if m.isLate u then m.perform u .abort else m) = n := by
    refine ⟨_, ?_, ?_, rfl⟩
    · split_ifs
      · exact hI.perform h trivial
      · exact h
    · split_ifs with hlate
      · exact fun _ => aborted_cancel u m
      · exact fun hstops => hstops.resolve_right hlate
  have hvisit : ∀ {m : Simulation}, I m → I (m.next [.visit a]) :=
    fun h => hI.same h (same_next _ _)
  unfold Simulation.visitRunning
  rw [hcalled]
  dsimp only
  split
  · exact hvisit (hI.perform (hI.withdraw hn a) trivial)
  · split
    · split_ifs
      · exact hvisit (hI.dispatch hn a _)
      · refine hvisit (hI.dispatch ?_ a _)
        exact hI.quiet hn rfl rfl le_rfl
      · exact hn
      · exact hvisit (hI.dispatch hn a _)
      · exact hI.quiet hn rfl rfl le_rfl
    · split_ifs
      · exact hvisit (hI.dispatch hn a _)
      · refine hvisit (hI.perform (hI.withdraw hn a) fun _ _ _ hstops => ?_)
        rw [execution_withdraw]
        exact hpunctual (hstops.later (by rw [execution_withdraw]; exact id)
          (time_withdraw n a).le)
    · exact hvisit (hI.perform hn fun _ _ _ => hpunctual)
    · exact hn

theorem Invariant.visit (h : I m) (a : Address) : I (m.visit u a) := by
  unfold Simulation.visit
  split
  · exact h
  · rename_i t ht
    split
    · exact hI.visitRunning h a t
    · rename_i hphase _
      refine hI.same ?_ (same_next _ _)
      refine hI.perform h fun t' ht' hrunning => ?_
      rw [ht] at ht'
      rw [← Option.some.inj ht', hphase] at hrunning
      cases hrunning
    · split_ifs
      · exact h
      · exact hI.perform h trivial
    · exact h

theorem Invariant.advance (h : I m) (a : Address) (n : NodeId) : I (m.advance u a n) := by
  unfold Simulation.advance
  split
  · exact h
  · split_ifs
    · refine hI.same ?_ (same_wake _ _)
      exact hI.perform h trivial
    · refine hI.same ?_ (same_next _ _)
      exact hI.perform h trivial
    · exact h

theorem Invariant.turn (h : I m) (t : Turn) : I (turn u m t) := by
  unfold Simulation.turn
  split
  · rename_i loop
    cases loop <;> exact hI.same h (same_next _ _)
  · exact hI.visit h _
  · exact hI.advance h _ _
  · split
    · rename_i j hj
      exact hI.works h (List.mem_of_find?_eq_some hj) (works_work m j)
    · exact h

theorem Invariant.step? (h : I m) (hstep : m.step? u = some m') : I m' := by
  unfold Simulation.step? at hstep
  split_ifs at hstep
  split at hstep
  · rename_i t rest _
    rw [← Option.some.inj hstep]
    refine hI.turn ?_ t
    exact hI.quiet h rfl rfl le_rfl
  · obtain ⟨n, hn, rfl | rfl⟩ := pass?_eq_some hstep
    · exact hI.same h hn
    · have hcalled : I (n.perform u .abort) := hI.perform (hI.same h hn) trivial
      exact hI.quiet hcalled rfl rfl le_rfl

theorem Invariant.run (h : I m) (fuel : ℕ) : I (run u fuel m) := by
  induction fuel generalizing m with
  | zero => exact h
  | succ fuel ih =>
    unfold Simulation.run
    split
    · rename_i m' hstep
      exact ih (hI.step? h hstep)
    · exact h

end Invariant

theorem invariant_goes (u : Setup) (m : Simulation) : Invariant u (Goes u m) where
  quiet := fun h hexecution _ _ => h.trans u (goes_of_eq u hexecution)
  engage := fun _ _ h => h.trans u (goes_of_eq u rfl)
  perform := fun h _ => h.trans u (goes_perform u _ _)
  works := fun h _ hworks => h.trans u hworks.goes

/-- A run of the clock is a sequence of events. -/
theorem goes_run (u : Setup) (fuel : ℕ) (m : Simulation) : Goes u m (run u fuel m) :=
  (invariant_goes u m).run (goes_of_eq u rfl) fuel

end Simulation

end PortGraph.Clock
