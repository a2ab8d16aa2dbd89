import PortGraph.Proofs.Execution.Clock
import PortGraph.Proofs.Work.Attempts

/-!
The attempts of workers that take turns on a clock. Between the turns of a worker anything may happen
to the execution; as long as nothing calls it off and there is no deadline, the worker makes the
attempts that it would make in a row.
-/

namespace PortGraph.Clock

open Worker

/-- The attempt that a worker makes next, or that is being answered. -/
def Job.number (j : Job) : ℕ := j.attempts.length + 1

/-- How a worker comes along with the given results, with the numbers of the attempts it has made. -/
inductive Pursuit (u : Setup) (w : Worker) (r : ℕ → Except NodeError PortValues) :
    List ℕ → Progress → Prop
  | dispatched (a : Address) (n : NodeId) (time : ℕ) :
      Pursuit u w r [] (.waits ⟨a, n, time, [], .starting⟩)
  /-- An attempt that is over at once. -/
  | made {made : List ℕ} {j : Job} {m : Simulation} (h : Pursuit u w r made (.waits j))
      (hidle : j.IsIdle) (hgoes : m.execution.aborted = false) :
      Pursuit u w r (made ++ [j.number]) (m.progress u w j (r j.number))
  /-- An attempt that a service answers later. -/
  | asked {made : List ℕ} {j : Job} (time : ℕ) (h : Pursuit u w r made (.waits j))
      (hidle : j.IsIdle) :
      Pursuit u w r (made ++ [j.number]) (.waits { j with stage := .asked time (r j.number) })
  | answered {made : List ℕ} {j : Job} {m : Simulation} {time : ℕ}
      {result : Except NodeError PortValues} (h : Pursuit u w r made (.waits j))
      (hstage : j.stage = .asked time result) (hgoes : m.execution.aborted = false) :
      Pursuit u w r made (m.progress u w j result)

variable {u : Setup} {w : Worker} {r r' : ℕ → Except NodeError PortValues} {k : ℕ}
variable {made : List ℕ} {j : Job} {p : Progress} {m m' : Simulation} {outcome : Outcome}

/-! ### What a pursuit keeps -/

/-- Attempts are still to come, or one is being answered. -/
structure Underway (r : ℕ → Except NodeError PortValues) (k : ℕ) (made : List ℕ) (j : Job) :
    Prop where
  before : j.attempts.length < k
  told : Told r j.attempts
  made : j.IsIdle ∧ made = List.range' 1 j.attempts.length ∨
    (∃ time, j.stage = .asked time (r j.number)) ∧ made = List.range' 1 j.number

/-- A worker that waits for no answer goes on to the next number. -/
theorem Underway.made_of_idle (h : Underway r k made j) (hidle : j.IsIdle) :
    made ++ [j.number] = List.range' 1 j.number := by
  obtain ⟨-, rfl⟩ | ⟨⟨time, hasked⟩, -⟩ := h.made
  · simp [Job.number, List.range'_concat, Nat.add_comm]
  · obtain hstarting | ⟨time, hpausing⟩ := hidle <;> simp_all

theorem Underway.made_of_asked (h : Underway r k made j) {time : ℕ}
    {result : Except NodeError PortValues} (hstage : j.stage = .asked time result) :
    result = r j.number ∧ made = List.range' 1 j.number := by
  obtain ⟨hstarting | ⟨time, hpausing⟩, -⟩ | ⟨⟨time, hasked⟩, hmade⟩ := h.made
  · simp [hstage] at hstarting
  · simp [hstage] at hpausing
  · rw [hstage, Stage.asked.injEq] at hasked
    exact ⟨hasked.2, hmade⟩

theorem hasTime_of_deadline (hdeadline : u.deadline = none) (m : Simulation) :
    m.hasTime u = fun _ => true := by
  funext delay
  simp [Simulation.hasTime, hdeadline]

theorem progress_of_over {result : Except NodeError PortValues}
    (h : w.sequel (m.hasTime u) j.number Simulation.middle result = .over outcome) :
    ∃ elapsed, m.progress u w j result =
      .stops { j with attempts := j.attempts ++ [.ofResult j.number elapsed result] } outcome := by
  refine ⟨(m.time - j.startedAt) / Simulation.nanosPerMilli, ?_⟩
  unfold Job.number at h
  simp [Simulation.progress, after, h, Job.number]

theorem progress_of_again {result : Except NodeError PortValues} {delay : ℕ}
    (hgoes : m.execution.aborted = false)
    (h : w.sequel (m.hasTime u) j.number Simulation.middle result = .again delay) :
    ∃ elapsed, m.progress u w j result =
      .waits { j with
        attempts := j.attempts ++ [.ofResult j.number elapsed result]
        stage := .pausing (m.time + delay) } := by
  refine ⟨(m.time - j.startedAt) / Simulation.nanosPerMilli, ?_⟩
  unfold Job.number at h
  simp [Simulation.progress, after, h, hgoes, Job.number]

/-- What a pursuit has come to when `k` is the first final attempt. -/
def Lawful (w : Worker) (r : ℕ → Except NodeError PortValues) (k : ℕ) (made : List ℕ) :
    Progress → Prop
  | .waits j => Underway r k made j
  | .stops j outcome => made = List.range' 1 k ∧ w.Concludes r k j.attempts outcome

/-- With the result of its attempt, a worker is done or has another attempt to make. -/
theorem lawful_progress (hdeadline : u.deadline = none)
    (hk : IsLeast {i | 1 ≤ i ∧ w.Final i (r i)} k) (hgoes : m.execution.aborted = false)
    (htold : Told r j.attempts) (hbefore : j.attempts.length < k) :
    Lawful w r k (List.range' 1 j.number) (m.progress u w j (r j.number)) := by
  have htime := hasTime_of_deadline hdeadline m
  by_cases hfinal : w.Final j.number (r j.number)
  · obtain rfl : k = j.number :=
      Nat.le_antisymm (hk.2 ⟨by simp [Job.number], hfinal⟩) hbefore
    obtain ⟨outcome, hsequel, hends⟩ := sequel_of_final hfinal Simulation.middle
    rw [← htime] at hsequel
    obtain ⟨elapsed, hprogress⟩ := progress_of_over hsequel
    rw [hprogress]
    exact ⟨rfl, by simp [Job.number], htold.concat elapsed, hends⟩
  · obtain ⟨delay, hsequel⟩ := sequel_of_not_final hfinal Simulation.middle
    rw [← htime] at hsequel
    obtain ⟨elapsed, hprogress⟩ := progress_of_again hgoes hsequel
    have hne : j.number ≠ k := by
      rintro rfl
      exact hfinal hk.1.2
    have hlt : j.number < k := lt_of_le_of_ne hbefore hne
    rw [hprogress]
    refine ⟨?_, htold.concat elapsed, Or.inl ⟨Or.inr ⟨_, rfl⟩, ?_⟩⟩
    · simpa [Job.number] using hlt
    · simp [Job.number]

theorem Pursuit.lawful (hdeadline : u.deadline = none)
    (hk : IsLeast {i | 1 ≤ i ∧ w.Final i (r i)} k) (h : Pursuit u w r made p) :
    Lawful w r k made p := by
  induction h with
  | dispatched a n time => exact ⟨hk.1.1, told_nil r, Or.inl ⟨Or.inl rfl, rfl⟩⟩
  | made _ hidle hgoes ih =>
    rw [ih.made_of_idle hidle]
    exact lawful_progress hdeadline hk hgoes ih.told ih.before
  | asked time _ hidle ih =>
    rw [ih.made_of_idle hidle]
    exact ⟨ih.before, ih.told, Or.inr ⟨⟨time, rfl⟩, rfl⟩⟩
  | answered _ hstage hgoes ih =>
    obtain ⟨rfl, rfl⟩ := ih.made_of_asked hstage
    exact lawful_progress hdeadline hk hgoes ih.told ih.before

/-! ### The workers of a run -/

/-- A pursuit depends on the results of the attempts made only. -/
theorem Pursuit.congr (h : Pursuit u w r made p) (hr : ∀ i ∈ made, r' i = r i) :
    Pursuit u w r' made p := by
  induction h with
  | dispatched a n time => exact .dispatched a n time
  | made _ hidle hgoes ih =>
    rw [← hr _ (by simp)]
    exact .made (ih fun i hi => hr i (by simp [hi])) hidle hgoes
  | asked time _ hidle ih =>
    rw [← hr _ (by simp)]
    exact .asked time (ih fun i hi => hr i (by simp [hi])) hidle
  | answered _ hstage hgoes ih => exact .answered (ih hr) hstage hgoes

/-- Whatever the next attempt results in, there are results to pursue that say so. -/
theorem Pursuit.extend (h : Pursuit u w r made (.waits j)) (hdeadline : u.deadline = none)
    (hidle : j.IsIdle) (result : Except NodeError PortValues) :
    ∃ r', Pursuit u w r' made (.waits j) ∧ r' j.number = result := by
  obtain ⟨k, hk⟩ := w.exists_first r
  refine ⟨Function.update r j.number result, h.congr fun i hi => ?_, Function.update_self ..⟩
  have hmade := (h.lawful hdeadline hk).made_of_idle hidle
  refine Function.update_of_ne ?_ _ _
  rintro rfl
  -- the number would have been used before
  have hnodup : (made ++ [j.number]).Nodup := hmade ▸ List.nodup_range' ..
  exact (List.nodup_append.mp hnodup).2.2 _ hi _ List.mem_cons_self rfl

/-- The worker of a node is on the way to `p`, whatever the results have been so far. -/
def Pursued (u : Setup) (p : Progress) : Prop :=
  ∀ w, u.worker? p.job.node = some w → ∃ r made, Pursuit u w r made p

namespace Simulation

theorem aborted_of_goes (h : Goes u m m') (hgoes : m'.execution.aborted = false) :
    m.execution.aborted = false := Execution.aborted_of_leads h hgoes

/-- What a turn of a worker does: a pursuit goes on, and requests have been made meanwhile. -/
def Advances (u : Setup) (w : Worker) (j : Job) (m m' : Simulation) : Prop :=
  ∃ requests r made p, Pursuit u w r made p ∧ p.job.site = j.site ∧ p.job.node = j.node ∧
    m' = follow u { m with requests } p

theorem advances_finish (hdeadline : u.deadline = none) (h : Pursuit u w r made (.waits j))
    (hidle : j.IsIdle) (requests : List Request) (result : Except NodeError PortValues)
    (hgoes : m.execution.aborted = false) :
    Advances u w j m (finish u { m with requests } w j result) := by
  obtain ⟨r', hr', rfl⟩ := h.extend hdeadline hidle result
  obtain ⟨hsite, hnode⟩ := job_progress u { m with requests } w j (r' j.number)
  exact ⟨requests, r', _, _, .made hr' hidle hgoes, hsite, hnode, rfl⟩

/-- In an execution that goes on nothing comes of asking but requests. -/
theorem requests_of_asks (h : Asks u m m') (hgoes : m'.execution.aborted = false) :
    ∃ requests, m' = { m with requests } := by
  cases h with
  | nobody => exact ⟨m.requests, rfl⟩
  | service => exact ⟨_, rfl⟩
  | caller => simp [aborted_cancel] at hgoes

/-- The turn of a worker in an execution that goes on. -/
theorem advances_works (hdeadline : u.deadline = none) (hw : u.worker? j.node = some w)
    (h : Pursuit u w r made (.waits j)) (hworks : Works u m j m')
    (hgoes : m'.execution.aborted = false) : m' = m ∨ Advances u w j m m' := by
  have hbefore := aborted_of_goes hworks.goes hgoes
  cases hworks with
  | waits => exact Or.inl rfl
  | unfit fault hnone =>
    rw [hw] at hnone
    cases hnone
  | interrupted hstops => simp [Stops, isLate, hdeadline, hbefore] at hstops
  | tries result hw' _ hidle hasks =>
    obtain rfl := Option.some.inj (hw.symm.trans hw')
    obtain ⟨requests, rfl⟩ := requests_of_asks hasks (aborted_of_goes (goes_finish u _ _ j _) hgoes)
    exact Or.inr (advances_finish hdeadline h hidle requests result hbefore)
  | asks time result _ _ hidle hasks =>
    obtain ⟨requests, rfl⟩ := requests_of_asks hasks hgoes
    obtain ⟨r', hr', rfl⟩ := h.extend hdeadline hidle result
    exact Or.inr ⟨requests, r', _, _, .asked time hr' hidle, rfl, rfl, rfl⟩
  | @answered _ time result hw' _ hstage =>
    obtain rfl := Option.some.inj (hw.symm.trans hw')
    obtain ⟨hsite, hnode⟩ := job_progress u m w j result
    exact Or.inr ⟨m.requests, r, made, _, .answered h hstage hbefore, hsite, hnode, rfl⟩

/-- Every worker is in pursuit of its node, and those that are done have told how theirs went. -/
structure OnDuty (u : Setup) (m : Simulation) : Prop where
  jobs : ∀ j ∈ m.jobs, Pursued u (.waits j)
  told : ∀ a t c, m.execution.site? a = some t → .ended c ∈ t.reports → c.attempts ≠ [] →
    ∃ j, j.site = a ∧ j.node = c.node ∧ j.attempts = c.attempts ∧ Pursued u (.stops j c.outcome)

theorem OnDuty.of_eq (h : OnDuty u m) (hexecution : m'.execution = m.execution)
    (hjobs : m'.jobs = m.jobs) : OnDuty u m' := by
  refine ⟨?_, ?_⟩
  · rw [hjobs]
    exact h.jobs
  · rw [hexecution]
    exact h.told

theorem OnDuty.same (h : OnDuty u m) (hsame : Same m m') : OnDuty u m' :=
  h.of_eq hsame.execution hsame.jobs

theorem OnDuty.grant (h : OnDuty u m) : OnDuty u m.grant := by
  unfold Simulation.grant
  split
  · exact h
  · refine OnDuty.same ?_ (same_wake _ _)
    exact h.of_eq rfl rfl

/-- An event may add a worker's report of how its pursuit went. -/
theorem OnDuty.perform (h : OnDuty u m) {event : Event}
    (hevent : ∀ a c, event = .report a (.ended c) → c.attempts ≠ [] →
      ∃ j, j.site = a ∧ j.node = c.node ∧ j.attempts = c.attempts ∧
        Pursued u (.stops j c.outcome)) : OnDuty u (m.perform u event) := by
  refine OnDuty.same ?_ (same_perform u m event)
  refine ⟨h.jobs, fun a t c ht hc hattempts => ?_⟩
  dsimp only at ht
  unfold Execution.perform at ht
  cases hperform : m.execution.perform? u.plan u.verbose (m.now u) event with
  | none =>
    rw [hperform] at ht
    exact h.told a t c ht hc hattempts
  | some e =>
    rw [hperform] at ht
    obtain ⟨t', ht', hc'⟩ | rfl | ⟨hnone, -⟩ := Execution.told_of_perform? hperform ht hc
    · exact h.told a t' c ht' hc' hattempts
    · exact hevent a c rfl hattempts
    · exact absurd hnone hattempts

theorem OnDuty.follow (h : OnDuty u m) (hp : Pursued u p) : OnDuty u (m.follow u p) := by
  cases p with
  | waits j =>
    refine ⟨fun k hk => ?_, h.told⟩
    obtain ⟨x, hx, rfl⟩ := List.mem_map.mp hk
    split_ifs
    · exact hp
    · exact h.jobs x hx
  | stops j outcome =>
    have hdrop : OnDuty u (m.dropJob j) :=
      ⟨fun k hk => h.jobs k (List.mem_of_mem_filter hk), h.told⟩
    refine OnDuty.same (OnDuty.grant (hdrop.perform ?_)) (same_wake _ _)
    rintro a c heq -
    simp only [Event.report.injEq, Report.ended.injEq] at heq
    obtain ⟨rfl, rfl⟩ := heq
    exact ⟨j, rfl, rfl, rfl, hp⟩

theorem OnDuty.works (h : OnDuty u m) (hdeadline : u.deadline = none) (hj : j ∈ m.jobs)
    (hworks : Works u m j m') (hgoes : m'.execution.aborted = false) : OnDuty u m' := by
  cases hw : u.worker? j.node with
  | none =>
    -- a node that nobody can work on is given back at once
    have hpursued : ∀ outcome, Pursued u (.stops j outcome) := by
      intro outcome w hw'
      rw [Progress.job, hw] at hw'
      cases hw'
    cases hworks with
    | waits => exact h
    | unfit | interrupted => exact h.follow (hpursued _)
    | tries _ hw' | asks _ _ hw' | answered hw' =>
      rw [hw] at hw'
      cases hw'
  | some w =>
    obtain ⟨r, made, hpursuit⟩ := h.jobs j hj w hw
    obtain rfl | ⟨requests, r', made', p, hp, hsite, hnode, rfl⟩ :=
      advances_works hdeadline hw hpursuit hworks hgoes
    · exact h
    · refine OnDuty.follow (h.of_eq rfl rfl) fun w' hw' => ?_
      rw [hnode, hw] at hw'
      exact ⟨r', made', Option.some.inj hw' ▸ hp⟩

end Simulation

/-! ### The law of retries -/

end PortGraph.Clock
