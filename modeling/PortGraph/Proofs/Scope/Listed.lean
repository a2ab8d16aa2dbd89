import PortGraph.Proofs.Scope.Evolution

/-!
The lists that a scope keeps of its runs: the queue holds just the nodes that are ready, each once,
and the list of ended runs shows of each node that has ended how it did.
-/

namespace PortGraph.Scope

theorem enqueue_perm {e : ℕ × NodeId} {l : List (ℕ × NodeId)} (h : e ∉ l) :
    (enqueue e l).Perm (e :: l) := by
  induction l with
  | nil => exact List.Perm.refl _
  | cons a rest ih =>
    obtain ⟨hne, hrest⟩ := not_or.mp (fun hor => h (List.mem_cons.mpr hor))
    unfold enqueue
    by_cases hbefore : before e a = true
    · simp [hbefore]
    · simp only [hbefore, hne, if_false, Bool.false_eq_true]
      exact ((ih hrest).cons a).trans (List.Perm.swap e a rest)

structure Listed (p : Plan) (s : Scope) : Prop where
  ready : ∀ e, e ∈ s.ready ↔ e.1 = p.rank e.2 ∧ ∃ r, s.run? e.2 = some r ∧ r.state = .ready
  nodup : s.ready.Nodup
  known : ∀ r ∈ s.ended, r.state.isTerminal = true ∧
    ∃ r', s.run? r.node = some r' ∧ r'.state = r.state
  ended : ∀ n r, s.run? n = some r → r.state.isTerminal = true →
    ∃ r' ∈ s.ended, r'.node = n ∧ r'.state = r.state

section Step

variable {p : Plan} {now : Timestamp} {s s' : Scope} {sig : Signal} {more : List Signal}

/-- The lists do not change as long as all nodes keep their states. -/
theorem Listed.of_same (h : Listed p s) (hready : s'.ready = s.ready) (hended : s'.ended = s.ended)
    (hs : ∀ n, (s'.run? n).map NodeRun.state = (s.run? n).map NodeRun.state) : Listed p s' := by
  have hsome : ∀ {n r}, s.run? n = some r → ∃ r', s'.run? n = some r' ∧ r'.state = r.state := by
    intro n r hr
    have heq := hs n
    rw [hr] at heq
    exact Option.map_eq_some_iff.mp heq
  have hback : ∀ {n r'}, s'.run? n = some r' → ∃ r, s.run? n = some r ∧ r.state = r'.state := by
    intro n r' hr'
    have heq := (hs n).symm
    rw [hr'] at heq
    exact Option.map_eq_some_iff.mp heq
  refine ⟨?_, by rw [hready]; exact h.nodup, ?_, ?_⟩
  · intro e
    rw [hready, h.ready e]
    refine and_congr_right fun _ => ?_
    constructor
    · rintro ⟨r, hr, hstate⟩
      obtain ⟨r', hr', hsame⟩ := hsome hr
      exact ⟨r', hr', hsame.trans hstate⟩
    · rintro ⟨r', hr', hstate⟩
      obtain ⟨r, hr, hsame⟩ := hback hr'
      exact ⟨r, hr, hsame.trans hstate⟩
  · intro r hr
    rw [hended] at hr
    obtain ⟨hterm, r₁, hr₁, hsame⟩ := h.known r hr
    obtain ⟨r', hr', hstate⟩ := hsome hr₁
    exact ⟨hterm, r', hr', hstate.trans hsame⟩
  · intro n r' hr' hterm
    obtain ⟨r, hr, hsame⟩ := hback hr'
    rw [hended]
    obtain ⟨r₁, hr₁, hnode, hstate⟩ := h.ended n r hr (by rwa [hsame])
    exact ⟨r₁, hr₁, hnode, hstate.trans hsame⟩

/-- A node that had not ended ends. -/
theorem Listed.putEnded (h : Listed p s) {n : NodeId} {r r' : NodeRun} (hr : s.run? n = some r)
    (hlive : r.state.isTerminal = false) (hnode : r'.node = n)
    (hterm : r'.state.isTerminal = true) : Listed p ((s.dequeue n).putEnded r') := by
  have hrun : ∀ k, ((s.dequeue n).putEnded r').run? k = if n = k then some r' else s.run? k := by
    intro k
    rw [run?_putEnded, hnode, run?_dequeue]
  refine ⟨?_, h.nodup.filter _, ?_, ?_⟩
  · intro e
    have hmem : e ∈ ((s.dequeue n).putEnded r').ready ↔ e ∈ s.ready ∧ e.2 ≠ n :=
      mem_ready_dequeue s n e
    rw [hmem, h.ready e, hrun]
    by_cases he : n = e.2
    · subst he
      simp only [ne_eq, not_true_eq_false, and_false, if_true, Option.some.injEq, false_iff,
        not_and, not_exists]
      rintro - r₁ rfl hready
      rw [hready] at hterm
      simp [RunState.isTerminal] at hterm
    · have he' : e.2 ≠ n := fun heq => he heq.symm
      simp [he, he']
  · intro r₁ hr₁
    rw [ended_putEnded, ended_dequeue] at hr₁
    rw [hrun]
    rcases List.mem_append.mp hr₁ with hr₁ | hr₁
    · obtain ⟨hterm₁, r₂, hr₂, hsame⟩ := h.known r₁ hr₁
      refine ⟨hterm₁, ?_⟩
      split_ifs with heq
      · rw [← heq, hr] at hr₂
        obtain rfl := Option.some.inj hr₂
        rw [hsame, hterm₁] at hlive
        simp at hlive
      · exact ⟨r₂, hr₂, hsame⟩
    · rw [List.mem_singleton.mp hr₁, if_pos hnode.symm]
      exact ⟨hterm, r', rfl, rfl⟩
  · intro k r₁ hr₁ hterm₁
    rw [hrun] at hr₁
    rw [ended_putEnded, ended_dequeue]
    split_ifs at hr₁ with heq
    · obtain rfl := Option.some.inj hr₁
      exact ⟨r', List.mem_append_right _ (List.mem_singleton_self _), hnode.trans heq, rfl⟩
    · obtain ⟨r₂, hr₂, hnode₂, hstate⟩ := h.ended k r₁ hr₁ hterm₁
      exact ⟨r₂, List.mem_append_left _ hr₂, hnode₂, hstate⟩

/-- A node that waited is queued. -/
theorem Listed.queue (h : Listed p s) {n : NodeId} {r : NodeRun} (hr : s.run? n = some r)
    (hnode : r.node = n) (hpending : r.state = .pending) : Listed p (s.queue p r n) := by
  have hrun : ∀ k, (s.queue p r n).run? k = if n = k then some r.markReady else s.run? k := by
    intro k
    rw [run?_queue, hnode]
  have hnew : (p.rank n, n) ∉ s.ready := by
    intro hin
    obtain ⟨-, r₁, hr₁, hready⟩ := (h.ready _).mp hin
    obtain rfl : r = r₁ := Option.some.inj (hr.symm.trans hr₁)
    rw [hpending] at hready
    simp at hready
  refine ⟨?_, ?_, ?_, ?_⟩
  · intro e
    have hmem : e ∈ (s.queue p r n).ready ↔ e = (p.rank n, n) ∨ e ∈ s.ready :=
      mem_enqueue (p.rank n, n) e s.ready
    rw [hmem, hrun, h.ready e]
    by_cases he : n = e.2
    · subst he
      rw [if_pos rfl]
      constructor
      · rintro (heq | ⟨hrank, -⟩)
        · exact ⟨congrArg Prod.fst heq, r.markReady, rfl, rfl⟩
        · exact ⟨hrank, r.markReady, rfl, rfl⟩
      · rintro ⟨hrank, -⟩
        exact Or.inl (Prod.ext hrank rfl)
    · have hne : e ≠ (p.rank n, n) := fun heq => he (congrArg Prod.snd heq).symm
      simp [he, hne]
  · exact (enqueue_perm hnew).nodup_iff.mpr (List.nodup_cons.mpr ⟨hnew, h.nodup⟩)
  · intro r₁ hr₁
    obtain ⟨hterm₁, r₂, hr₂, hsame⟩ := h.known r₁ hr₁
    refine ⟨hterm₁, r₂, ?_, hsame⟩
    rw [hrun, if_neg, hr₂]
    intro heq
    rw [← heq, hr] at hr₂
    obtain rfl := Option.some.inj hr₂
    rw [← hsame, hpending] at hterm₁
    simp [RunState.isTerminal] at hterm₁
  · intro k r₁ hr₁ hterm₁
    rw [hrun] at hr₁
    split_ifs at hr₁ with heq
    · obtain rfl := Option.some.inj hr₁
      simp [NodeRun.markReady, RunState.isTerminal] at hterm₁
    · exact h.ended k r₁ hr₁ hterm₁

theorem live_of_isUnstarted {r : NodeRun} (h : isUnstarted r = true) :
    r.state.isTerminal = false := by
  unfold isUnstarted at h
  simp only [Bool.and_eq_true, Bool.not_eq_true'] at h
  exact h.1

/-- Each signal keeps the lists. -/
theorem Listed.react (h : Listed p s) (hp : p.Sound) (hs : Shape p s)
    (hreact : Reacts p now s sig s' more) : Listed p s' := by
  have hput : ∀ {n : NodeId} {r r' : NodeRun}, s.run? n = some r → r'.node = n →
      r'.state = r.state → Listed p (s.put r') := by
    intro n r r' hr hnode hstate
    refine h.of_same rfl rfl ?_
    intro k
    rw [run?_put, hnode]
    split_ifs with heq
    · rw [← heq, hr]
      simp [hstate]
    · rfl
  cases hreact with
  | routeNested =>
    refine h.of_same rfl rfl ?_
    intro k
    rw [run?_hand]
    split_ifs
    · cases s.run? k <;> rfl
    · rfl
  | routeMember | writeIdle | resolveIdle | resolveFails | forgoKeeps | promoteIdle | promoteSkips
  | cascade | feederSkips | feederFails | feederCounts | feederIdle | skipIdle | failIdle
  | settleIdle | settles => exact h
  | routeResult | routeNowhere => exact h.of_same rfl rfl fun _ => rfl
  | writeTaken _ hid _ hd | writeRejected _ hid _ hd =>
    exact hput hid ((NodeRun.deliver_kept hd).1.trans (hs.node _ _ hid)) (NodeRun.deliver_kept hd).2.1
  | @resolveDecides c r holds =>
    refine h.of_same (ready_decide s c p holds) (ended_decide s c p holds) ?_
    intro k
    rw [run?_decide s _ _ p _ (hp.nodup_exclusive _)]
    split_ifs
    · cases s.run? k <;> rfl
    · rfl
  | forgoDrops =>
    refine h.of_same rfl rfl ?_
    intro k
    rw [run?_change]
    split_ifs
    · cases s.run? k <;> rfl
    · rfl
  | promoteAgain hid hsat hpromotions =>
    rw [(hs.clear _ _ hid).fresh (NodeRun.pending_of_isSatisfied hsat).1] at hpromotions
    exact absurd hpromotions (lt_irrefl 0)
  | promoteQueues hid hsat =>
    exact h.queue hid (hs.node _ _ hid) (NodeRun.pending_of_isSatisfied hsat).1
  | @feederDrops id origin port r _ _ hid => exact hput hid (hs.node id r hid) rfl
  | @skips id reason r hid hunstarted | @fails id e r hid hunstarted =>
    exact h.putEnded hid (live_of_isUnstarted hunstarted) (hs.node id r hid) rfl

end Step

end PortGraph.Scope
