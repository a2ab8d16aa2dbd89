import PortGraph.Proofs.Plan.Rings
import PortGraph.Proofs.Scope.Recorded

/-!
Where failures come from. A node that is skipped for a failure names a node of its scope that failed
by itself or that nothing reaches. From that one the failure has come along what nodes supply, and
each node on its way was skipped for it.
-/

namespace PortGraph.Scope

open Plan Relation

/-- A failure begins with the member: it failed, or no source reaches it. -/
def Root (s : Scope) (o : NodeId) : Prop :=
  ∃ r, s.run? o = some r ∧ (r.state = .failed ∨
    (s.owner = none ∧ r.state = .skipped ∧ r.skipReason = some .unreachable))

/-- The member was skipped because the other one failed. -/
def SkippedFor (s : Scope) (o n : NodeId) : Prop :=
  ∃ r, s.run? n = some r ∧ r.state = .skipped ∧ r.skipReason = some (.feederFailed o)

section Blame

variable (p : Plan) (s : Scope) (o : NodeId)

/-- A failure goes on to a node that was supplied. -/
def PassedOn (m n : NodeId) : Prop := p.Supplies s.owner m n ∧ s.SkippedFor o n

/-- A failure has come as far as the member. -/
def Blamed (m : NodeId) : Prop := s.Root o ∧ ReflTransGen (PassedOn p s o) o m

/-- A failure has come to somebody who supplies the member. -/
def Reaches (n : NodeId) : Prop := ∃ m, Blamed p s o m ∧ p.Supplies s.owner m n

end Blame

/-- The signal is about a failure that has come to where it says. -/
def Blames (p : Plan) (s : Scope) : Signal → Prop
  | .cascade m o => Blamed p s o m
  | .feederFailed n _ o | .skip n (.feederFailed o) => Reaches p s o n
  | _ => True

structure Attributed (p : Plan) (s : Scope) (sigs : List Signal) : Prop where
  signals : ∀ sig ∈ sigs, Blames p s sig
  failedPorts : ∀ n r q o, s.run? n = some r → r.failedPorts.find? q = some o → Reaches p s o n
  skipped : ∀ o n, s.SkippedFor o n → Reaches p s o n

variable {p : Plan} {now : Timestamp} {given : List (PortRef × Json)} {s s' t : Scope}
variable {sig : Signal} {sigs rest more left : List Signal} {o m n : NodeId} {r r' : NodeRun}

/-! ### Blame stays -/

section Later

variable (h : Later s s')
include h

theorem Later.root (ho : s.Root o) : s'.Root o := by
  obtain ⟨r, hr, hstate⟩ := ho
  have hterm : r.state.isTerminal = true := by
    rcases hstate with hstate | ⟨-, hstate, -⟩ <;> rw [hstate] <;> rfl
  obtain ⟨r', hr', hsame, -, hreason, -⟩ := h.ended o r hr hterm
  exact ⟨r', hr', by rwa [hsame, hreason, h.owner]⟩

theorem Later.skippedFor (hn : s.SkippedFor o n) : s'.SkippedFor o n := by
  obtain ⟨r, hr, hstate, hreason⟩ := hn
  obtain ⟨r', hr', hsame, -, hreason', -⟩ := h.ended n r hr (by rw [hstate]; rfl)
  exact ⟨r', hr', hsame.trans hstate, hreason'.trans hreason⟩

theorem Later.blamed (hm : Blamed p s o m) : Blamed p s' o m := by
  refine ⟨h.root hm.1, ReflTransGen.mono ?_ o m hm.2⟩
  rintro a b ⟨hsupplies, hskipped⟩
  exact ⟨by rwa [h.owner], h.skippedFor hskipped⟩

theorem Later.reaches (hn : Reaches p s o n) : Reaches p s' o n := by
  obtain ⟨m, hm, hsupplies⟩ := hn
  exact ⟨m, h.blamed hm, by rwa [h.owner]⟩

theorem Later.blames (hsig : Blames p s sig) : Blames p s' sig := by
  unfold Blames at hsig ⊢
  split
  · exact h.blamed hsig
  · exact h.reaches hsig
  · exact h.reaches hsig
  · trivial

end Later

theorem blamed_of_root (h : s.Root o) : Blamed p s o o := ⟨h, .refl⟩

theorem Reaches.blamed (h : Reaches p s o n) (hn : s.SkippedFor o n) : Blamed p s o n := by
  obtain ⟨m, ⟨hroot, hchain⟩, hsupplies⟩ := h
  exact ⟨hroot, hchain.tail ⟨hsupplies, hn⟩⟩

/-! ### One signal -/

section Step

variable (hp : p.Sound) (hs : Shape p s) (h : Attributed p s (sig :: rest))
  (hreact : Reacts p now s sig s' more)
include hp hs h hreact

theorem blames_more : ∀ next ∈ more, Blames p s' next := by
  have hlater := hreact.later hp hs
  have hhead : Blames p s sig := h.signals sig List.mem_cons_self
  intro next hnext
  cases hreact with
  | @cascade source origin =>
    obtain ⟨c, hc, hnext⟩ := mem_reactCascade.mp hnext
    have hfeeds : p.Feeds source (inputOf c) := ⟨c, hc, rfl⟩
    rcases hnext with ⟨id, hroute, rfl⟩ | ⟨loop, hroute, rfl⟩
    · exact ⟨source, hhead, _, hfeeds, Or.inl hroute⟩
    · exact ⟨source, hhead, _, hfeeds, Or.inr hroute⟩
  | feederSkips =>
    obtain rfl := List.mem_singleton.mp hnext
    exact hhead
  | @promoteSkips id origin r hr _ hchoice =>
    obtain rfl := List.mem_singleton.mp hnext
    obtain ⟨holds, -, hfailed⟩ := Option.bind_eq_some_iff.mp hchoice
    exact h.failedPorts id r _ origin hr hfailed
  | @skips id reason r hr hunstarted =>
    rcases mem_skipped.mp hnext with ⟨origin, rfl, rfl⟩ | rfl
    · refine (hlater.reaches hhead).blamed ⟨r.skip now (.feederFailed origin), ?_, rfl, rfl⟩
      rw [run?_putEnded, node_skip, hs.node id r hr, if_pos rfl]
    · trivial
  | @fails id e r hr hunstarted =>
    simp only [List.mem_cons, List.not_mem_nil, or_false] at hnext
    rcases hnext with rfl | rfl
    · refine blamed_of_root ⟨r.fail now e, ?_, Or.inl rfl⟩
      rw [run?_putEnded, node_fail, hs.node id r hr, if_pos rfl]
    · trivial
  | writeTaken =>
    split_ifs at hnext
    · simp only [List.mem_cons, List.not_mem_nil, or_false] at hnext
      rcases hnext with rfl | rfl <;> trivial
    · obtain rfl := List.mem_singleton.mp hnext
      trivial
  | resolveDecides =>
    rcases mem_decided.mp hnext with ⟨k, -, rfl⟩ | ⟨k, -, rfl⟩ | rfl <;> trivial
  | settles =>
    obtain ⟨k, -, rfl⟩ := List.mem_map.mp hnext
    trivial
  | routeMember | routeNested | writeRejected | resolveFails | forgoDrops | forgoKeeps
    | feederFails | feederCounts | feederDrops =>
    obtain rfl := List.mem_singleton.mp hnext
    trivial
  | _ => simp at hnext

theorem reaches_of_failedPorts {q : String} (hr' : s'.run? n = some r')
    (ho : r'.failedPorts.find? q = some o) : Reaches p s' o n := by
  have hlater := hreact.later hp hs
  have hhead : Blames p s sig := h.signals sig List.mem_cons_self
  obtain ⟨r, hr, hevolves⟩ := hreact.evolved hp hs hr'
  have hold : r.failedPorts.find? q = some o → Reaches p s' o n :=
    fun hq => hlater.reaches (h.failedPorts n r q o hr hq)
  cases hevolves with
  | deliver _ _ _ hd =>
    rw [(NodeRun.deliver_kept hd).2.2.2.2.2.2.2.2.1] at ho
    exact hold ho
  | @lose port origin hsig =>
    change (r.failedPorts.insert port origin).find? q = some o at ho
    rw [Table.find?_insert] at ho
    split_ifs at ho
    · obtain rfl := Option.some.inj ho
      rw [hsig, hs.node n r hr] at hhead
      exact hlater.reaches hhead
    · exact hold ho
  | _ => exact hold ho

theorem reaches_of_skippedFor (hn : s'.SkippedFor o n) : Reaches p s' o n := by
  have hlater := hreact.later hp hs
  have hhead : Blames p s sig := h.signals sig List.mem_cons_self
  obtain ⟨r', hr', hstate, hreason⟩ := hn
  obtain ⟨r, hr, hevolves⟩ := hreact.evolved hp hs hr'
  cases hended : r.state.isTerminal with
  | true =>
    obtain ⟨hsame, -, -, -, hsame', -⟩ := hevolves.settled (isUnstarted_of_isTerminal hended)
    exact hlater.reaches (h.skipped o n ⟨r, hr, hsame.symm.trans hstate, hsame'.symm.trans hreason⟩)
  | false =>
    rcases hevolves.ended hended (by rw [hstate]; rfl) with
      ⟨reason, hsig, -, rfl⟩ | ⟨e, -, -, rfl⟩
    · obtain rfl := Option.some.inj hreason
      rw [hsig, hs.node n r hr] at hhead
      exact hlater.reaches hhead
    · simp at hstate

theorem Attributed.react : Attributed p s' (more ++ rest) where
  signals := by
    intro next hnext
    rcases List.mem_append.mp hnext with hnext | hnext
    · exact blames_more hp hs h hreact next hnext
    · exact (hreact.later hp hs).blames (h.signals next (List.mem_cons_of_mem _ hnext))
  failedPorts := fun n r q o hr ho => reaches_of_failedPorts hp hs h hreact hr ho
  skipped := fun o n hn => reaches_of_skippedFor hp hs h hreact hn

end Step

/-! ### The life of a scope -/

/-- What is known of failures stays known when a run starts or ends without being skipped. -/
theorem Attributed.goOn (h : Attributed p s []) (hlater : Later s s')
    (hports : ∀ n r', s'.run? n = some r' → ∃ r, s.run? n = some r ∧ r'.failedPorts = r.failedPorts)
    (hskipped : ∀ o n, s'.SkippedFor o n → s.SkippedFor o n)
    (hsigs : ∀ sig ∈ sigs, Blames p s' sig) : Attributed p s' sigs where
  signals := hsigs
  failedPorts := by
    intro n r' q o hr' ho
    obtain ⟨r, hr, hsame⟩ := hports n r' hr'
    rw [hsame] at ho
    exact hlater.reaches (h.failedPorts n r q o hr ho)
  skipped := fun o n hn => hlater.reaches (h.skipped o n (hskipped o n hn))

theorem Attributed.conclude (hs : Coherent p given s []) (h : Attributed p s []) (c : Completion)
    (hr : s.run? c.node = some r) (hrunning : r.state = .running) :
    Attributed p (s.putEnded (concluded now { r with attempts := c.attempts } c.outcome))
      (announced p c.node c.outcome) := by
  have hends := concludes_concluded now r c.attempts c.outcome
  refine h.goOn (later_conclude hs hr hrunning hends) ?_ ?_ ?_
  · intro n r' hr'
    rcases run?_conclude_cases hs hr hends hr' with ⟨rfl, rfl⟩ | ⟨-, hold⟩
    · exact ⟨r, hr, hends.failedPorts⟩
    · exact ⟨r', hold, rfl⟩
  · rintro o n ⟨r', hr', hstate, hreason⟩
    rcases run?_conclude_cases hs hr hends hr' with ⟨rfl, rfl⟩ | ⟨-, hold⟩
    · exact absurd hstate hends.notSkipped
    · exact ⟨r', hold, hstate, hreason⟩
  · intro sig hsig
    cases hout : c.outcome with
    | succeeded outputs =>
      rw [hout] at hsig
      obtain ⟨v, -, rfl⟩ := List.mem_map.mp hsig
      trivial
    | failed e =>
      rw [hout] at hsig
      simp only [announced, List.mem_cons, List.not_mem_nil, or_false] at hsig
      rcases hsig with rfl | rfl
      · have hfails := run?_conclude hs hr (concludes_concluded now r c.attempts (.failed e)) c.node
        exact blamed_of_root ⟨_, hfails.trans (if_pos rfl), Or.inl (state_fail _ now e)⟩
      · trivial
    | _ =>
      rw [hout] at hsig
      simp [announced] at hsig

theorem Attributed.start (hs : Coherent p given s []) (h : Attributed p s [])
    (hstart : s.startNext? now = some (s', r')) : Attributed p s' [] := by
  obtain ⟨m, k, r, rest, -, hr, -, rfl, rfl⟩ := startNext?_eq_some hs hstart
  refine h.goOn (hs.startNext hstart).2.1 ?_ ?_ (by simp)
  · intro n r₁ hr₁
    rcases run?_started_cases hs hr hr₁ with ⟨rfl, rfl⟩ | ⟨-, hold⟩
    · exact ⟨r, hr, rfl⟩
    · exact ⟨r₁, hold, rfl⟩
  · rintro o n ⟨r₁, hr₁, hstate, hreason⟩
    rcases run?_started_cases hs hr hr₁ with ⟨rfl, rfl⟩ | ⟨-, hold⟩
    · simp [NodeRun.start] at hstate
    · exact ⟨r₁, hold, hstate, hreason⟩

theorem Attributed.close (hs : Coherent p given s []) (h : Attributed p s []) (aborted : Bool) :
    Attributed p (s.close now aborted) [] := by
  refine h.goOn (later_close hs.shape aborted) ?_ ?_ (by simp)
  · intro n r hr
    obtain ⟨r₀, hr₀, -, -, hports⟩ := run?_of_close hs.shape aborted hr
    exact ⟨r₀, hr₀, hports⟩
  · rintro o n ⟨r, hr, hstate, hreason⟩
    rw [run?_close hs.shape] at hr
    obtain ⟨r₀, hr₀, rfl⟩ := Option.map_eq_some_iff.mp hr
    split_ifs at hstate hreason
    · exact ⟨r₀, hr₀, hstate, hreason⟩
    · -- a run that is left over names nobody
      unfold leftOver at hstate hreason
      split_ifs at hstate hreason
      · simp at hstate
      · simp at hreason

theorem attributed_opening (hp : p.Sound) (now : Timestamp) (owner : ScopeId)
    (deliveries : List (PortRef × Json)) :
    Attributed p (opening p now owner) (openingSignals p owner deliveries) := by
  refine ⟨?_, ?_, ?_⟩
  · intro sig hsig
    unfold openingSignals at hsig
    simp only [List.mem_append, List.mem_map] at hsig
    rcases hsig with ((⟨n, hn, rfl⟩ | ⟨n, -, rfl⟩) | ⟨d, -, rfl⟩) | ⟨n, -, rfl⟩
    · -- nothing reaches it
      obtain ⟨howner, hmem, hun⟩ := (mem_unreached owner).mp hn
      have hmember := (shape_opening now owner hp).member n
      rw [(opening_spec now owner hp).2.2.2.1] at hmember
      obtain ⟨r, hr⟩ := Option.isSome_iff_exists.mp (hmember.mpr hmem)
      obtain ⟨-, node, r₀, -, -, -, ⟨hnot, -⟩ | ⟨-, rfl⟩⟩ := opening_run now owner hp hr
      · exact absurd hn hnot
      · refine blamed_of_root ⟨_, hr, Or.inr ⟨?_, rfl, rfl⟩⟩
        rw [(opening_spec now owner hp).2.2.2.1, howner]
    · trivial
    · trivial
    · trivial
  · intro n r q o hr ho
    obtain ⟨-, node, r₀, -, -, hfresh, ⟨-, rfl⟩ | ⟨-, rfl⟩⟩ := opening_run now owner hp hr
    · simp [hfresh.failedPorts] at ho
    · change r₀.failedPorts.find? q = some o at ho
      simp [hfresh.failedPorts] at ho
  · rintro o n ⟨r, hr, hstate, hreason⟩
    obtain ⟨-, node, r₀, -, -, hfresh, ⟨-, rfl⟩ | ⟨-, rfl⟩⟩ := opening_run now owner hp hr
    · simp [hfresh.state] at hstate
    · simp at hreason

end PortGraph.Scope
