import PortGraph.Proofs.Plan.Rings
import PortGraph.Proofs.Scope.Recorded

/-!
How far failures go. Whoever a failed member supplies is told, and ends without a value unless it is
a condition for which an error counts as false. Nobody else starts before all who supply it have
ended well, or are behind the branch that it does without.
-/

namespace PortGraph

open Plan

/-- The node may start, or was started. -/
def NodeRun.Due (r : NodeRun) : Prop := r.state = .ready ∨ r.startedAt.isSome = true

namespace Scope

/-- The member has ended in a way that it passes on: it failed, or was skipped because of a failure
or because nothing reaches it. -/
def Doomed (s : Scope) (m : NodeId) : Prop :=
  ∃ r, s.run? m = some r ∧ (r.state = .failed ∨ (r.state = .skipped ∧
    (r.skipReason = some .unreachable ∨ ∃ o, r.skipReason = some (.feederFailed o))))

/-- The signal will end a node that the member supplies. -/
inductive Dooms (p : Plan) (s : Scope) (m n : NodeId) : Signal → Prop
  | ends {sig : Signal} : Ends p s n sig → Dooms p s m n sig
  | cascade {o : NodeId} : Dooms p s m n (.cascade m o)
  | failed {q : String} {o : NodeId} : Dooms p s m n (.feederFailed n q o)

structure Contained (p : Plan) (s : Scope) (sigs : List Signal) : Prop where
  told : ∀ m n, s.Doomed m → p.Supplies s.owner m n → ¬ Tolerant p n →
    s.Lost n ∨ ∃ sig ∈ sigs, Dooms p s m n sig
  heeded : ∀ m n r, (s.run? m).isSome = true → s.run? n = some r → r.startedAt.isSome = true →
    p.Supplies s.owner m n → ¬ Tolerant p n → s.Ended m ∧ ¬ s.Doomed m

variable {p : Plan} {now : Timestamp} {given : List (PortRef × Json)} {s s' t : Scope}
variable {sig : Signal} {sigs rest more left : List Signal} {m n : NodeId} {r r' : NodeRun}

theorem Doomed.ended (h : s.Doomed m) : s.Ended m := by
  obtain ⟨r, hr, hstate⟩ := h
  refine ⟨r, hr, ?_⟩
  rcases hstate with hstate | ⟨hstate, -⟩ <;> rw [hstate] <;> rfl

/-- Who has ended is doomed later if and only if it is now. -/
theorem Later.doomed_iff (h : Later s s') (hm : s.Ended m) : s'.Doomed m ↔ s.Doomed m := by
  obtain ⟨r, hr, hterm⟩ := hm
  obtain ⟨r', hr', hstate, -, hreason, -⟩ := h.ended m r hr hterm
  unfold Doomed
  simp [hr, hr', hstate, hreason]

theorem Dooms.later (hlater : Later s s') (hcause : Cause p given s sig) (h : Dooms p s m n sig) :
    Dooms p s' m n sig := by
  cases h with
  | ends h => exact .ends (h.later hlater hcause)
  | cascade => exact .cascade
  | failed => exact .failed

/-- A member has ended without a value, or can still end without having run, or was started. -/
theorem lost_or_unstarted (hs : Shape p s) (h : Sourced p given s sigs) (hr : s.run? n = some r) :
    s.Lost n ∨ isUnstarted r = true ∨ r.startedAt.isSome = true := by
  cases hstart : r.startedAt with
  | some at' => exact Or.inr (Or.inr rfl)
  | none =>
    cases hunstarted : isUnstarted r with
    | true => exact Or.inr (Or.inl rfl)
    | false =>
      have hrunning : r.state ≠ .running := by
        intro hstate
        have hsome := (hs.clear n r hr).running hstate
        rw [hstart] at hsome
        simp at hsome
      have hterm : r.state.isTerminal = true := by
        simpa [isUnstarted, hrunning] using hunstarted
      rcases h.ended n r hr hterm hstart with ⟨hstate, -⟩ | ⟨hstate, -⟩
      · exact Or.inl ⟨r, hr, Or.inr hstate⟩
      · exact Or.inl ⟨r, hr, Or.inl hstate⟩

theorem started_of_succeeded (hs : Shape p s) (h : Sourced p given s sigs)
    (hr : s.run? n = some r) (hstate : r.state = .succeeded) : r.startedAt.isSome = true := by
  rcases lost_or_unstarted hs h hr with ⟨r', hr', hlost⟩ | hunstarted | hstart
  · obtain rfl := Option.some.inj (hr.symm.trans hr')
    simp [hstate] at hlost
  · simp [isUnstarted, hstate, RunState.isTerminal] at hunstarted
  · exact hstart

/-! ### One signal -/

section Step

variable (hp : p.Sound) (hu : p.Untangled) (hs : Shape p s)
  (hreact : Reacts p now s sig s' more)
include hp hu hs hreact

/-- A signal that will end a node does so, or the next ones will. -/
theorem Dooms.react (h : Dooms p s m n sig) (hsupplies : p.Supplies s.owner m n)
    (htolerant : ¬ Tolerant p n) (hr' : s'.run? n = some r') (hunstarted : isUnstarted r' = true) :
    ∃ next ∈ more, Dooms p s' m n next := by
  cases h with
  | ends h =>
    obtain ⟨next, hnext, hends⟩ := h.react hp hu hs hreact hr' hunstarted
    exact ⟨next, hnext, .ends hends⟩
  | @cascade o =>
    cases hreact with
    | cascade =>
      obtain ⟨x, hfeeds, hroute | hroute⟩ := hsupplies
      · obtain ⟨rfl, -⟩ := (hp.route_eq_member_iff hu).mp hroute
        exact ⟨_, mem_cascade_member hfeeds hroute, .failed⟩
      · exact ⟨_, mem_cascade_nested hfeeds hroute, .ends .skip⟩
  | failed =>
    cases hreact with
    | feederSkips => exact ⟨_, List.mem_singleton_self _, .ends .skip⟩
    | feederFails => exact ⟨_, List.mem_singleton_self _, .ends .fail⟩
    | feederCounts htol | feederDrops htol | feederIdle htol => exact absurd htol htolerant

omit hu in
/-- Whoever is doomed by a signal tells those that it supplies. -/
theorem cascade_of_doomed (hsourced : Sourced p given s (sig :: rest)) (hm : s'.Doomed m)
    (hbefore : ¬ s.Ended m) : ∃ o, .cascade m o ∈ more := by
  obtain ⟨r', hr', hstate⟩ := id hm
  obtain ⟨r, hr, hevolves⟩ := hreact.evolved hp hs hr'
  have hnode := hs.node m r hr
  have hlive : r.state.isTerminal = false := by
    by_contra hterm
    exact hbefore ⟨r, hr, by simpa using hterm⟩
  obtain ⟨r₁, hr₁, hterm⟩ := hm.ended
  obtain rfl := Option.some.inj (hr'.symm.trans hr₁)
  rcases hevolves.ended hlive hterm with ⟨reason, hsig, hunstarted, rfl⟩ | ⟨e, hsig, hunstarted, rfl⟩
  · rw [hnode] at hsig
    subst hsig
    have hreason : reason ≠ .unreachable :=
      (show _ ∧ _ from hsourced.causes _ List.mem_cons_self).1
    obtain ⟨o, rfl⟩ : ∃ o, reason = .feederFailed o := by
      rcases hstate with hstate | ⟨-, hunreachable | ⟨o, ho⟩⟩
      · simp at hstate
      · exact absurd (Option.some.inj hunreachable) hreason
      · exact ⟨o, Option.some.inj ho⟩
    cases hreact with
    | skipIdle hidle =>
      rw [hidle r hr] at hunstarted
      simp at hunstarted
    | skips => exact ⟨o, by simp [SkipReason.failedOrigin?]⟩
  · rw [hnode] at hsig
    subst hsig
    cases hreact with
    | failIdle hidle =>
      rw [hidle r hr] at hunstarted
      simp at hunstarted
    | fails => exact ⟨m, by simp⟩

theorem Contained.react (hsourced : Sourced p given s (sig :: rest))
    (hgiven : p.Proper s.owner given) (h : Contained p s (sig :: rest)) :
    Contained p s' (more ++ rest) := by
  have hlater := hreact.later hp hs
  have hshape' := hs.react hp hreact
  have hheeded : ∀ m n r', (s'.run? m).isSome = true → s'.run? n = some r' →
      r'.startedAt.isSome = true → p.Supplies s'.owner m n → ¬ Tolerant p n →
        s'.Ended m ∧ ¬ s'.Doomed m := by
    intro m n r' hm hr' hstart hsupplies htolerant
    obtain ⟨r, hr, hevolves⟩ := hreact.evolved hp hs hr'
    rw [hshape'.member, hlater.owner, ← hs.member] at hm
    rw [hevolves.startedAt] at hstart
    rw [hlater.owner] at hsupplies
    obtain ⟨hended, hwell⟩ := h.heeded m n r hm hr hstart hsupplies htolerant
    exact ⟨hlater.isEnded hended, fun hdoomed => hwell ((hlater.doomed_iff hended).mp hdoomed)⟩
  refine ⟨?_, hheeded⟩
  intro m n hm hsupplies htolerant
  obtain ⟨r', hr'⟩ := Option.isSome_iff_exists.mp
    ((hshape'.member n).mpr (hp.mem_of_supplies hu hsupplies))
  rcases lost_or_unstarted hshape' (hsourced.react hp hu hs hgiven hreact) hr' with
    hlost | hunstarted | hstart
  · exact Or.inl hlost
  · by_cases hbefore : s.Ended m
    · rw [hlater.owner] at hsupplies
      rcases h.told m n ((hlater.doomed_iff hbefore).mp hm) hsupplies htolerant with
        hlost | ⟨next, hnext, hdooms⟩
      · exact Or.inl (hlater.lost hlost)
      · refine Or.inr ?_
        rcases List.mem_cons.mp hnext with rfl | hnext
        · obtain ⟨next, hnext, hdooms⟩ :=
            hdooms.react hp hu hs hreact hsupplies htolerant hr' hunstarted
          exact ⟨next, List.mem_append_left _ hnext, hdooms⟩
        · exact ⟨next, List.mem_append_right _ hnext,
            hdooms.later hlater (hsourced.causes next (List.mem_cons_of_mem _ hnext))⟩
    · obtain ⟨o, ho⟩ := cascade_of_doomed hp hs hreact hsourced hm hbefore
      exact Or.inr ⟨_, List.mem_append_left _ ho, .cascade⟩
  · -- it was not started: who supplies it is doomed
    obtain ⟨rm, hrm, -⟩ := hm.ended
    exact absurd hm (hheeded m n r' (by rw [hrm]; rfl) hr' hstart hsupplies htolerant).2

end Step

/-! ### The life of a scope -/

/-- A member that has sent a value has succeeded. -/
theorem succeeded_of_offered (hp : p.Sound) (hgiven : p.Proper s.owner given) {x : PortRef}
    {v : Json} (h : Offered p given s x v) (hm : m ∈ p.membersIn s.owner) (hfeeds : p.Feeds m x) :
    ∃ r, s.run? m = some r ∧ r.state = .succeeded := by
  rcases h with ⟨k, r, o, hr, hstate, -, hmem⟩ | hmem
  · obtain ⟨c, hc, ht, -⟩ := mem_outboundValues.mp hmem
    obtain rfl := hp.feeds_unique ⟨c, hc, ht⟩ hfeeds
    exact ⟨r, hr, hstate⟩
  · exact absurd ((hgiven.complete x).mp (List.mem_map.mpr ⟨_, hmem, rfl⟩))
      (hp.not_external_of_feeds hm hfeeds)

section Rest

variable (hp : p.Sound) (hu : p.Untangled) (h : Coherent p given s [])
include hp hu h

omit hu in
/-- In a scope at rest, who is behind a branch that is not taken has ended. -/
theorem ended_of_notTaken {c : NodeId} {branch : Branch} (hc : NotTaken s c branch)
    (hm : m ∈ p.exclusive ⟨c, branch⟩) (hr : s.run? m = some r) : s.Ended m := by
  refine ⟨r, hr, ?_⟩
  by_contra hlive
  by_cases hrunning : r.state = .running
  · -- the gates of who runs are open
    obtain ⟨holds, hres, hbranch⟩ := isOpen_iff.mp
      (h.gates_open hp hr (Or.inr ((h.shape.clear m r hr).running hrunning)) hm)
    obtain ⟨holds', hres', rfl⟩ := hc
    obtain rfl := Option.some.inj (hres.symm.trans hres')
    cases holds <;> simp [Branch.taken, Branch.other] at hbranch
  · obtain ⟨sig, hsig, -⟩ := h.owed.barred m r ⟨c, branch⟩ hr
      (by simpa [isUnstarted, hrunning] using hlive) (hp.mem_gates_iff.mpr hm) (Or.inl hc)
    simp at hsig

omit hp hu in
/-- A member that may start or was started waits for nothing. -/
theorem free_of_due (hr : s.run? n = some r) (hdue : r.Due) :
    r.pendingInputs = [] ∧ r.pendingCaptures = 0 ∧ r.pendingGates = 0 := by
  refine (h.shape.clear n r hr).free ?_
  rcases hdue with hready | hstart
  · exact Or.inl hready
  · exact Or.inr (Or.inr (Or.inl hstart))

omit hu in
/-- What a member that may start or was started has at a connected input: the value supplied for it,
a failure that the node puts up with, or nothing because the branch there is not taken. -/
theorem input_of_due (hr : s.run? n = some r) (hdue : r.Due) {node : Node}
    (hnode : p.node? n = some node) {q : String} (hq : q ∈ p.connectedInputs node) :
    (∃ v w, Supplied p given s n q v ∧ NodeRun.Converts node q v w ∧
        r.inputs.find? q = some w) ∨
      (∃ o, r.failedPorts.find? q = some o) ∨
        ∃ branch, NotTaken s n branch ∧ FedBehind p n branch ∧ q = branch.port := by
  have hfree := (free_of_due h hr hdue).1
  have halive : isUnstarted r = true ∨ r.startedAt.isSome = true :=
    hdue.imp_left isUnstarted_of_ready
  rcases h.accounted.inputs n r node q hr hnode hq halive with
    hwaits | hvalue | hfailed | hbranch | ⟨-, e, rest, hsigs⟩
  · simp [hfree] at hwaits
  · obtain ⟨w, hw⟩ := Option.isSome_iff_exists.mp hvalue
    obtain ⟨node', v, hnode', hconverts, hv⟩ := h.sourced.inputs n r q w hr hw
    obtain rfl : node = node' := Option.some.inj (hnode.symm.trans hnode')
    rcases hv with hsupplied | hfallback
    · exact Or.inl ⟨v, w, hsupplied, hconverts, hw⟩
    · -- an input with a feeder takes no value from a property
      have hnone := inbound?_of_fallback hfallback
      rw [(Graph.node?_eq_some hnode).2] at hnone
      exact absurd hnone ((hp.mem_connectedInputs_iff hnode).mp hq).1
  · exact Or.inr (Or.inl (Option.isSome_iff_exists.mp hfailed))
  · exact Or.inr (Or.inr hbranch)
  · simp at hsigs

omit hu h in
/-- A feeder that is behind a branch belongs to it. -/
theorem mem_exclusive_of_fedBehind {branch : Branch} (hfeeds : p.Feeds m ⟨n, branch.port⟩)
    (hfed : FedBehind p n branch) : m ∈ p.exclusive ⟨n, branch⟩ := by
  obtain ⟨feeder, hfeeder, hmem⟩ := hfed
  obtain ⟨c, hc, ht⟩ := hfeeds
  have hin := hp.inbound?_of_forwardOut hc
  rw [ht, hfeeder] at hin
  obtain rfl := Option.some.inj hin
  exact hmem

/-- A member that feeds an input of one that may start or was started has sent the value, or is
behind a branch that is not taken. -/
theorem feeder_of_due (hr : s.run? n = some r) (hdue : r.Due) (htolerant : ¬ Tolerant p n)
    {q : String} (hfeeds : p.Feeds m ⟨n, q⟩) (hm : m ∈ p.membersIn s.owner) :
    (∃ v, Offered p given s ⟨n, q⟩ v) ∨
      ∃ branch, NotTaken s n branch ∧ m ∈ p.exclusive ⟨n, branch⟩ ∧ q = branch.port := by
  have hn := (h.shape.member n).mp (by rw [hr]; rfl)
  obtain ⟨node, hnode, -, -⟩ := hp.node?_of_mem_membersIn hn
  rcases input_of_due hp h hr hdue hnode (hp.connected_of_feeds hu hm hn hnode hfeeds) with
    ⟨v, w, hoffered | ⟨htol, -⟩, -⟩ | ⟨o, ho⟩ | ⟨branch, hbranch, hfed, rfl⟩
  · exact Or.inl ⟨v, hoffered⟩
  · exact absurd htol htolerant
  · exact absurd (h.sourced.failedPorts n r q o hr ho).1 htolerant
  · exact Or.inr ⟨branch, hbranch, mem_exclusive_of_fedBehind hp hfeeds hfed, rfl⟩

/-- A value has been sent for whatever the body of a loop that may start or was started takes from
around it. -/
theorem capture_of_due (hr : s.run? n = some r) (hdue : r.Due) {t : PortRef}
    (hfeeds : p.Feeds m t) (hm : m ∈ p.membersIn s.owner)
    (hroute : p.route s.owner t = some (.nested n)) : ∃ v, Offered p given s t v := by
  obtain ⟨lp, hlp, hcapture⟩ := hp.capture_of_nested hu (Or.inl ⟨m, hm, hfeeds⟩) hroute
  have hhanded := (h.counted.captures_zero_iff hp hu h.shape h.sourced h.proper hr hlp).mp
    (free_of_due h hr hdue).2.1 _ hcapture
  obtain ⟨⟨x, v⟩, hv, rfl⟩ := List.mem_map.mp hhanded
  exact ⟨v, (h.sourced.handed n _ v hv).1⟩

/-- Whoever supplies a member that may start has ended. -/
theorem ended_of_ready (hr : s.run? n = some r) (hready : r.state = .ready)
    (hsupplies : p.Supplies s.owner m n) (htolerant : ¬ Tolerant p n)
    (hm : (s.run? m).isSome = true) : s.Ended m := by
  obtain ⟨rm, hrm⟩ := Option.isSome_iff_exists.mp hm
  have hmember := (h.shape.member m).mp hm
  have hsent : ∀ {x v}, Offered p given s x v → p.Feeds m x → s.Ended m := by
    intro x v hoffered hfeeds
    obtain ⟨r₁, hr₁, hstate⟩ := succeeded_of_offered hp h.proper hoffered hmember hfeeds
    exact ⟨r₁, hr₁, by rw [hstate]; rfl⟩
  obtain ⟨⟨k, q⟩, hfeeds, hroute | hroute⟩ := hsupplies
  · obtain ⟨rfl, -⟩ := (hp.route_eq_member_iff hu).mp hroute
    rcases feeder_of_due hp hu h hr (Or.inl hready) htolerant hfeeds hmember with
      ⟨v, hoffered⟩ | ⟨branch, hbranch, hmem, -⟩
    · exact hsent hoffered hfeeds
    · exact ended_of_notTaken hp h hbranch hmem hrm
  · obtain ⟨v, hoffered⟩ := capture_of_due hp hu h hr (Or.inl hready) hfeeds hmember hroute
    exact hsent hoffered hfeeds

/-- Whoever supplies a member that may start has ended well. -/
theorem well_of_ready (hc : Contained p s []) (hr : s.run? n = some r) (hready : r.state = .ready)
    (hsupplies : p.Supplies s.owner m n) (htolerant : ¬ Tolerant p n)
    (hm : (s.run? m).isSome = true) : s.Ended m ∧ ¬ s.Doomed m := by
  refine ⟨ended_of_ready hp hu h hr hready hsupplies htolerant hm, fun hdoomed => ?_⟩
  rcases hc.told m n hdoomed hsupplies htolerant with ⟨r₁, hr₁, hlost⟩ | ⟨sig, hsig, -⟩
  · obtain rfl := Option.some.inj (hr.symm.trans hr₁)
    simp [hready] at hlost
  · simp at hsig

end Rest

/-- What is known of failures stays known in a later scope where those who are newly doomed tell the
others, and those who are newly started have been heeded. -/
theorem Contained.goOn (h : Contained p s []) (hlater : Later s s')
    (hmember : ∀ m, (s'.run? m).isSome = (s.run? m).isSome)
    (hdoomed : ∀ m, s'.Doomed m → s.Ended m ∨ ∃ o, .cascade m o ∈ sigs)
    (hstarted : ∀ n r', s'.run? n = some r' → r'.startedAt.isSome = true →
      (∃ r, s.run? n = some r ∧ r.startedAt.isSome = true) ∨
        ∃ r, s.run? n = some r ∧ ∀ m, (s.run? m).isSome = true → p.Supplies s.owner m n →
          ¬ Tolerant p n → s.Ended m ∧ ¬ s.Doomed m) : Contained p s' sigs := by
  refine ⟨?_, ?_⟩
  · intro m n hm hsupplies htolerant
    rw [hlater.owner] at hsupplies
    rcases hdoomed m hm with hended | ⟨o, ho⟩
    · rcases h.told m n ((hlater.doomed_iff hended).mp hm) hsupplies htolerant with
        hlost | ⟨sig, hsig, -⟩
      · exact Or.inl (hlater.lost hlost)
      · simp at hsig
    · exact Or.inr ⟨_, ho, .cascade⟩
  · intro m n r' hm hr' hstart hsupplies htolerant
    rw [hmember] at hm
    rw [hlater.owner] at hsupplies
    obtain ⟨hended, hwell⟩ : s.Ended m ∧ ¬ s.Doomed m := by
      rcases hstarted n r' hr' hstart with ⟨r, hr, hstart₀⟩ | ⟨r, hr, hheeded⟩
      · exact h.heeded m n r hm hr hstart₀ hsupplies htolerant
      · exact hheeded m hm hsupplies htolerant
    exact ⟨hlater.isEnded hended, fun hdoomed => hwell ((hlater.doomed_iff hended).mp hdoomed)⟩

theorem Contained.start (hp : p.Sound) (hu : p.Untangled) (hs : Coherent p given s [])
    (h : Contained p s []) (hstart : s.startNext? now = some (s', r')) : Contained p s' [] := by
  obtain ⟨hcoherent, hlater, -⟩ := hs.startNext hstart
  obtain ⟨k, j, r, rest, -, hr, hready, rfl, rfl⟩ := startNext?_eq_some hs hstart
  refine h.goOn hlater ?_ ?_ ?_
  · intro m
    rw [run?_started hs hr]
    split_ifs with heq
    · rw [← heq, hr]
      rfl
    · rfl
  · rintro m ⟨r₁, hr₁, hstate⟩
    rcases run?_started_cases hs hr hr₁ with ⟨rfl, rfl⟩ | ⟨-, hold⟩
    · simp [NodeRun.start] at hstate
    · exact Or.inl (Doomed.ended ⟨r₁, hold, hstate⟩)
  · intro n r₁ hr₁ hstarted
    rcases run?_started_cases hs hr hr₁ with ⟨rfl, rfl⟩ | ⟨-, hold⟩
    · exact Or.inr ⟨r, hr, fun m hm hsupplies htolerant =>
        well_of_ready hp hu hs h hr hready hsupplies htolerant hm⟩
    · exact Or.inl ⟨r₁, hold, hstarted⟩

theorem Contained.conclude (hs : Coherent p given s []) (h : Contained p s []) (c : Completion)
    (hr : s.run? c.node = some r) (hrunning : r.state = .running) :
    Contained p (s.putEnded (concluded now { r with attempts := c.attempts } c.outcome))
      (announced p c.node c.outcome) := by
  have hends := concludes_concluded now r c.attempts c.outcome
  refine h.goOn (later_conclude hs hr hrunning hends) ?_ ?_ ?_
  · intro m
    rw [run?_conclude hs hr hends]
    split_ifs with heq
    · rw [← heq, hr]
      rfl
    · rfl
  · rintro m ⟨r₁, hr₁, hstate⟩
    rcases run?_conclude_cases hs hr hends hr₁ with ⟨rfl, rfl⟩ | ⟨-, hold⟩
    · -- only a node that fails ends so
      cases hout : c.outcome with
      | failed e => exact Or.inr ⟨c.node, by simp [announced]⟩
      | _ =>
        rw [hout] at hstate
        simp [concluded] at hstate
    · exact Or.inl (Doomed.ended ⟨r₁, hold, hstate⟩)
  · intro n r₁ hr₁ hstart
    rcases run?_conclude_cases hs hr hends hr₁ with ⟨rfl, rfl⟩ | ⟨-, hold⟩
    · exact Or.inl ⟨r, hr, (hs.shape.clear _ r hr).running hrunning⟩
    · exact Or.inl ⟨r₁, hold, hstart⟩

theorem Contained.close (hs : Coherent p given s []) (h : Contained p s []) (aborted : Bool) :
    Contained p (s.close now aborted) [] := by
  refine h.goOn (later_close hs.shape aborted) ?_ ?_ ?_
  · intro m
    rw [run?_close hs.shape, Option.isSome_map]
  · rintro m ⟨r, hr, hstate⟩
    rw [run?_close hs.shape] at hr
    obtain ⟨r₀, hr₀, rfl⟩ := Option.map_eq_some_iff.mp hr
    split_ifs at hstate with hterm
    · exact Or.inl ⟨r₀, hr₀, hterm⟩
    · unfold leftOver at hstate
      split_ifs at hstate <;> simp at hstate
  · intro n r hr hstart
    obtain ⟨r₀, hr₀, -, hsame, -⟩ := run?_of_close hs.shape aborted hr
    exact Or.inl ⟨r₀, hr₀, by rw [← hsame]; exact hstart⟩

theorem contained_opening (hp : p.Sound) (now : Timestamp) (owner : ScopeId)
    (deliveries : List (PortRef × Json)) :
    Contained p (opening p now owner) (openingSignals p owner deliveries) := by
  refine ⟨?_, ?_⟩
  · rintro m n ⟨r, hr, hstate⟩ - -
    obtain ⟨-, node, r₀, -, -, hfresh, ⟨-, rfl⟩ | ⟨hm, rfl⟩⟩ := opening_run now owner hp hr
    · simp [hfresh.state] at hstate
    · refine Or.inr ⟨.cascade m m, ?_, .cascade⟩
      unfold openingSignals
      simp [hm]
  · intro m n r _ hr hstart
    simp [idle_opening now owner hp hr] at hstart

end Scope

end PortGraph
