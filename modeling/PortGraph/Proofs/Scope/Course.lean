import PortGraph.Proofs.Plan.Delivered
import PortGraph.Proofs.Scope.Closing
import PortGraph.Proofs.Scope.Seeded

/-!
The course of a scope, with the signals that it has worked off. A loop takes in a value for its body by
a signal, and each of these lowers its counter by one. Along every course the counter says how many
captures are still to come, so it is never lowered below zero, and a loop that was queued has taken in
one value for each capture.
-/

namespace PortGraph.Scope

open Plan

/-- How a scope comes about that was given these values: with the signals that it has yet to work off,
and those that it has worked off, the oldest first. -/
inductive Course (p : Plan) (owner : ScopeId) (given : List (PortRef × Json)) :
    Scope → List Signal → List Signal → Prop
  | opens (now : Timestamp) :
      Course p owner given (opening p now owner) (openingSignals p owner given) []
  | reacts {now : Timestamp} {s s' : Scope} {sig : Signal} {rest more done : List Signal} :
      Course p owner given s (sig :: rest) done → Reacts p now s sig s' more →
      Course p owner given s' (more ++ rest) (done ++ [sig])
  | starts {now : Timestamp} {s s' : Scope} {r : NodeRun} {done : List Signal} :
      Course p owner given s [] done → s.startNext? now = some (s', r) →
      Course p owner given s' [] done
  | concludes (now : Timestamp) {s : Scope} {r : NodeRun} {done : List Signal} (c : Completion) :
      Course p owner given s [] done → s.run? c.node = some r → r.state = .running →
      Course p owner given
        (s.putEnded (concluded now { r with attempts := c.attempts } c.outcome))
        (announced p c.node c.outcome) done
  | violates {s : Scope} {done : List Signal} (f : Fault) :
      Course p owner given s [] done → Course p owner given (s.violate f) [] done

/-- The value that a signal brings to a loop for its body. -/
def takenBy? (p : Plan) (owner : ScopeId) (l : NodeId) : Signal → Option (PortRef × Json)
  | .route t v => if p.route owner t = some (.nested l) then some (t, v) else none
  | _ => none

/-- The values that a loop has taken in for its body. -/
def taken (p : Plan) (owner : ScopeId) (l : NodeId) (done : List Signal) : List (PortRef × Json) :=
  done.filterMap (takenBy? p owner l)

/-- A scope whose loop has taken in values for these captures by the signals that were worked off. -/
structure Takes (p : Plan) (s : Scope) (sigs done : List Signal) (l : NodeId) (lp : LoopPlan) :
    Prop where
  /-- Each value that was taken in has lowered the counter by one. -/
  count : ∀ r, s.run? l = some r →
    r.pendingCaptures + (taken p s.owner l done).length = lp.captures.length
  /-- The counter is not at zero when the next value comes. -/
  room : ∀ r t v rest, s.run? l = some r → sigs = .route t v :: rest →
    p.route s.owner t = some (.nested l) → 0 < r.pendingCaptures
  single : ((taken p s.owner l done).map (·.1)).Nodup
  captured : ∀ x ∈ taken p s.owner l done, x.1 ∈ lp.captures.map Link.target
  queued : ∀ r, s.run? l = some r → 0 < r.promotions → r.pendingCaptures = 0 ∧
    ((taken p s.owner l done).map (·.1)).Perm (lp.captures.map Link.target)
  /-- What was taken in is kept for the iterations. -/
  kept : s.handedTo l = taken p s.owner l done

variable {p : Plan} {now : Timestamp} {owner : ScopeId} {given : List (PortRef × Json)}
variable {s s' t : Scope} {sig : Signal} {sigs done more left : List Signal} {l : NodeId}
variable {lp : LoopPlan}

/-- A scope that works off signals goes on in its course. -/
theorem Course.drains (h : Course p owner given s sigs done) (hdrains : Drains p now s sigs t left) :
    ∃ done', Course p owner given t left done' :=
  hdrains.keeps (P := fun u sigs => ∃ done', Course p owner given u sigs done')
    (fun _ _ _ _ _ ⟨_, hcourse⟩ hreact => ⟨_, hcourse.reacts hreact⟩) ⟨done, h⟩

theorem Reacts.handedTo (h : Reacts p now s sig s' more) (l : NodeId) :
    s'.handedTo l = s.handedTo l ++ taken p s.owner l [sig] := by
  cases h with
  | @routeNested t v k hroute =>
    rw [handedTo_hand]
    by_cases hk : k = l
    · simp [taken, takenBy?, hroute, hk]
    · simp [taken, takenBy?, hroute, hk]
  | routeMember hroute | routeResult hroute | routeNowhere hroute =>
    simp [taken, takenBy?, hroute, PortGraph.Scope.handedTo]
  | _ => simp [taken, takenBy?, PortGraph.Scope.handedTo, queue]

section Run

variable (hp : p.Sound) (hu : p.Untangled) (hproper : p.Proper owner given)
  (hloop : ∀ l, owner = some l → p.graph.kind? l = some .loop)
include hp hu hproper hloop

/-- Along its course a scope stays coherent and keeps what the signals have brought to its loops. -/
theorem Course.coherent (h : Course p owner given s sigs done) :
    Coherent p given s sigs ∧ s.owner = owner ∧ ∀ l, s.handedTo l = taken p owner l done := by
  induction h with
  | opens now =>
    obtain ⟨-, -, -, howner, hhanded, -⟩ := opening_spec now owner hp
    refine ⟨coherent_opening now owner hp hproper hu hloop, howner, fun l => ?_⟩
    simp [handedTo, hhanded, taken]
  | reacts _ hreact ih =>
    obtain ⟨hcoherent, howner, hhanded⟩ := ih
    refine ⟨hcoherent.react hp hu hreact, hreact.owner.trans howner, fun l => ?_⟩
    rw [hreact.handedTo, hhanded, howner]
    exact (List.filterMap_append ..).symm
  | starts _ hstart ih =>
    obtain ⟨hcoherent, howner, hhanded⟩ := ih
    obtain ⟨hcoherent', hlater, -⟩ := hcoherent.startNext hstart
    obtain ⟨n, k, r, rest, -, -, -, -, rfl⟩ := startNext?_eq_some hcoherent hstart
    exact ⟨hcoherent', hlater.owner.trans howner, hhanded⟩
  | concludes now c _ hr hrunning ih =>
    obtain ⟨hcoherent, howner, hhanded⟩ := ih
    exact ⟨hcoherent.conclude hp hr hrunning (concludes_concluded _ _ _ _)
      (announces_announced (hcoherent.shape.node _ _ hr) _ _), howner, hhanded⟩
  | violates f _ ih =>
    obtain ⟨hcoherent, howner, hhanded⟩ := ih
    exact ⟨hcoherent.violate f, howner, hhanded⟩

/-- Along every course the counter of a loop is exact. -/
theorem Course.takes (h : Course p owner given s sigs done) (hlp : p.loop? l = some lp) :
    Takes p s sigs done l lp := by
  obtain ⟨hcoherent, howner, hhanded⟩ := h.coherent hp hu hproper hloop
  have hkeys : (taken p s.owner l done).map (·.1) = s.handedKeys l := by
    rw [howner, ← hhanded]
    rfl
  have hlength : (taken p s.owner l done).length = (s.handedKeys l).length := by
    rw [← hkeys, List.length_map]
  have hcount : ∀ {u sigs r}, Coherent p given u sigs → u.run? l = some r →
      r.pendingCaptures + (u.handedKeys l).length = lp.captures.length :=
    fun hcoherent hr => hcoherent.counted.captures l _ lp hr hlp
  have hnodup := (List.nodup_append.mp (hcoherent.counted.fresh l)).1
  have hsub := handedKeys_subset hp hu hcoherent.shape hcoherent.proper hcoherent.sourced hlp
  refine ⟨?_, ?_, by rwa [hkeys], ?_, ?_, by rw [howner, hhanded]⟩
  · intro r hr
    rw [hlength]
    exact hcount hcoherent hr
  · -- after the value one more has been taken in, and no more than there are captures
    rintro r t v rest hr rfl hroute
    have hreact : Reacts p Timestamp.epoch s (.route t v) (s.hand l t v) [.promote l] :=
      .routeNested hroute
    have hrun : (s.hand l t v).run? l = some r.takeCapture := by
      rw [run?_hand, if_pos rfl, hr]
      rfl
    have hafter := hcount (hcoherent.react hp hu hreact) hrun
    have hbefore := hcount hcoherent hr
    rw [handedKeys_hand, if_pos rfl, List.length_append, List.length_singleton] at hafter
    omega
  · intro x hx
    exact hsub (hkeys ▸ List.mem_map.mpr ⟨x, hx, rfl⟩)
  · intro r hr hqueued
    have hzero := ((hcoherent.shape.clear l r hr).free (Or.inr (Or.inr (Or.inr hqueued)))).2.1
    refine ⟨hzero, ?_⟩
    have hcount := hcount hcoherent hr
    rw [hkeys]
    refine (hnodup.subperm hsub).perm_of_length_le ?_
    rw [List.length_map]
    omega

end Run

/-- A scope that closes leaves its counters alone. -/
theorem Takes.close (h : Takes p s [] done l lp) (hs : Shape p s) (aborted : Bool) :
    Takes p (s.close now aborted) [] done l lp := by
  have hrun : ∀ {r}, (s.close now aborted).run? l = some r →
      ∃ r₀, s.run? l = some r₀ ∧ r.pendingCaptures = r₀.pendingCaptures ∧
        r.promotions = r₀.promotions := by
    intro r hr
    rw [run?_close hs] at hr
    obtain ⟨r₀, hr₀, rfl⟩ := Option.map_eq_some_iff.mp hr
    refine ⟨r₀, hr₀, ?_⟩
    unfold leftOver
    split_ifs <;> exact ⟨rfl, rfl⟩
  have howner : (s.close now aborted).owner = s.owner := (close_kept aborted).1
  refine ⟨?_, ?_, ?_, ?_, ?_, ?_⟩
  · intro r hr
    obtain ⟨r₀, hr₀, hcaptures, -⟩ := hrun hr
    rw [howner, hcaptures]
    exact h.count r₀ hr₀
  · rintro r t v rest - hnil
    simp at hnil
  · rw [howner]
    exact h.single
  · rw [howner]
    exact h.captured
  · intro r hr hqueued
    obtain ⟨r₀, hr₀, hcaptures, hpromotions⟩ := hrun hr
    rw [howner, hcaptures]
    exact h.queued r₀ hr₀ (hpromotions ▸ hqueued)
  · rw [howner, ← h.kept]
    unfold PortGraph.Scope.handedTo
    rw [handed_close]

end PortGraph.Scope
