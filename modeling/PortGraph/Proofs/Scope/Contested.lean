import PortGraph.Proofs.Plan.Rings
import PortGraph.Proofs.Scope.Recorded

/-!
Ends that hang on who was first. A node that fails without having run might have been skipped had a
gate of it closed before, or had the failure of another node reached it before; and a condition that
fails for a node behind one of its branches would have gone on had its value come first. Once a scope
has such an end it keeps it.
-/

namespace PortGraph.Scope

open Plan

/-- The members that ended before the given one, oldest first. -/
def endedBefore (s : Scope) (n : NodeId) : List NodeId :=
  (s.ended.map NodeRun.node).takeWhile fun m => !(m == n)

section

variable (p : Plan) (s : Scope) (n : NodeId)

/-- A member that supplies the node has ended without a value. -/
def Deprived : Prop := ∃ m, s.Lost m ∧ p.Supplies s.owner m n

/-- When the condition ended, nothing could give it a value any more. -/
def Valueless : Prop :=
  ∃ m ∈ s.endedBefore n, s.Lost m ∧ p.Feeds m ⟨n, PortName.condition⟩

/-- The node failed without having run, and in another order it might have ended otherwise. -/
structure Contested : Prop where
  failed : ∃ r, s.run? n = some r ∧ r.state = .failed ∧ r.startedAt = none
  raced : (∃ gate, n ∈ p.exclusive gate ∧ Closed s gate) ∨
    (Deprived p s n ∧ (p.kind? n ≠ some .condition ∨
      ((∃ branch, p.exclusive ⟨n, branch⟩ ≠ []) ∧ ¬ Valueless p s n)))

/-- No end in the scope hangs on who was first. -/
def Uncontested : Prop := ∀ n, ¬ Contested p s n

end

variable {p : Plan} {s s' : Scope} {m n : NodeId} {r : NodeRun}

/-- Where every node that failed had run, no end hangs on who was first. -/
theorem uncontested_of_started
    (h : ∀ n r, s.run? n = some r → r.state = .failed → r.startedAt.isSome = true) :
    Uncontested p s := by
  rintro n ⟨⟨r, hr, hfailed, hstart⟩, -⟩
  have hsome := h n r hr hfailed
  rw [hstart] at hsome
  simp at hsome

/-! ### Later scopes -/

theorem Later.closed (h : Later s s') {gate : Gate} (hgate : Closed s gate) : Closed s' gate := by
  rcases hgate with hnotTaken | ⟨hended, hnone⟩
  · exact Or.inl (h.notTaken hnotTaken)
  · obtain ⟨r, hr, hterm⟩ := id hended
    exact Or.inr ⟨h.isEnded hended, h.undecided _ r hr hterm hnone⟩

theorem Later.deprived (h : Later s s') (hn : Deprived p s n) : Deprived p s' n := by
  obtain ⟨m, hm, hsupplies⟩ := hn
  exact ⟨m, h.lost hm, by rwa [h.owner]⟩

/-- Who ended without a value had done so before, if it had ended. -/
theorem Later.lost_iff (h : Later s s') (hm : s.Ended m) : s'.Lost m ↔ s.Lost m := by
  obtain ⟨r, hr, hterm⟩ := hm
  obtain ⟨r', hr', hstate, -⟩ := h.ended m r hr hterm
  unfold Lost
  simp [hr, hr', hstate]

theorem endedBefore_of_later (hbefore : s.ended <+: s'.ended)
    (hn : n ∈ s.ended.map NodeRun.node) : s'.endedBefore n = s.endedBefore n := by
  obtain ⟨more, hmore⟩ := hbefore
  unfold endedBefore
  rw [← hmore, List.map_append, List.takeWhile_append, if_neg]
  intro hlength
  have hall := (List.takeWhile_prefix (fun m => !(m == n))).eq_of_length hlength
  have hne := List.all_takeWhile (l := s.ended.map NodeRun.node) (p := fun m => !(m == n))
  rw [hall, List.all_eq_true] at hne
  simpa using hne n hn

theorem ne_of_mem_endedBefore (hm : m ∈ s.endedBefore n) : m ≠ n := by
  have hall := List.all_takeWhile (l := s.ended.map NodeRun.node) (p := fun m => !(m == n))
  simpa using List.all_eq_true.mp hall m hm

theorem mem_ended_of_endedBefore (hm : m ∈ s.endedBefore n) : m ∈ s.ended.map NodeRun.node :=
  (List.takeWhile_prefix _).subset hm

theorem Recorded.isEnded (h : Recorded s) (hm : m ∈ s.ended.map NodeRun.node) : s.Ended m := by
  obtain ⟨r, hr, rfl⟩ := List.mem_map.mp hm
  obtain ⟨r', hr', hterm, -⟩ := h.known r hr
  exact ⟨r', hr', hterm⟩

theorem Valueless.before (h : Valueless p s' n) (hlater : Later s s') (hrecorded : Recorded s)
    (hbefore : s.ended <+: s'.ended) (hn : n ∈ s.ended.map NodeRun.node) : Valueless p s n := by
  obtain ⟨m, hm, hlost, hfeeds⟩ := h
  rw [endedBefore_of_later hbefore hn] at hm
  have hended := hrecorded.isEnded (mem_ended_of_endedBefore hm)
  exact ⟨m, hm, (hlater.lost_iff hended).mp hlost, hfeeds⟩

/-- An end that hung on who was first still does. -/
theorem Contested.later (h : Contested p s n) (hlater : Later s s') (hrecorded : Recorded s)
    (hbefore : s.ended <+: s'.ended) : Contested p s' n := by
  obtain ⟨r, hr, hstate, hstart⟩ := h.failed
  have hterm : r.state.isTerminal = true := by rw [hstate]; rfl
  obtain ⟨r', hr', hstate', -, -, hstart'⟩ := hlater.ended n r hr hterm
  refine ⟨⟨r', hr', hstate'.trans hstate, hstart'.trans hstart⟩, ?_⟩
  rcases h.raced with ⟨gate, hgate, hclosed⟩ | ⟨hdeprived, hkind⟩
  · exact Or.inl ⟨gate, hgate, hlater.closed hclosed⟩
  · refine Or.inr ⟨hlater.deprived hdeprived, hkind.imp_right ?_⟩
    rintro ⟨hbranch, hvalue⟩
    exact ⟨hbranch, fun h => hvalue (h.before hlater hrecorded hbefore (hrecorded.all n r hr hterm))⟩

theorem Uncontested.before (h : Uncontested p s') (hlater : Later s s') (hrecorded : Recorded s)
    (hbefore : s.ended <+: s'.ended) : Uncontested p s :=
  fun n hn => h n (hn.later hlater hrecorded hbefore)

end PortGraph.Scope
