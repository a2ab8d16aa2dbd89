import Mathlib.Data.List.Nodup
import PortGraph.Proofs.Scope.Reacts

/-!
What is seen of a scope after each of the changes that a signal makes: the run of a node, the
conditions with a value, the values handed to loops, the queue and the runs that have ended.
-/

namespace PortGraph.Scope

variable (s : Scope) (id k : NodeId) (r : NodeRun) (f : NodeRun → NodeRun)

/-! ### Runs -/

variable {s id k} in
theorem ne_of_ended {r r' : NodeRun} (hr : s.run? id = some r) (hlive : r.state.isTerminal = false)
    (hr' : s.run? k = some r') (hterm : r'.state.isTerminal = true) : id ≠ k := by
  rintro rfl
  obtain rfl := Option.some.inj (hr.symm.trans hr')
  rw [hlive] at hterm
  simp at hterm

theorem run?_put : (s.put r).run? k = if r.node = k then some r else s.run? k := by
  unfold run? put
  exact Table.find?_insert _ _ _ _

theorem run?_putEnded : (s.putEnded r).run? k = if r.node = k then some r else s.run? k :=
  run?_put s k r

theorem run?_change : (s.change id f).run? k = if id = k then (s.run? k).map f else s.run? k := by
  unfold run? change
  exact Table.find?_modify _ _ _ _

@[simp] theorem run?_dequeue : (s.dequeue id).run? k = s.run? k := rfl

@[simp] theorem run?_violate (e : Fault) : (s.violate e).run? k = s.run? k := rfl

@[simp] theorem run?_result (v : Option Json) :
    run? { s with result := v } k = s.run? k := rfl

theorem run?_hand (l : NodeId) (t : PortRef) (v : Json) :
    (s.hand l t v).run? k = if l = k then (s.run? k).map NodeRun.takeCapture else s.run? k :=
  run?_change s l k NodeRun.takeCapture

theorem run?_queue (p : Plan) :
    (s.queue p r id).run? k = if r.node = k then some r.markReady else s.run? k :=
  run?_put s k r.markReady

theorem run?_unlock {ids : List NodeId} (h : ids.Nodup) :
    (s.unlock ids).run? k = if k ∈ ids then (s.run? k).map NodeRun.openGate else s.run? k := by
  induction ids generalizing s with
  | nil => simp [unlock]
  | cons a rest ih =>
    obtain ⟨ha, hrest⟩ := List.nodup_cons.mp h
    change ((s.change a NodeRun.openGate).unlock rest).run? k = _
    rw [ih (s.change a NodeRun.openGate) hrest, run?_change]
    by_cases hak : a = k
    · subst hak
      simp [ha]
    · have hka : k ≠ a := fun h => hak h.symm
      simp [hak, hka]

theorem run?_decide (p : Plan) (holds : Bool)
    (h : (p.exclusive ⟨id, Branch.taken holds⟩).Nodup) :
    (s.decide p id holds).run? k =
      if k ∈ p.exclusive ⟨id, Branch.taken holds⟩ then (s.run? k).map NodeRun.openGate
      else s.run? k :=
  run?_unlock s k h

theorem ordered_unlock {s : Scope} (h : s.runs.Ordered) (ids : List NodeId) :
    (s.unlock ids).runs.Ordered := by
  induction ids generalizing s with
  | nil => exact h
  | cons a rest ih => exact ih (Table.ordered_modify h a NodeRun.openGate)

/-! ### The rest -/

section Rest

variable (ids : List NodeId) (l : NodeId) (t : PortRef) (v : Json)

theorem unlock_rest : (s.unlock ids).owner = s.owner ∧ (s.unlock ids).handed = s.handed ∧
    (s.unlock ids).resolved = s.resolved ∧ (s.unlock ids).ready = s.ready ∧
    (s.unlock ids).result = s.result ∧ (s.unlock ids).fault = s.fault ∧
    (s.unlock ids).ended = s.ended := by
  induction ids generalizing s with
  | nil => exact ⟨rfl, rfl, rfl, rfl, rfl, rfl, rfl⟩
  | cons a rest ih => exact ih (s.change a NodeRun.openGate)

@[simp] theorem owner_unlock : (s.unlock ids).owner = s.owner := (unlock_rest s ids).1

@[simp] theorem handed_unlock : (s.unlock ids).handed = s.handed := (unlock_rest s ids).2.1

@[simp] theorem resolved_unlock : (s.unlock ids).resolved = s.resolved :=
  (unlock_rest s ids).2.2.1

@[simp] theorem ready_unlock : (s.unlock ids).ready = s.ready := (unlock_rest s ids).2.2.2.1

@[simp] theorem result_unlock : (s.unlock ids).result = s.result :=
  (unlock_rest s ids).2.2.2.2.1

@[simp] theorem fault_unlock : (s.unlock ids).fault = s.fault :=
  (unlock_rest s ids).2.2.2.2.2.1

@[simp] theorem ended_unlock : (s.unlock ids).ended = s.ended :=
  (unlock_rest s ids).2.2.2.2.2.2

variable (p : Plan) (holds : Bool)

@[simp] theorem owner_decide : (s.decide p id holds).owner = s.owner := owner_unlock s _

@[simp] theorem handed_decide : (s.decide p id holds).handed = s.handed := handed_unlock s _

theorem resolved_decide :
    (s.decide p id holds).resolved.find? k =
      if id = k then some holds else s.resolved.find? k := by
  unfold decide
  rw [Table.find?_insert, resolved_unlock]

@[simp] theorem ready_decide : (s.decide p id holds).ready = s.ready := ready_unlock s _

@[simp] theorem result_decide : (s.decide p id holds).result = s.result := result_unlock s _

@[simp] theorem fault_decide : (s.decide p id holds).fault = s.fault := fault_unlock s _

@[simp] theorem ended_decide : (s.decide p id holds).ended = s.ended := ended_unlock s _

@[simp] theorem owner_hand : (s.hand l t v).owner = s.owner := rfl

@[simp] theorem resolved_hand : (s.hand l t v).resolved = s.resolved := rfl

@[simp] theorem ready_hand : (s.hand l t v).ready = s.ready := rfl

@[simp] theorem result_hand : (s.hand l t v).result = s.result := rfl

@[simp] theorem fault_hand : (s.hand l t v).fault = s.fault := rfl

@[simp] theorem ended_hand : (s.hand l t v).ended = s.ended := rfl

/-- The values handed to a loop. -/
def handedTo : List (PortRef × Json) := (s.handed.find? l).getD []

theorem handedTo_hand :
    (s.hand l t v).handedTo k = if l = k then s.handedTo k ++ [(t, v)] else s.handedTo k := by
  unfold handedTo hand
  rw [Table.find?_insert]
  by_cases h : l = k
  · subst h
    simp [change]
  · simp [h, change]

end Rest

@[simp] theorem owner_put : (s.put r).owner = s.owner := rfl

@[simp] theorem handed_put : (s.put r).handed = s.handed := rfl

@[simp] theorem resolved_put : (s.put r).resolved = s.resolved := rfl

@[simp] theorem ready_put : (s.put r).ready = s.ready := rfl

@[simp] theorem result_put : (s.put r).result = s.result := rfl

@[simp] theorem fault_put : (s.put r).fault = s.fault := rfl

@[simp] theorem ended_put : (s.put r).ended = s.ended := rfl

@[simp] theorem owner_putEnded : (s.putEnded r).owner = s.owner := rfl

@[simp] theorem handed_putEnded : (s.putEnded r).handed = s.handed := rfl

@[simp] theorem resolved_putEnded : (s.putEnded r).resolved = s.resolved := rfl

@[simp] theorem ready_putEnded : (s.putEnded r).ready = s.ready := rfl

@[simp] theorem result_putEnded : (s.putEnded r).result = s.result := rfl

@[simp] theorem fault_putEnded : (s.putEnded r).fault = s.fault := rfl

@[simp] theorem ended_putEnded : (s.putEnded r).ended = s.ended ++ [r] := rfl

@[simp] theorem owner_change : (s.change id f).owner = s.owner := rfl

@[simp] theorem handed_change : (s.change id f).handed = s.handed := rfl

@[simp] theorem resolved_change : (s.change id f).resolved = s.resolved := rfl

@[simp] theorem ready_change : (s.change id f).ready = s.ready := rfl

@[simp] theorem result_change : (s.change id f).result = s.result := rfl

@[simp] theorem fault_change : (s.change id f).fault = s.fault := rfl

@[simp] theorem ended_change : (s.change id f).ended = s.ended := rfl

@[simp] theorem owner_dequeue : (s.dequeue id).owner = s.owner := rfl

@[simp] theorem handed_dequeue : (s.dequeue id).handed = s.handed := rfl

@[simp] theorem resolved_dequeue : (s.dequeue id).resolved = s.resolved := rfl

@[simp] theorem result_dequeue : (s.dequeue id).result = s.result := rfl

@[simp] theorem fault_dequeue : (s.dequeue id).fault = s.fault := rfl

@[simp] theorem ended_dequeue : (s.dequeue id).ended = s.ended := rfl

@[simp] theorem owner_violate (e : Fault) : (s.violate e).owner = s.owner := rfl

@[simp] theorem handed_violate (e : Fault) : (s.violate e).handed = s.handed := rfl

@[simp] theorem resolved_violate (e : Fault) : (s.violate e).resolved = s.resolved := rfl

@[simp] theorem ready_violate (e : Fault) : (s.violate e).ready = s.ready := rfl

@[simp] theorem result_violate (e : Fault) : (s.violate e).result = s.result := rfl

@[simp] theorem ended_violate (e : Fault) : (s.violate e).ended = s.ended := rfl

theorem mem_ready_dequeue (e : ℕ × NodeId) :
    e ∈ (s.dequeue id).ready ↔ e ∈ s.ready ∧ e.2 ≠ id := by
  unfold dequeue
  simp

theorem mem_enqueue (e x : ℕ × NodeId) (l : List (ℕ × NodeId)) :
    x ∈ enqueue e l ↔ x = e ∨ x ∈ l := by
  induction l with
  | nil => simp [enqueue]
  | cons a rest ih =>
    unfold enqueue
    by_cases hbefore : before e a = true
    · simp [hbefore]
    · by_cases heq : e = a
      · subst heq
        simp [hbefore]
      · simp only [hbefore, heq, if_false, List.mem_cons, ih, Bool.false_eq_true]
        tauto

/-! ### Runs of nodes -/

section NodeRuns

variable (now : Timestamp)

@[simp] theorem node_skip (reason : SkipReason) : (r.skip now reason).node = r.node := rfl

@[simp] theorem state_skip (reason : SkipReason) : (r.skip now reason).state = .skipped := rfl

@[simp] theorem reason_skip (reason : SkipReason) :
    (r.skip now reason).skipReason = some reason := rfl

@[simp] theorem node_fail (e : NodeError) : (r.fail now e).node = r.node := rfl

@[simp] theorem state_fail (e : NodeError) : (r.fail now e).state = .failed := rfl

@[simp] theorem node_cancel : (r.cancel now).node = r.node := rfl

@[simp] theorem state_cancel : (r.cancel now).state = .cancelled := rfl

@[simp] theorem node_succeed (o : PortValues) : (r.succeed now o).node = r.node := rfl

@[simp] theorem state_succeed (o : PortValues) : (r.succeed now o).state = .succeeded := rfl

@[simp] theorem outputs_succeed (o : PortValues) : (r.succeed now o).outputs = some o := rfl

theorem mem_dropInput (port q : String) :
    q ∈ (r.dropInput port).pendingInputs ↔ q ∈ r.pendingInputs ∧ q ≠ port := by
  unfold NodeRun.dropInput
  simp

end NodeRuns

end PortGraph.Scope
