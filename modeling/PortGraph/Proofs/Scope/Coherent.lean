import PortGraph.Proofs.Scope.Accounted
import PortGraph.Proofs.Scope.Listed

/-!
Coherent scopes: all that is known of a scope and of the signals that it has yet to work off. A
signal keeps a scope coherent and finds no fault in it, so a scope that has worked off its signals
owes nothing.
-/

namespace PortGraph

/-- The run of a node that was put in the queue, or that was started. -/
def NodeRun.Released (r : NodeRun) : Prop := 0 < r.promotions ∨ r.startedAt.isSome = true

namespace Scope

open Plan

structure Coherent (p : Plan) (given : List (PortRef × Json)) (s : Scope) (sigs : List Signal) :
    Prop where
  shape : Shape p s
  isLoop : ∀ l, s.owner = some l → p.graph.kind? l = some .loop
  proper : p.Proper s.owner given
  sourced : Sourced p given s sigs
  counted : Counted p s sigs
  owed : Owed p given s sigs
  accounted : Accounted p s sigs
  listed : Listed p s

section Step

variable {p : Plan} {now : Timestamp} {given : List (PortRef × Json)} {s s' t : Scope}
variable {sig : Signal} {sigs rest more left : List Signal}
variable (hp : p.Sound) (hu : p.Untangled)
include hp hu

theorem Coherent.react (h : Coherent p given s (sig :: rest)) (hreact : Reacts p now s sig s' more) :
    Coherent p given s' (more ++ rest) where
  shape := h.shape.react hp hreact
  isLoop := by
    rw [hreact.owner]
    exact h.isLoop
  proper := by
    rw [hreact.owner]
    exact h.proper
  sourced := h.sourced.react hp hu h.shape h.proper hreact
  counted := h.counted.react hp hu h.shape h.sourced h.proper hreact
  owed := h.owed.react hp hu h.shape h.sourced hreact
  accounted := h.accounted.react hp h.shape h.sourced hreact
  listed := h.listed.react hp h.shape hreact

/-- Every value has a way to go, and no node is queued twice. -/
theorem Coherent.fault (h : Coherent p given s (sig :: rest)) (hreact : Reacts p now s sig s' more) :
    s'.fault = s.fault := by
  cases hreact with
  | @routeNowhere t v hroute =>
    have hoffered : Offered p given s t v := h.sourced.causes _ List.mem_cons_self
    obtain ⟨route, hsome⟩ :=
      hp.route_of_fed hu h.isLoop (fed_of_offered h.shape h.proper hoffered)
    rw [hroute] at hsome
    simp at hsome
  | promoteAgain hid hsat hpromotions =>
    rw [(h.shape.clear _ _ hid).fresh (NodeRun.pending_of_isSatisfied hsat).1] at hpromotions
    exact absurd hpromotions (lt_irrefl 0)
  | _ => simp [queue]

/-- What is kept while a scope works off its signals. -/
theorem Coherent.drains (h : Coherent p given s sigs) (hdrains : Drains p now s sigs t left) :
    Coherent p given t left ∧ t.fault = s.fault ∧ Later s t := by
  refine hdrains.keeps (P := fun u sigs => Coherent p given u sigs ∧ u.fault = s.fault ∧ Later s u)
    ?_ ⟨h, rfl, Later.refl s⟩
  rintro u sig rest u' more ⟨hcoherent, hfault, hlater⟩ hreact
  exact ⟨hcoherent.react hp hu hreact, (hcoherent.fault hp hu hreact).trans hfault,
    hlater.trans (hreact.later hp hcoherent.shape)⟩

theorem Coherent.handle (h : Coherent p given s sigs) (now : Timestamp) :
    Coherent p given (s.handle p now sigs) [] ∧ (s.handle p now sigs).fault = s.fault ∧
      Later s (s.handle p now sigs) :=
  h.drains hp hu (drains_handle hp hu now h.shape sigs)

end Step

/-- At any time, also between two signals, the gates of a node that was queued are open. -/
theorem Coherent.gates_open {p : Plan} {given : List (PortRef × Json)} {s : Scope}
    {sigs : List Signal} {n : NodeId} {r : NodeRun} (hp : p.Sound) (h : Coherent p given s sigs)
    (hr : s.run? n = some r) (hreleased : r.Released) {gate : Gate} (hgate : n ∈ p.exclusive gate) :
    s.isOpen gate = true := by
  have hzero := ((h.shape.clear n r hr).free (Or.inr (Or.inr hreleased.symm))).2.2
  exact (h.counted.gates_zero_iff hr).mp hzero gate (hp.mem_gates_iff.mpr hgate)

end Scope

end PortGraph
