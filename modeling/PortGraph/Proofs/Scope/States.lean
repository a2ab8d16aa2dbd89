import PortGraph.Proofs.Scope.Closing
import PortGraph.Proofs.Scope.Sighted

/-!
Which nodes of a scope run, have succeeded or were cancelled. No signal changes that: a node gets
into these states only by being started or heard of, or when its scope closes.
-/

namespace PortGraph

open Plan

/-- A state that no signal brings about or ends. -/
def RunState.isFirm : RunState → Bool
  | .running | .succeeded | .cancelled => true
  | .pending | .ready | .failed | .skipped => false

namespace Scope

/-- Whether a member is in a state. -/
def isIn (s : Scope) (state : RunState) (n : NodeId) : Bool :=
  (s.run? n).any fun r => r.state == state

theorem isIn_iff {s : Scope} {state : RunState} {n : NodeId} :
    s.isIn state n = true ↔ ∃ r, s.run? n = some r ∧ r.state = state := by
  unfold isIn
  rw [Option.any_eq_true]
  exact exists_congr fun r => and_congr_right fun _ => beq_iff_eq

variable {p : Plan} {now : Timestamp} {given : List (PortRef × Json)} {s s' t : Scope}
variable {sig : Signal} {sigs more left : List Signal} {state : RunState} {n : NodeId}

theorem Evolves.firm {r r' : NodeRun} (h : NodeRun.Evolves p now s sig r r')
    (hfirm : state.isFirm = true) : r'.state = state ↔ r.state = state := by
  have hloose : isUnstarted r = true → r.state ≠ state := by
    rintro hunstarted rfl
    cases hstate : r.state <;>
      simp [hstate, RunState.isFirm, isUnstarted, RunState.isTerminal] at hfirm hunstarted
  cases h with
  | same | capture | gate | drop | lose => exact Iff.rfl
  | deliver _ _ _ hd => rw [(NodeRun.deliver_kept hd).2.1]
  | ready _ hsat =>
    have hpending := (NodeRun.pending_of_isSatisfied hsat).1
    refine iff_of_false ?_ (hloose (isUnstarted_of_pending hpending))
    rintro rfl
    simp [NodeRun.markReady, RunState.isFirm] at hfirm
  | skip _ hunstarted =>
    refine iff_of_false ?_ (hloose hunstarted)
    rintro rfl
    simp [RunState.isFirm] at hfirm
  | fail _ hunstarted =>
    refine iff_of_false ?_ (hloose hunstarted)
    rintro rfl
    simp [RunState.isFirm] at hfirm

theorem Reacts.isIn (h : Reacts p now s sig s' more) (hp : p.Sound) (hs : Shape p s)
    (hfirm : state.isFirm = true) (n : NodeId) : s'.isIn state n = s.isIn state n := by
  rw [Bool.eq_iff_iff, isIn_iff, isIn_iff]
  constructor
  · rintro ⟨r', hr', hstate⟩
    obtain ⟨r, hr, hevolves⟩ := h.evolved hp hs hr'
    exact ⟨r, hr, (Evolves.firm hevolves hfirm).mp hstate⟩
  · rintro ⟨r, hr, hstate⟩
    obtain ⟨r', hr', hevolves⟩ := h.evolves hp hs hr
    exact ⟨r', hr', (Evolves.firm hevolves hfirm).mpr hstate⟩

theorem Drains.isIn (h : Drains p now s sigs t left) (hp : p.Sound) (hs : Shape p s)
    (hfirm : state.isFirm = true) (n : NodeId) : t.isIn state n = s.isIn state n := by
  refine (h.keeps (P := fun u _ => Shape p u ∧ u.isIn state n = s.isIn state n) ?_ ⟨hs, rfl⟩).2
  rintro u sig rest u' more ⟨hu, hsame⟩ hreact
  exact ⟨hu.react hp hreact, (hreact.isIn hp hu hfirm n).trans hsame⟩

variable (hp : p.Sound) (hu : p.Untangled)
include hp hu

/-- A node that is heard of ends as its outcome says. -/
theorem Coherent.isIn_complete (h : Coherent p given s []) {c : Completion} {r : NodeRun}
    (hr : s.run? c.node = some r) (hrunning : r.state = .running)
    (hfirm : state.isFirm = true) (n : NodeId) :
    (s.complete p now c).isIn state n =
      if c.node = n then
        (concluded now { r with attempts := c.attempts } c.outcome).state == state
      else s.isIn state n := by
  have hends := concludes_concluded now r c.attempts c.outcome
  have hcoherent := h.conclude hp hr hrunning hends
    (announces_announced (p := p) (h.shape.node _ r hr) c.attempts c.outcome)
  have hput : (s.putEnded (concluded now { r with attempts := c.attempts } c.outcome)).isIn state n
      = if c.node = n then
          (concluded now { r with attempts := c.attempts } c.outcome).state == state
        else s.isIn state n := by
    unfold Scope.isIn
    rw [run?_conclude h hr hends]
    split_ifs <;> rfl
  rw [← hput]
  have hdrains := drains_handle hp hu now hcoherent.shape (announced p c.node c.outcome)
  have hsame := hdrains.isIn hp hcoherent.shape hfirm n
  unfold PortGraph.Scope.complete
  rw [hr]
  simp only [hrunning, if_true]
  cases hout : c.outcome with
  | succeeded outputs | failed e => rwa [hout] at hsame
  | cancelled | fatal f => rfl

/-- A fault that a scope hears of is the outcome of the node. -/
theorem Coherent.fault_complete (h : Coherent p given s []) {c : Completion} {r : NodeRun}
    (hr : s.run? c.node = some r) (hrunning : r.state = .running) {f : Fault}
    (hf : (s.complete p now c).fault = some f) : s.fault = some f ∨ c.outcome = .fatal f := by
  by_cases hfatal : ∃ g, c.outcome = .fatal g
  · obtain ⟨g, hg⟩ := hfatal
    have heq : (s.complete p now c).fault = some (s.fault.getD g) := by
      simp [PortGraph.Scope.complete, PortGraph.Scope.violate, hr, hrunning, hg]
    rw [heq] at hf
    cases hs : s.fault with
    | none =>
      rw [hs] at hf
      exact Or.inr (hg.trans (congrArg _ (Option.some.inj hf)))
    | some f₀ =>
      rw [hs] at hf
      exact Or.inl hf
  · obtain ⟨-, -, -, hsame⟩ : Coherent p given (s.complete p now c) [] ∧ _ :=
      h.complete hp hu hr hrunning
    rw [hsame fun g hg => hfatal ⟨g, hg⟩] at hf
    exact Or.inl hf

omit hp hu in
theorem Coherent.isIn_startNext (h : Coherent p given s []) {r' : NodeRun}
    (hstart : s.startNext? now = some (s', r')) (n : NodeId) :
    s'.isIn state n = if r'.node = n then RunState.running == state else s.isIn state n := by
  obtain ⟨m, k, r, rest, -, hr, -, rfl, rfl⟩ := startNext?_eq_some h hstart
  have hid : (r.start now).node = m := h.shape.node m r hr
  unfold Scope.isIn
  rw [run?_started h hr, hid]
  split_ifs <;> rfl

omit hu in
/-- No node of a scope that has just begun runs, has succeeded or was cancelled. -/
theorem isIn_seed (hu : p.Untangled) {owner : ScopeId} {deliveries : List (PortRef × Json)}
    (hproper : p.Proper owner deliveries)
    (hloop : ∀ l, owner = some l → p.graph.kind? l = some .loop) (hfirm : state.isFirm = true)
    (n : NodeId) : (seed p now owner deliveries).isIn state n = false := by
  have hopening := coherent_opening now owner hp hproper hu hloop
  rw [seed_eq now owner hp, (drains_handle hp hu now hopening.shape _).isIn hp hopening.shape hfirm]
  rw [Bool.eq_false_iff]
  intro hin
  obtain ⟨r, hr, rfl⟩ := isIn_iff.mp hin
  obtain ⟨-, node, r₀, -, -, hfresh, ⟨-, rfl⟩ | ⟨-, rfl⟩⟩ := opening_run now owner hp hr
  · rw [hfresh.state] at hfirm
    simp [RunState.isFirm] at hfirm
  · simp [RunState.isFirm] at hfirm

end Scope

end PortGraph
