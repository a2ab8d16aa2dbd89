import PortGraph.Proofs.Execution.Captures

/-!
The recursion of a scope. To handle a signal is to change the scope and to handle, one after the other,
the signals that follow from it, each with all that follows from that one in turn. In every state that a
scope comes to this ends, for any signals, within a bound told by the size of the plan.
-/

namespace PortGraph

open Plan

namespace Scope

/-- The calls that handle a list of signals: what follows from a signal is handled before the next one.
The number counts the calls, also those within calls. -/
inductive Calls (p : Plan) (now : Timestamp) : ℕ → Scope → List Signal → Scope → Prop
  | none {s : Scope} : Calls p now 0 s [] s
  | call {s t u : Scope} {sig : Signal} {rest : List Signal} {k m : ℕ} :
      Calls p now k (s.react p now sig).1 (s.react p now sig).2 t → Calls p now m t rest u →
        Calls p now (k + m + 1) s (sig :: rest) u

variable {p : Plan} {now : Timestamp} {s t u : Scope} {sigs more rest : List Signal} {n k m : ℕ}

/-- The calls for two lists in a row are those for the first and then those for the second. -/
theorem calls_append_iff :
    Calls p now n s (more ++ rest) u ↔
      ∃ k m t, n = k + m ∧ Calls p now k s more t ∧ Calls p now m t rest u := by
  constructor
  · intro h
    induction more generalizing n s with
    | nil => exact ⟨0, n, s, by omega, .none, h⟩
    | cons sig more ih =>
      cases h with
      | call hfirst hlater =>
        obtain ⟨k, m, t, rfl, hmore, hrest⟩ := ih hlater
        exact ⟨_, m, t, by omega, .call hfirst hmore, hrest⟩
  · rintro ⟨k, m, t, rfl, hmore, hrest⟩
    induction hmore with
    | none => simpa using hrest
    | @call s _ _ sig more k m' hfirst _ _ ih =>
      have hcall := Calls.call hfirst (ih hrest)
      rwa [show k + (m' + m) + 1 = k + m' + 1 + m by omega] at hcall

/-- A list of signals that is worked off is the calls, one by one: what is left of the budget after
them goes to the signals behind. -/
theorem Calls.drain (h : Calls p now n s sigs t) (fuel : ℕ) (rest : List Signal) :
    s.drain p now (n + fuel) (sigs ++ rest) = t.drain p now fuel rest := by
  induction h generalizing fuel rest with
  | none => rw [Nat.zero_add, List.nil_append]
  | @call s t u sig later k m _ _ ihfirst ihlater =>
    have hstep : s.drain p now (k + (m + fuel) + 1) (sig :: (later ++ rest)) =
        (s.react p now sig).1.drain p now (k + (m + fuel))
          ((s.react p now sig).2 ++ (later ++ rest)) := rfl
    rw [show k + m + 1 + fuel = k + (m + fuel) + 1 by omega, List.cons_append, hstep, ihfirst, ihlater]

theorem Calls.drain_of_le (h : Calls p now n s sigs t) {fuel : ℕ} (hfuel : n ≤ fuel) :
    s.drain p now fuel sigs = (t, []) := by
  obtain ⟨k, rfl⟩ := Nat.exists_eq_add_of_le hfuel
  have hdrain := h.drain k []
  rw [List.append_nil] at hdrain
  rw [hdrain]
  cases k <;> rfl

/-- If some budget leaves no signal over, the calls end, and there are no more of them than that. -/
theorem calls_of_drain {fuel : ℕ} (h : s.drain p now fuel sigs = (t, [])) :
    ∃ n ≤ fuel, Calls p now n s sigs t := by
  induction fuel generalizing s sigs with
  | zero =>
    cases sigs with
    | nil =>
      obtain rfl : s = t := congrArg Prod.fst h
      exact ⟨0, le_rfl, .none⟩
    | cons sig rest => exact absurd (congrArg Prod.snd h) (List.cons_ne_nil _ _)
  | succ fuel ih =>
    cases sigs with
    | nil =>
      obtain rfl : s = t := congrArg Prod.fst h
      exact ⟨0, Nat.zero_le _, .none⟩
    | cons sig rest =>
      obtain ⟨n, hn, hcalls⟩ := ih (s := (s.react p now sig).1) h
      obtain ⟨k, m, u, rfl, hmore, hrest⟩ := calls_append_iff.mp hcalls
      exact ⟨k + m + 1, Nat.succ_le_succ hn, .call hmore hrest⟩

theorem exists_calls (hp : p.Sound) (hu : p.Untangled) (hs : Shape p s) (now : Timestamp)
    (sigs : List Signal) : ∃ n ≤ budget p sigs, Calls p now n s sigs (s.handle p now sigs) :=
  calls_of_drain (drain_budget hp hu now hs sigs)

end Scope

namespace Execution

/-- The recursion always ends. In every state that a scope comes to, the calls for any signals come to
an end; the budget, for one signal a number told by the nodes and the edges of the plan, covers them; and
a larger one changes nothing. The search for the loop around an input ends as well, with what the bounded
search finds. -/
theorem recursionEnds {p : Plan} (h : p.Accepted) (hu : p.Untangled) {verbose : Bool} {e : Execution}
    {a : Address} {s : Scope} (he : Reachable p verbose e) (hs : Passes p e a s) :
    (∀ now sigs, ∃ n t, Scope.Calls p now n s sigs t ∧ n ≤ Scope.budget p sigs ∧
      ∀ fuel, n ≤ fuel → s.drain p now fuel sigs = (t, [])) ∧
    ∀ target : PortRef, p.Walk s.owner (p.scopeOf target.node)
      (p.loopToward s.owner p.nesting.loops.length (p.scopeOf target.node)) := by
  have hp := Plan.sound_of_accepted h
  obtain ⟨given, sigs, done, hcame⟩ := he.cameBy hp hu hs
  refine ⟨fun now sigs => ?_, (hp.forest hu).walk s.owner⟩
  obtain ⟨n, hn, hcalls⟩ := Scope.exists_calls hp hu (hcame.shape hp hu) now sigs
  exact ⟨n, _, hcalls, hn, fun fuel hfuel => hcalls.drain_of_le hfuel⟩

/-- When the input fails before anything has started, the loop that waits for it is skipped. -/
theorem loopInLoop_recursionEnds : ∃ p s n t, ofDefinition loopInLoop = .ok p ∧ p.Untangled ∧
    Reachable p false (begin p false .epoch 1 false) ∧
    Passes p (begin p false .epoch 1 false) [] s ∧
    Scope.Calls p .epoch n s [.fail "in" .cancelled] t ∧
    n ≤ Scope.budget p [.fail "in" .cancelled] ∧
    (∀ fuel, n ≤ fuel → s.drain p .epoch fuel [.fail "in" .cancelled] = (t, [])) ∧
    (t.run? "rows").map (·.state) = some .skipped := by
  obtain ⟨p, hp, hloops, hskipped⟩ := exists_of_check (d := loopInLoop)
    (P := fun p =>
      (∀ a ∈ p.nesting.loops, ∀ b ∈ p.nesting.loops, ¬ (a.1 ∈ b.2.body ∧ b.1 ∈ a.2.body)) ∧
      (((Scope.drain p .epoch 0 (Scope.opening p .epoch none)
        (Scope.openingSignals p none [])).1.handle p .epoch [.fail "in" .cancelled]).run? "rows").map
          (·.state) = some .skipped) (by decide +kernel)
  have hu := untangled_of_loops hloops
  have hreach : Reachable p false (begin p false .epoch 1 false) := .begin .epoch 1 false
  have hpasses : Passes p (begin p false .epoch 1 false) [] (Scope.drain p .epoch 0
      (Scope.opening p .epoch none) (Scope.openingSignals p none [])).1 := .begins
  obtain ⟨n, t, hcalls, hn, hdrain⟩ :=
    (recursionEnds ⟨loopInLoop, hp⟩ hu hreach hpasses).1 .epoch [.fail "in" .cancelled]
  refine ⟨p, _, n, t, hp, hu, hreach, hpasses, hcalls, hn, hdrain, ?_⟩
  have hhandle := congrArg Prod.fst (hdrain _ hn)
  rw [Scope.handle, hhandle] at hskipped
  exact hskipped

end Execution

end PortGraph
