import Mathlib.Order.Bounds.Basic
import Mathlib.Order.Lattice.Nat
import PortGraph.Run.Outcome
import PortGraph.Work.Builtin

/-!
The attempts that a worker makes on a node. Which of them is the last is a property of the results
alone, and what is reported in the end depends on the result of the last one only.
-/

namespace PortGraph

/-- A record tells the number of an attempt, and the error of its result if there is one. -/
structure Attempt.Tells (x : Attempt) (i : ℕ) (result : Except NodeError PortValues) : Prop where
  number : x.attempt = i
  clean : ∀ outputs, result = .ok outputs → x.error = none
  error : ∀ e, result = .error e → x.error = some e.attemptMessage

theorem Attempt.tells_ofResult (i elapsed : ℕ) (result : Except NodeError PortValues) :
    (Attempt.ofResult i elapsed result).Tells i result where
  number := rfl
  clean outputs h := by rw [h]; rfl
  error e h := by rw [h]; rfl

/-- The records tell the first results, in order. -/
def Told (r : ℕ → Except NodeError PortValues) (attempts : List Attempt) : Prop :=
  ∀ i (x : Attempt), attempts[i]? = some x → x.Tells (i + 1) (r (i + 1))

theorem told_nil (r : ℕ → Except NodeError PortValues) : Told r [] := by
  intro i x h
  simp at h

theorem Told.concat {r : ℕ → Except NodeError PortValues} {attempts : List Attempt}
    (h : Told r attempts) (elapsed : ℕ) :
    Told r (attempts ++
      [.ofResult (attempts.length + 1) elapsed (r (attempts.length + 1))]) := by
  intro i x hx
  rcases Nat.lt_trichotomy i attempts.length with hlt | rfl | hgt
  · rw [List.getElem?_append_left hlt] at hx
    exact h i x hx
  · rw [List.getElem?_concat_length] at hx
    rw [← Option.some.inj hx]
    exact Attempt.tells_ofResult _ _ _
  · rw [List.getElem?_eq_none (by simp; omega)] at hx
    simp at hx

namespace Worker

variable {w : Worker} {i k : ℕ} {result : Except NodeError PortValues} {outcome : Outcome}

/-! ### The last attempt -/

/-- No attempt follows one with this number and result, even with no end of time. -/
def Final (w : Worker) (i : ℕ) (result : Except NodeError PortValues) : Prop :=
  (∃ outputs, result = .ok outputs) ∨ (∃ e, result = .error e ∧ e.isTransient = false) ∨
    w.policy = none ∨ ∃ policy, w.policy = some policy ∧ policy.maxAttempts ≤ i

/-- The outcome that the result of the last attempt makes. -/
inductive Ends (w : Worker) (k : ℕ) : Except NodeError PortValues → Outcome → Prop
  | success (outputs : PortValues) : Ends w k (.ok outputs) (.succeeded outputs)
  | replaced (e : NodeError) (outputs : PortValues)
      (h : w.fallback (counted k e) = some outputs) : Ends w k (.error e) (.succeeded outputs)
  | failure (e : NodeError) (h : w.fallback (counted k e) = none) :
      Ends w k (.error e) (.failed (counted k e))

/-- What comes of the results when the attempt `k` is the last. -/
structure Concludes (w : Worker) (r : ℕ → Except NodeError PortValues) (k : ℕ)
    (attempts : List Attempt) (outcome : Outcome) : Prop where
  count : attempts.length = k
  told : Told r attempts
  ends : w.Ends k (r k) outcome

theorem ends_giveUp (e : NodeError) : w.Ends k (.error e) (w.giveUp k e) := by
  unfold giveUp
  dsimp only
  split
  · exact .replaced e _ ‹_›
  · exact .failure e ‹_›

theorem sequel_of_final (h : w.Final i result) (draw : ℕ) :
    ∃ outcome, w.sequel (fun _ => true) i draw result = .over outcome ∧
      w.Ends i result outcome := by
  cases result with
  | ok outputs => exact ⟨_, rfl, .success outputs⟩
  | error e =>
    refine ⟨_, ?_, ends_giveUp e⟩
    unfold sequel
    rcases h with ⟨_, h⟩ | ⟨_, h, hlasting⟩ | hnone | ⟨policy, hpolicy, hmost⟩
    · cases h
    · cases h
      cases w.policy <;> simp [hlasting]
    · simp [hnone]
    · have hallows : policy.allowsAfter i = false := by
        simpa [RetryPolicy.allowsAfter] using hmost
      simp [hpolicy, hallows]

theorem sequel_of_not_final (h : ¬ w.Final i result) (draw : ℕ) :
    ∃ delay, w.sequel (fun _ => true) i draw result = .again delay := by
  unfold Final at h
  push Not at h
  obtain ⟨hok, herror, hpolicy, hmost⟩ := h
  cases result with
  | ok outputs => exact absurd rfl (hok outputs)
  | error e =>
    obtain ⟨policy, hpolicy⟩ := Option.ne_none_iff_exists'.mp hpolicy
    have htransient : e.isTransient = true := by simpa using herror e rfl
    have hallows : policy.allowsAfter i = true := by
      simpa [RetryPolicy.allowsAfter] using hmost policy hpolicy
    exact ⟨policy.delay i draw, by simp [sequel, hpolicy, htransient, hallows]⟩

/-- Among the results of all attempts there is a first final one. -/
theorem exists_first (w : Worker) (r : ℕ → Except NodeError PortValues) :
    ∃ k, IsLeast {i | 1 ≤ i ∧ w.Final i (r i)} k := by
  have hfinal : {i | 1 ≤ i ∧ w.Final i (r i)}.Nonempty := by
    cases hpolicy : w.policy with
    | none => exact ⟨1, le_rfl, .inr (.inr (.inl hpolicy))⟩
    | some policy =>
      exact ⟨policy.maxAttempts + 1, by omega, .inr (.inr (.inr ⟨policy, hpolicy, by omega⟩))⟩
  exact ⟨_, Nat.sInf_mem hfinal, fun _ h => Nat.sInf_le h⟩

/-! ### All attempts in a row -/

section Pursue

variable {σ : Type}

variable {call : ℕ → σ → Except NodeError PortValues × σ} (elapsed draw : ℕ → ℕ)
variable {attempts : List Attempt} {s s' : σ}

end Pursue

/-! ### The built-in workers -/

end Worker

end PortGraph
