import PortGraph.Proofs.Number.Rounding
import PortGraph.Proofs.Results
import PortGraph.Work.Transform

/-!
Arithmetic on integers. What comes out as an integer is the exact result for the double next to the
input. It is the exact result for the input itself when the input is the value of a double; a sum or
a difference is not in any other case, while a product is always exact.
-/

namespace PortGraph

open Binary64 (Nearest Significant Rounds)

variable {n m k r s : ℤ} {x : Binary64}

/-- The integer results of the operators. A quotient need not be one. -/
inductive Operator.Gives (a b : ℤ) : Operator → ℤ → Prop
  | add : Gives a b .add (a + b)
  | subtract : Gives a b .subtract (a - b)
  | multiply : Gives a b .multiply (a * b)

theorem Operator.exists_gives {op : Operator} (hop : op ≠ .divide) (a b : ℤ) :
    ∃ r, op.Gives a b r := by
  cases op with
  | add => exact ⟨_, .add⟩
  | subtract => exact ⟨_, .subtract⟩
  | multiply => exact ⟨_, .multiply⟩
  | divide => exact absurd rfl hop

theorem Operator.Gives.unique {op : Operator} {a b : ℤ} (hr : op.Gives a b r)
    (hs : op.Gives a b s) : r = s := by
  cases hr <;> cases hs <;> rfl

theorem Binary64.Rounds.finite_iff {result : Binary64.Result} (h : Rounds s result) :
    (∃ z, result = .finite z ∧ z.toInt? = some r ∧ r.natAbs < mantissaBound) ↔
      r = s ∧ r.natAbs < mantissaBound := by
  constructor
  · rintro ⟨z, rfl, hz, hlt⟩
    cases h with
    | @finite _ m hm hnearest =>
      obtain rfl : m = r := Option.some.inj (hm.symm.trans hz)
      exact ⟨hnearest.eq_of_lt hlt, hlt⟩
  · rintro ⟨rfl, hlt⟩
    cases h with
    | @finite z m hm hnearest =>
      have hexact := hnearest.eq_of_significant (Binary64.significant_of_lt hlt)
      exact ⟨z, rfl, hexact ▸ hm, hlt⟩
    | infinite hlarge => exact absurd hlt (Nat.not_lt_of_le hlarge)

namespace Transform

variable {op : Operator}

/-- An operator rounds its exact result once. -/
theorem rounds_operation {y : Binary64} (hy : y.toInt? = some m) (hx : x.toInt? = some k)
    (h : op.Gives m k s) : Rounds s (operation op y x) := by
  cases h with
  | add => exact Binary64.rounds_add hy hx
  | subtract => exact Binary64.rounds_sub hy hx
  | multiply => exact Binary64.rounds_mul hy hx

theorem arithmetic_eq_integer :
    arithmetic op x (.number (.integer n)) = .ok (.number (.integer r)) ↔
      ∃ z, operation op (Number.integer n).toDouble x = .finite z ∧ z.toInt? = some r ∧
        r.natAbs < exactLimit := by
  have hread : operand (.number (.integer n)) = .ok (.integer n) := rfl
  unfold arithmetic
  rw [hread, ok_bind]
  cases operation op (Number.integer n).toDouble x with
  | finite z =>
    dsimp only
    cases hz : z.toInt? with
    | none => simp [hz, pure, Except.pure]
    | some whole =>
      dsimp only
      split_ifs with hlt
      · constructor
        · intro h
          obtain rfl : whole = r := by simpa [pure, Except.pure] using h
          exact ⟨z, rfl, hz, hlt⟩
        · rintro ⟨_, ⟨⟩, hr, -⟩
          rw [hz] at hr
          cases hr
          rfl
      · constructor
        · intro h
          simp [pure, Except.pure] at h
        · rintro ⟨_, ⟨⟩, hr, hsmall⟩
          rw [hz] at hr
          cases hr
          exact absurd hsmall hlt
  | infinite negative => simp
  | undefined => simp

/-- A product that is not too large is exact: of the integers that a double changes, all multiples
but zero are too large. -/
theorem mul_eq_mul (hm : Nearest n m) (hlt : (m * k).natAbs < exactLimit) : n * k = m * k := by
  rcases Nat.lt_or_ge n.natAbs Binary64.mantissaBound with hsmall | hlarge
  · rw [hm.eq_of_significant (Binary64.significant_of_lt hsmall)]
  · have hzero : k = 0 := by
      by_contra hk
      have hle : m.natAbs ≤ m.natAbs * k.natAbs :=
        Nat.le_mul_of_pos_right _ (Int.natAbs_pos.mpr hk)
      rw [Int.natAbs_mul] at hlt
      exact absurd (hm.bound_le hlarge) (Nat.not_le_of_lt (Nat.lt_of_le_of_lt hle hlt))
    rw [hzero, Int.mul_zero, Int.mul_zero]

/-- A sum or a difference is exact just when its first term is. -/
theorem gives_iff (hm : Nearest n m) (hr : op.Gives m k r) (hlt : r.natAbs < exactLimit) :
    op.Gives n k r ↔ op = .multiply ∨ Significant n := by
  rw [← hm.eq_iff_significant]
  constructor
  · intro h
    cases hr with
    | add =>
      have heq := h.unique .add
      exact Or.inr (by omega)
    | subtract =>
      have heq := h.unique .subtract
      exact Or.inr (by omega)
    | multiply => exact Or.inl rfl
  · rintro (rfl | rfl)
    · cases hr
      exact mul_eq_mul hm hlt ▸ .multiply
    · exact hr

/-- What arithmetic on an integer gives as an integer, for an operand that is one. It is the exact
result for the double next to the input, and for the input itself just when that is the value of a
double or the operator multiplies. -/
theorem integersExact (hop : op ≠ .divide) (hn : Number.InRange n) (hk : x.toInt? = some k) :
    ∃ m, Nearest n m ∧
      (∀ r, arithmetic op x (.number (.integer n)) = .ok (.number (.integer r)) ↔
        op.Gives m k r ∧ r.natAbs < exactLimit) ∧
      ∀ r, arithmetic op x (.number (.integer n)) = .ok (.number (.integer r)) →
        (op.Gives n k r ↔ op = .multiply ∨ Significant n) := by
  obtain ⟨m, hm, hnearest⟩ := Binary64.exists_nearest hn
  obtain ⟨s, hs⟩ := Operator.exists_gives hop m k
  have hgives (r : ℤ) : arithmetic op x (.number (.integer n)) = .ok (.number (.integer r)) ↔
      op.Gives m k r ∧ r.natAbs < exactLimit := by
    rw [arithmetic_eq_integer]
    refine (rounds_operation hm hk hs).finite_iff.trans (and_congr_left' ?_)
    exact ⟨fun h => h ▸ hs, fun h => h.unique hs⟩
  refine ⟨m, hnearest, hgives, fun r hr => ?_⟩
  obtain ⟨hexact, hlt⟩ := (hgives r).mp hr
  exact gives_iff hnearest hexact hlt

/-- An even integer above the limit is the value of a double, so three less than it is exact. -/
theorem even_integersExact : Number.InRange 9007199254740994 ∧
    Binary64.toInt? ⟨false, 6755399441055744, -51⟩ = some 3 ∧
    arithmetic .subtract ⟨false, 6755399441055744, -51⟩ (.number (.integer 9007199254740994)) =
      .ok (.number (.integer 9007199254740991)) ∧
    Operator.subtract.Gives 9007199254740994 3 9007199254740991 := by
  have hop : Operator.subtract ≠ .divide := by decide
  have hn : Number.InRange 9007199254740994 := by decide
  have hk : Binary64.toInt? ⟨false, 6755399441055744, -51⟩ = some 3 := by decide +kernel
  have hsignificant : Significant 9007199254740994 := ⟨4503599627370497, 1, by decide, by decide⟩
  obtain ⟨m, hm, hgives, hexact⟩ := integersExact hop hn hk
  obtain rfl := hm.eq_of_significant hsignificant
  have hresult := (hgives 9007199254740991).mpr ⟨.subtract, by decide⟩
  exact ⟨hn, hk, hresult, (hexact _ hresult).mpr (Or.inr hsignificant)⟩

/-- The odd integer next to the limit goes to the limit, so two less than it is one too small. -/
theorem odd_not_exact : Number.InRange 9007199254740993 ∧
    Binary64.toInt? ⟨false, 4503599627370496, -51⟩ = some 2 ∧
    arithmetic .subtract ⟨false, 4503599627370496, -51⟩ (.number (.integer 9007199254740993)) =
      .ok (.number (.integer 9007199254740990)) ∧
    ¬ Operator.subtract.Gives 9007199254740993 2 9007199254740990 := by
  refine ⟨by decide, by decide +kernel, by decide +kernel, fun h => ?_⟩
  have hexact := h.unique .subtract
  exact absurd hexact (by decide)

end Transform

end PortGraph
