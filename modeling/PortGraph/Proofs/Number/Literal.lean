import Mathlib.Data.Int.Notation
import Mathlib.Tactic.Common
import PortGraph.Number.Basic
import PortGraph.Proofs.Text.Decimal

/-!
Integers as whole texts. The digits of an integer read back as the integer when a signed word can
hold it. Read as a decimal they are the double nearest to it, which there is for every integer of a
word.
-/

namespace PortGraph

namespace Text.Decimal

theorem length_natural_le {n k : ℕ} (hpos : 0 < k) (h : n < Nat.pow 10 k) :
    (natural n).length ≤ k := by
  induction n using natural.induct generalizing k with
  | case1 n hsmall =>
    rw [natural_of_lt hsmall]
    exact hpos
  | case2 n hlarge ih =>
    obtain ⟨k, rfl⟩ : ∃ j, k = j + 1 := ⟨k - 1, by omega⟩
    change n < Nat.pow 10 k * 10 at h
    have hk : 0 < k := by
      rcases Nat.eq_zero_or_pos k with rfl | hk
      · exact absurd h hlarge
      · exact hk
    have hrest := ih hk (by omega)
    rw [natural_of_ge hlarge, List.length_append, List.length_singleton]
    omega

theorem digits?_natural (n : ℕ) : digits? (natural n) = some n :=
  digits?_eq_some.mpr ⟨run_natural n, value_natural n⟩

/-- Digits begin with no sign. -/
theorem head_natural (n : ℕ) : ∃ c cs, natural n = c :: cs ∧ c ≠ '-' ∧ c ≠ '+' := by
  obtain ⟨c, cs, hc⟩ := List.exists_cons_of_ne_nil (run_natural n).ne_nil
  have hdigit := (run_natural n).all c (by simp [hc])
  refine ⟨c, cs, hc, ?_, ?_⟩ <;> rintro rfl <;> exact absurd hdigit (by decide)

theorem integer?_natural (n : ℕ) : integer? (natural n) =
    if n < Nat.pow 2 63 then some (n : ℤ) else none := by
  obtain ⟨c, cs, hc, hminus, hplus⟩ := head_natural n
  have hread : integer? (natural n) =
      ((digits? (natural n)).filter (· < Nat.pow 2 63)).map fun n => (n : ℤ) := by
    rw [hc]
    unfold integer?
    split
    · exact absurd (List.cons.inj ‹_›).1 hminus
    · exact absurd (List.cons.inj ‹_›).1 hplus
    · rfl
  rw [hread, digits?_natural]
  split_ifs with h
  · rw [Option.filter_some_pos (by simpa using h)]
    rfl
  · rw [Option.filter_some_neg (by simpa using h)]
    rfl

/-- An integer reads back from its digits just when a signed word can hold it. -/
theorem integer?_integer (n : ℤ) : integer? (integer n) =
    if -(Nat.pow 2 63) ≤ n ∧ n < Nat.pow 2 63 then some n else none := by
  cases n with
  | ofNat n =>
    rw [integer, integer?_natural]
    refine if_congr ?_ rfl rfl
    rw [Int.ofNat_eq_natCast]
    omega
  | negSucc n =>
    have heq := Int.negSucc_eq n
    rw [integer, integer?, digits?_natural]
    by_cases h : n + 1 ≤ Nat.pow 2 63
    · rw [Option.filter_some_pos (by simpa using h), if_pos (by omega), heq]
      rfl
    · rw [Option.filter_some_neg (by simpa using h), if_neg (by omega)]
      rfl

end Text.Decimal

namespace Binary64

open Text.Decimal

/-! ### Doubles next to integers -/

theorem exponentFor_le (num den : ℕ) :
    exponentFor num den ≤ max leastExponent ((num.log2 : ℤ) - den.log2 - 52) := by
  unfold exponentFor
  dsimp only
  split_ifs <;> omega

/-- A quotient has a double next to it unless it is too large. -/
theorem exists_ofRatio? {num den : ℕ} (h : (num.log2 : ℤ) - den.log2 < 1022) (negative : Bool) :
    ∃ x, ofRatio? negative num den = some x := by
  have hle := exponentFor_le num den
  simp only [leastExponent] at hle
  unfold ofRatio?
  dsimp only [greatestExponent]
  split_ifs with hzero hcarry hlarge hlarge
  · exact ⟨_, rfl⟩
  · exact ⟨_, rfl⟩
  · omega
  · exact ⟨_, rfl⟩
  · omega

theorem exists_ofInt? {n : ℤ} (h : Number.InRange n) : ∃ x, ofInt? n = some x := by
  obtain ⟨hlow, hhigh⟩ := h
  have hbound : n.natAbs < 2 ^ 65 := by
    simp only [Nat.pow_eq, Nat.reducePow] at *
    omega
  have hlog : n.natAbs.log2 < 65 := by
    rcases Nat.eq_zero_or_pos n.natAbs with hzero | hpos
    · rw [hzero]
      decide
    · exact (Nat.log2_lt (Nat.ne_of_gt hpos)).mpr hbound
  have hone : Nat.log2 1 = 0 := by decide
  exact exists_ofRatio? (by omega) _

/-- The digits of a natural number, as a decimal. -/
theorem Literal.ofText?_natural (n : ℕ) :
    Literal.ofText? (natural n) = some ⟨false, natural n, 0⟩ := by
  obtain ⟨c, cs, hc, hminus, hplus⟩ := head_natural n
  have hspan : span (c :: cs) = (c :: cs, []) := by
    have hall := (run_natural n).all
    rw [hc] at hall
    have hends : Ends [] := nofun
    simpa using span_append hall hends
  unfold Literal.ofText?
  rw [hc]
  simp [hspan, hminus, hplus]

/-- They stand for the double nearest to it. -/
theorem ofText?_natural {n : ℕ} (h : (natural n).length ≤ 400) :
    ofText? (natural n) = ofInt? n := by
  have hnegative : decide ((n : ℤ) < 0) = false := by simp
  unfold ofText? ofInt?
  rw [Literal.ofText?_natural, Option.bind_some, Int.natAbs_natCast, hnegative]
  unfold Literal.value?
  simp only [value_natural]
  split_ifs with hzero hlarge hsmall
  · rw [hzero]
    rfl
  · simp only [length] at hlarge
    omega
  · simp only [length] at hsmall
    omega
  · rw [Int.toNat_zero, Nat.pow_eq, Nat.pow_zero, Nat.mul_one]
  · omega

end Binary64

end PortGraph
