import Mathlib.Data.Int.Notation
import Mathlib.Tactic.Common
import Mathlib.Tactic.Positivity
import Mathlib.Tactic.Ring
import PortGraph.Number.Arithmetic
import PortGraph.Proofs.Number.Literal

/-!
Rounding of integers. A double that is a whole number has 53 significant bits; an integer goes to
the nearest of these, a half to the even one. Sums, differences and products of whole doubles are
the exact integers, rounded once.
-/

namespace PortGraph.Binary64

/-! ### The nearest multiple -/

section HalfEven

variable {num den : ℕ}

theorem roundHalfEven_mul_mul {c : ℕ} (hc : 0 < c) (num den : ℕ) :
    roundHalfEven (num * c) (den * c) = roundHalfEven num den := by
  have hdiv : num * c / (den * c) = num / den := Nat.mul_div_mul_right num den hc
  have hmod : num * c % (den * c) = num % den * c := Nat.mul_mod_mul_right c num den
  have hbelow : 2 * (num % den * c) < den * c ↔ 2 * (num % den) < den := by
    rw [← Nat.mul_assoc, Nat.mul_lt_mul_right hc]
  have habove : den * c < 2 * (num % den * c) ↔ den < 2 * (num % den) := by
    rw [← Nat.mul_assoc, Nat.mul_lt_mul_right hc]
  simp only [roundHalfEven, hdiv, hmod, hbelow, habove]

theorem roundHalfEven_one (n : ℕ) : roundHalfEven n 1 = n := by
  simp [roundHalfEven, Nat.mod_one]

theorem roundHalfEven_le (num den : ℕ) : roundHalfEven num den ≤ num / den + 1 := by
  unfold roundHalfEven
  dsimp only
  split_ifs <;> omega

/-- No more than half a step is lost, and just half a step only at an even multiple. -/
theorem roundHalfEven_spec (hden : 0 < den) (num : ℕ) :
    2 * ((num : ℤ) - roundHalfEven num den * den).natAbs ≤ den ∧
      (2 * ((num : ℤ) - roundHalfEven num den * den).natAbs = den →
        roundHalfEven num den % 2 = 0) := by
  have hlt := Nat.mod_lt num hden
  have hnum : (num : ℤ) = num / den * den + (num % den : ℕ) := by
    have heq := Nat.div_add_mod' num den
    exact_mod_cast heq.symm
  have hup : ((num : ℤ) / den + 1) * den = num / den * den + den := by ring
  unfold roundHalfEven
  dsimp only
  split_ifs with hbelow habove heven
  · push_cast
    omega
  · push_cast
    rw [hup]
    omega
  · push_cast
    omega
  · push_cast
    rw [hup]
    omega

/-- Another multiple is a step or more away. -/
theorem le_natAbs_of_ne {k q : ℤ} (h : k ≠ q) (den : ℕ) : den ≤ (k * den - q * den).natAbs := by
  rw [← Int.sub_mul, Int.natAbs_mul, Int.natAbs_natCast]
  exact Nat.le_mul_of_pos_left den (Int.natAbs_pos.mpr (sub_ne_zero.mpr h))

theorem roundHalfEven_closest (hden : 0 < den) (num : ℕ) (k : ℤ) :
    ((num : ℤ) - roundHalfEven num den * den).natAbs ≤ (num - k * den).natAbs := by
  by_cases hk : k = roundHalfEven num den
  · rw [hk]
  · have hstep := le_natAbs_of_ne hk den
    have hhalf := (roundHalfEven_spec hden num).1
    omega

theorem roundHalfEven_even (hden : 0 < den) {k : ℤ} (hk : k ≠ roundHalfEven num den)
    (htie : (num - k * den).natAbs = ((num : ℤ) - roundHalfEven num den * den).natAbs) :
    roundHalfEven num den % 2 = 0 := by
  have hstep := le_natAbs_of_ne hk den
  obtain ⟨hhalf, heven⟩ := roundHalfEven_spec hden num
  exact heven (by omega)

end HalfEven

/-! ### Whole doubles -/

/-- The integers that are values of doubles without a bound on the exponent: those of 53
significant bits. -/
def Significant (n : ℤ) : Prop :=
  ∃ (a : ℤ) (e : ℕ), a.natAbs < mantissaBound ∧ n = a * 2 ^ e

/-- The significant integer nearest to `n`. When there are two, it is the one with the even
mantissa. -/
structure Nearest (n m : ℤ) : Prop where
  significant : Significant m
  closest : ∀ k, Significant k → (n - m).natAbs ≤ (n - k).natAbs
  even : ∀ k, Significant k → k ≠ m → (n - k).natAbs = (n - m).natAbs →
    ∃ (a : ℤ) (e : ℕ), (2 * a).natAbs < mantissaBound ∧ m = 2 * a * 2 ^ e

theorem mantissaBound_eq : mantissaBound = 2 ^ 53 := rfl

theorem significant_of_lt {n : ℤ} (h : n.natAbs < mantissaBound) : Significant n :=
  ⟨n, 0, h, by simp⟩

theorem Significant.neg {n : ℤ} (h : Significant n) : Significant (-n) := by
  obtain ⟨a, e, ha, rfl⟩ := h
  exact ⟨-a, e, by simpa using ha, by simp⟩

theorem significant_bound (e : ℕ) : Significant (2 ^ 53 * 2 ^ e) := by
  refine ⟨1, 53 + e, by decide, ?_⟩
  rw [Int.one_mul, pow_add]

/-- A significant integer is a multiple of the step, or it lies below all integers with that
step. -/
theorem Significant.multiple_or_lt {k : ℤ} (h : Significant k) (e : ℕ) :
    (∃ j : ℤ, k = j * 2 ^ e) ∨ 0 < e ∧ k.natAbs < 2 ^ 52 * 2 ^ e := by
  obtain ⟨a, f, ha, rfl⟩ := h
  rcases le_or_gt e f with hle | hlt
  · obtain ⟨d, rfl⟩ := Nat.exists_eq_add_of_le hle
    refine Or.inl ⟨a * 2 ^ d, ?_⟩
    ring
  · obtain ⟨d, rfl⟩ : ∃ d, e = f + 1 + d := Nat.exists_eq_add_of_le hlt
    refine Or.inr ⟨by omega, ?_⟩
    rw [mantissaBound_eq] at ha
    have hpow : (2 : ℕ) ^ f * 2 ≤ 2 ^ (f + 1 + d) := by
      rw [← pow_succ]
      exact Nat.pow_le_pow_right (by decide) (by omega)
    calc (a * 2 ^ f).natAbs = a.natAbs * 2 ^ f := by simp [Int.natAbs_mul, Int.natAbs_pow]
      _ < 2 ^ 53 * 2 ^ f := Nat.mul_lt_mul_of_pos_right ha (Nat.two_pow_pos f)
      _ = 2 ^ 52 * (2 ^ f * 2) := by ring
      _ ≤ 2 ^ 52 * 2 ^ (f + 1 + d) := Nat.mul_le_mul_left _ hpow

namespace Nearest

variable {n m m' : ℤ}

theorem neg (h : Nearest n m) : Nearest (-n) (-m) where
  significant := h.significant.neg
  closest k hk := by
    have hclosest := h.closest (-k) hk.neg
    omega
  even k hk hne htie := by
    obtain ⟨a, e, ha, hm⟩ := h.even (-k) hk.neg (by omega) (by omega)
    exact ⟨-a, e, by omega, by rw [hm]; ring⟩

theorem eq_of_significant (h : Nearest n m) (hn : Significant n) : m = n := by
  have hclosest := h.closest n hn
  omega

theorem eq_iff_significant (h : Nearest n m) : m = n ↔ Significant n :=
  ⟨fun heq => heq ▸ h.significant, h.eq_of_significant⟩

/-- Rounding does not cross the bound up to which every integer is significant. -/
theorem bound_le (h : Nearest n m) (hn : mantissaBound ≤ n.natAbs) : mantissaBound ≤ m.natAbs := by
  have hup := h.closest (2 ^ 53) (by simpa using significant_bound 0)
  have hdown := h.closest (-2 ^ 53) (by simpa using (significant_bound 0).neg)
  rw [mantissaBound_eq] at *
  omega

theorem eq_of_lt (h : Nearest n m) (hm : m.natAbs < mantissaBound) : m = n :=
  h.eq_of_significant <| significant_of_lt <| by
    by_contra hn
    exact absurd (h.bound_le (Nat.le_of_not_lt hn)) (Nat.not_le_of_lt hm)

/-- Between two integers of even mantissas lies one that is nearer to the middle. -/
theorem not_tie_of_lt (h : Nearest n m) {a b : ℤ} {e : ℕ} (ha : (2 * a).natAbs < mantissaBound)
    (hm : m = 2 * a * 2 ^ e) (hm' : m' = 2 * b * 2 ^ e) (hlt : m < m') :
    (n - m).natAbs ≠ (n - m').natAbs := by
  have hpos : 0 < (2 : ℤ) ^ e := by positivity
  have hab : a + 1 ≤ b := by
    by_contra hsmall
    have hback : 2 * b * 2 ^ e ≤ 2 * a * 2 ^ e :=
      Int.mul_le_mul_of_nonneg_right (by omega) hpos.le
    omega
  have hfar : 2 * (a + 1) * 2 ^ e ≤ 2 * b * 2 ^ e :=
    Int.mul_le_mul_of_nonneg_right (by omega) hpos.le
  have hfar_eq : 2 * (a + 1) * 2 ^ e = m + 2 * 2 ^ e := by rw [hm]; ring
  have hmid : Significant (m + 2 ^ e) := by
    rw [mantissaBound_eq] at ha
    exact ⟨2 * a + 1, e, by rw [mantissaBound_eq]; omega, by rw [hm]; ring⟩
  have hnear := h.closest _ hmid
  omega

theorem unique (h : Nearest n m) (h' : Nearest n m') : m = m' := by
  by_contra hne
  have htie : (n - m).natAbs = (n - m').natAbs :=
    Nat.le_antisymm (h.closest m' h'.significant) (h'.closest m h.significant)
  obtain ⟨a, e, ha, hm⟩ := h.even m' h'.significant (Ne.symm hne) htie.symm
  obtain ⟨a', e', ha', hm'⟩ := h'.even m h.significant hne htie
  wlog hle : e ≤ e' generalizing m m' a a' e e'
  · exact this h' h (Ne.symm hne) htie.symm a' e' ha' hm' a e ha hm (by omega)
  obtain ⟨d, rfl⟩ := Nat.exists_eq_add_of_le hle
  have hcoarse : m' = 2 * (a' * 2 ^ d) * 2 ^ e := by rw [hm']; ring
  rcases lt_or_gt_of_ne hne with hlt | hgt
  · exact h.not_tie_of_lt ha hm hcoarse hlt htie
  · have hfine : -m = 2 * -a * 2 ^ e := by rw [hm]; ring
    have hcoarse' : -m' = 2 * -(a' * 2 ^ d) * 2 ^ e := by rw [hcoarse]; ring
    exact h.neg.not_tie_of_lt (by omega) hfine hcoarse' (by omega) (by omega)

end Nearest

/-! ### The step of an integer -/

/-- The exponent of the last of 53 significant bits, none of them after the point. -/
def wholeExponent (n : ℕ) : ℕ := n.log2 - 52

/-- The multiple of the step nearest to a natural number. -/
def nearestWhole (n : ℕ) : ℕ :=
  roundHalfEven n (2 ^ wholeExponent n) * 2 ^ wholeExponent n

theorem lt_step_mul (n : ℕ) : n < 2 ^ 53 * 2 ^ wholeExponent n := by
  calc n < 2 ^ (n.log2 + 1) := Nat.lt_log2_self
    _ ≤ 2 ^ (53 + wholeExponent n) :=
      Nat.pow_le_pow_right (by decide) (by unfold wholeExponent; omega)
    _ = 2 ^ 53 * 2 ^ wholeExponent n := pow_add 2 53 _

theorem step_mul_le {n : ℕ} (h : 0 < wholeExponent n) : 2 ^ 52 * 2 ^ wholeExponent n ≤ n := by
  have hlog : 52 + wholeExponent n = n.log2 := by
    unfold wholeExponent at *
    omega
  have hne : n ≠ 0 := by
    rintro rfl
    exact absurd h (by decide)
  rw [← pow_add, hlog]
  exact Nat.log2_self_le hne

theorem roundHalfEven_step_le (n : ℕ) : roundHalfEven n (2 ^ wholeExponent n) ≤ 2 ^ 53 := by
  have hquotient : n / 2 ^ wholeExponent n < 2 ^ 53 :=
    Nat.div_lt_of_lt_mul (Nat.mul_comm .. ▸ lt_step_mul n)
  have hle := roundHalfEven_le n (2 ^ wholeExponent n)
  omega

/-- Below the integers with its step, nothing is as near to `n` as its nearest multiple. -/
theorem nearestWhole_closer {n : ℕ} (h : 0 < wholeExponent n) {k : ℤ}
    (hk : k.natAbs < 2 ^ 52 * 2 ^ wholeExponent n) :
    ((n : ℤ) - nearestWhole n).natAbs < (n - k).natAbs := by
  have hclosest := roundHalfEven_closest (Nat.two_pow_pos (wholeExponent n)) n (2 ^ 52)
  have hle := step_mul_le h
  unfold nearestWhole
  generalize 2 ^ wholeExponent n = step at *
  push_cast
  omega

theorem nearest_nearestWhole (n : ℕ) : Nearest n (nearestWhole n) where
  significant := by
    have hle := roundHalfEven_step_le n
    unfold nearestWhole
    push_cast
    rcases Nat.lt_or_eq_of_le hle with hlt | heq
    · exact ⟨_, _, by simpa [mantissaBound_eq] using hlt, rfl⟩
    · simpa [heq] using significant_bound (wholeExponent n)
  closest k hk := by
    rcases hk.multiple_or_lt (wholeExponent n) with ⟨j, rfl⟩ | ⟨hstep, hlow⟩
    · simpa [nearestWhole] using
        roundHalfEven_closest (Nat.two_pow_pos (wholeExponent n)) n j
    · exact (nearestWhole_closer hstep hlow).le
  even k hk hne htie := by
    rcases hk.multiple_or_lt (wholeExponent n) with ⟨j, rfl⟩ | ⟨hstep, hlow⟩
    · have hne' : j ≠ roundHalfEven n (2 ^ wholeExponent n) := by
        rintro rfl
        exact hne (by simp [nearestWhole])
      have heven := roundHalfEven_even (Nat.two_pow_pos (wholeExponent n)) hne'
        (by simpa [nearestWhole] using htie)
      obtain ⟨c, hc⟩ := Nat.dvd_of_mod_eq_zero heven
      have hle := roundHalfEven_step_le n
      rcases Nat.lt_or_eq_of_le hle with hlt | heq
      · exact ⟨c, wholeExponent n, by rw [mantissaBound_eq]; omega, by simp [nearestWhole, hc]⟩
      · refine ⟨2 ^ 51, wholeExponent n + 1, by decide, ?_⟩
        rw [nearestWhole, heq, pow_succ]
        push_cast
        ring
    · exact absurd htie (nearestWhole_closer hstep hlow).ne'

/-! ### Doubles that are integers -/

/-- An integer from its sign and its magnitude. -/
def signed (negative : Bool) (n : ℕ) : ℤ := if negative then -n else n

theorem signed_natAbs (n : ℤ) : signed (decide (n < 0)) n.natAbs = n := by
  simp only [signed, decide_eq_true_eq]
  split_ifs <;> omega

theorem natAbs_signed (negative : Bool) (n : ℕ) : (signed negative n).natAbs = n := by
  cases negative <;> simp [signed]

theorem signed_not (negative : Bool) (n : ℕ) : signed (!negative) n = -signed negative n := by
  cases negative <;> simp [signed]

theorem signed_mul (negative : Bool) (n c : ℕ) :
    signed negative (n * c) = signed negative n * c := by
  cases negative <;> simp [signed]

theorem signed_mul_signed (s t : Bool) (n m : ℕ) :
    signed (s != t) (n * m) = signed s n * signed t m := by
  cases s <;> cases t <;> simp [signed]

theorem nearest_signed (negative : Bool) (n : ℕ) :
    Nearest (signed negative n) (signed negative (nearestWhole n)) := by
  cases negative
  · exact nearest_nearestWhole n
  · exact (nearest_nearestWhole n).neg

theorem ratio_den (x : Binary64) : ∃ k, x.ratio.2 = 2 ^ k := by
  unfold ratio
  split_ifs
  · exact ⟨0, rfl⟩
  · exact ⟨_, rfl⟩

/-- A double is an integer when its magnitude is a whole number. -/
theorem toInt?_eq_some {x : Binary64} {a : ℤ} :
    x.toInt? = some a ↔ ∃ n, a = signed x.negative n ∧ x.ratio.1 = n * x.ratio.2 := by
  have hpos : 0 < x.ratio.2 := by
    obtain ⟨k, hk⟩ := x.ratio_den
    exact hk ▸ Nat.two_pow_pos k
  unfold toInt?
  dsimp only
  constructor
  · intro h
    by_cases hwhole : x.ratio.1 % x.ratio.2 = 0
    · rw [if_pos hwhole] at h
      have hdiv := Nat.div_mul_cancel (Nat.dvd_of_mod_eq_zero hwhole)
      exact ⟨x.ratio.1 / x.ratio.2, (Option.some.inj h).symm, hdiv.symm⟩
    · simp [hwhole] at h
  · rintro ⟨n, rfl, hn⟩
    rw [hn, Nat.mul_mod_left, if_pos rfl, Nat.mul_div_cancel n hpos]
    rfl

theorem toInt?_neg {x : Binary64} {a : ℤ} (h : x.toInt? = some a) : x.neg.toInt? = some (-a) := by
  obtain ⟨n, rfl, hn⟩ := toInt?_eq_some.mp h
  exact toInt?_eq_some.mpr ⟨n, (signed_not x.negative n).symm, hn⟩

/-- The signed mantissa of an integer over an exponent that is no larger than its own. -/
theorem signedAt_mul {x : Binary64} {a e : ℤ} (h : x.toInt? = some a) (he : e ≤ x.exponent) :
    x.signedAt e * (2 ^ e.toNat : ℕ) = a * (2 ^ (-e).toNat : ℕ) := by
  obtain ⟨n, rfl, hn⟩ := toInt?_eq_some.mp h
  have hmantissa :
      x.mantissa * 2 ^ (x.exponent - e).toNat * 2 ^ e.toNat = n * 2 ^ (-e).toNat := by
    unfold ratio at hn
    split_ifs at hn with hwhole
    · simp only [Nat.pow_eq, Nat.mul_one] at hn
      rw [← hn, Nat.mul_assoc, Nat.mul_assoc, ← pow_add, ← pow_add]
      congr 2
      omega
    · simp only [Nat.pow_eq] at hn
      rw [hn, Nat.mul_assoc, Nat.mul_assoc, ← pow_add, ← pow_add]
      congr 2
      omega
  have hsigned : x.signedAt e = signed x.negative (x.mantissa * 2 ^ (x.exponent - e).toNat) := rfl
  rw [hsigned, ← signed_mul, hmantissa, signed_mul]

/-! ### Integers as doubles -/

section Quotients

variable {num den : ℕ}

theorem log2_mul_two_pow {n : ℕ} (hn : n ≠ 0) (k : ℕ) : (n * 2 ^ k).log2 = n.log2 + k := by
  have hpos := Nat.two_pow_pos k
  refine (Nat.log2_eq_iff (Nat.mul_ne_zero hn hpos.ne')).mpr ⟨?_, ?_⟩
  · rw [pow_add]
    exact Nat.mul_le_mul_right _ (Nat.log2_self_le hn)
  · rw [Nat.add_right_comm, pow_add]
    exact Nat.mul_lt_mul_of_pos_right Nat.lt_log2_self hpos

/-- A quotient rounds to the same double when both sides are scaled by a power of two. -/
theorem ofRatio?_mul_two_pow (negative : Bool) (hden : den ≠ 0) (num k : ℕ) :
    ofRatio? negative (num * 2 ^ k) (den * 2 ^ k) = ofRatio? negative num den := by
  have hpos := Nat.two_pow_pos k
  have hscaled : ∀ e, scaled (num * 2 ^ k) (den * 2 ^ k) e =
      ((scaled num den e).1 * 2 ^ k, (scaled num den e).2 * 2 ^ k) := by
    intro e
    unfold scaled
    split_ifs
    · rw [Nat.mul_right_comm]
    · rw [Nat.mul_right_comm]
  by_cases hnum : num = 0
  · simp [ofRatio?, hnum]
  · have hexponent : exponentFor (num * 2 ^ k) (den * 2 ^ k) = exponentFor num den := by
      have hlog : (((num * 2 ^ k).log2 : ℕ) : ℤ) - ((den * 2 ^ k).log2 : ℕ) - 53 =
          num.log2 - den.log2 - 53 := by
        rw [log2_mul_two_pow hnum, log2_mul_two_pow hden]
        omega
      unfold exponentFor
      simp only [hlog, hscaled, Nat.mul_div_mul_right _ _ hpos]
    unfold ofRatio?
    simp only [hexponent, hscaled, roundHalfEven_mul_mul hpos, hnum, Nat.mul_eq_zero, hpos.ne',
      or_self, if_false]

end Quotients

/-- An integer's leading bit decides its exponent. -/
theorem exponentFor_one {n : ℕ} (hn : n ≠ 0) : exponentFor n 1 = n.log2 - 52 := by
  have hlog := Nat.log2_self_le hn
  have hone : Nat.log2 1 = 0 := by decide
  -- the first guess is one too low: at it the whole part has 54 bits
  have hfilled : mantissaBound ≤
      (scaled n 1 (n.log2 - 53)).1 / (scaled n 1 (n.log2 - 53)).2 := by
    rw [mantissaBound_eq]
    unfold scaled
    split_ifs with hlarge
    · obtain ⟨d, hd⟩ : ∃ d, n.log2 = 53 + d := Nat.exists_eq_add_of_le (by omega)
      have hstep : ((n.log2 : ℤ) - 53).toNat = d := by omega
      rw [hd, pow_add] at hlog
      rw [hstep, Nat.one_mul, Nat.pow_eq]
      exact (Nat.le_div_iff_mul_le (Nat.two_pow_pos d)).mpr hlog
    · obtain ⟨d, hd⟩ : ∃ d, 53 = n.log2 + d := Nat.exists_eq_add_of_le (by omega)
      have hstep : (-((n.log2 : ℤ) - 53)).toNat = d := by omega
      rw [hstep, Nat.div_one, hd, pow_add]
      exact Nat.mul_le_mul_right _ hlog
  unfold exponentFor
  simp only [hone, Nat.cast_zero, Int.sub_zero, if_neg (Nat.not_lt_of_le hfilled), leastExponent]
  omega

/-- What an operation may give for an exact integer: the nearest double, or an overflow. -/
inductive Rounds (n : ℤ) : Result → Prop
  | finite {x : Binary64} {m : ℤ} (hx : x.toInt? = some m) (h : Nearest n m) :
      Rounds n (.finite x)
  | infinite {negative : Bool} (h : mantissaBound ≤ n.natAbs) : Rounds n (.infinite negative)

theorem rounds_zero (negative : Bool) : Rounds 0 (.finite (zero negative)) := by
  have hzero : (zero negative).toInt? = some 0 := by cases negative <;> decide +kernel
  have hnearest : Nearest 0 0 := nearest_nearestWhole 0
  exact .finite hzero hnearest

theorem ofRatio?_one_of_lt (negative : Bool) {n : ℕ} (hn : n ≠ 0) (h : n.log2 < 52) :
    ofRatio? negative n 1 =
      some ⟨negative, n * 2 ^ (52 - n.log2), -((52 - n.log2 : ℕ) : ℤ)⟩ := by
  have hexponent : exponentFor n 1 = -((52 - n.log2 : ℕ) : ℤ) := by
    rw [exponentFor_one hn]
    omega
  have hscaled : scaled n 1 (-((52 - n.log2 : ℕ) : ℤ)) = (n * 2 ^ (52 - n.log2), 1) := by
    unfold scaled
    rw [if_neg (by omega), Int.neg_neg, Int.toNat_natCast, Nat.pow_eq]
  have hsmall : n * 2 ^ (52 - n.log2) ≠ mantissaBound := by
    refine Nat.ne_of_lt ?_
    calc n * 2 ^ (52 - n.log2) < 2 ^ (n.log2 + 1) * 2 ^ (52 - n.log2) :=
          Nat.mul_lt_mul_of_pos_right Nat.lt_log2_self (Nat.two_pow_pos _)
      _ = mantissaBound := by rw [← pow_add, mantissaBound_eq]; congr 1; omega
  unfold ofRatio?
  simp only [hn, if_false, hexponent, hscaled, roundHalfEven_one, hsmall, greatestExponent]
  rw [if_pos (by omega)]

theorem ofRatio?_one_of_le (negative : Bool) {n : ℕ} (h : 52 ≤ n.log2) :
    ofRatio? negative n 1 =
      let q := roundHalfEven n (2 ^ wholeExponent n)
      let (m, e) := if q = mantissaBound then (2 ^ 52, ((wholeExponent n + 1 : ℕ) : ℤ))
        else (q, (wholeExponent n : ℤ))
      if e ≤ greatestExponent then some ⟨negative, m, e⟩ else none := by
  have hn : n ≠ 0 := by
    rintro rfl
    exact absurd h (by decide)
  have hexponent : exponentFor n 1 = wholeExponent n := by
    rw [exponentFor_one hn, wholeExponent]
    omega
  have hscaled : scaled n 1 (wholeExponent n) = (n, 2 ^ wholeExponent n) := by
    unfold scaled
    rw [if_pos (by omega), Int.toNat_natCast, Nat.one_mul, Nat.pow_eq]
  unfold ofRatio?
  simp only [hn, if_false, hexponent, hscaled]
  rfl

theorem toInt?_natCast (negative : Bool) (m e : ℕ) :
    toInt? ⟨negative, m, e⟩ = some (signed negative (m * 2 ^ e)) :=
  toInt?_eq_some.mpr ⟨m * 2 ^ e, rfl, by simp [ratio]⟩

theorem toInt?_neg_natCast (negative : Bool) (n k : ℕ) :
    toInt? ⟨negative, n * 2 ^ k, -(k : ℤ)⟩ = some (signed negative n) := by
  refine toInt?_eq_some.mpr ⟨n, rfl, ?_⟩
  unfold ratio
  split_ifs with hk
  · have hzero : k = 0 := by
      dsimp only at hk
      omega
    simp [hzero]
  · simp

theorem mantissaBound_le_of_step {n : ℕ} (h : 0 < wholeExponent n) : mantissaBound ≤ n := by
  have hle := step_mul_le h
  have hpow : (2 : ℕ) ^ 1 ≤ 2 ^ wholeExponent n := Nat.pow_le_pow_right (by decide) h
  rw [mantissaBound_eq]
  omega

/-- An integer rounds to its nearest, or it is too large for a double. -/
theorem rounds_one (negative : Bool) (n : ℕ) :
    Rounds (signed negative n) (rounded negative n 1) := by
  by_cases hn : n = 0
  · subst hn
    cases negative <;> exact rounds_zero _
  have hnearest := nearest_signed negative n
  have hbound (hstep : 0 < wholeExponent n) : mantissaBound ≤ (signed negative n).natAbs :=
    (natAbs_signed negative n).symm ▸ mantissaBound_le_of_step hstep
  unfold rounded
  rcases Nat.lt_or_ge n.log2 52 with hlog | hlog
  · rw [ofRatio?_one_of_lt negative hn hlog]
    have hstep : wholeExponent n = 0 := Nat.sub_eq_zero_of_le hlog.le
    have hexact : nearestWhole n = n := by simp [nearestWhole, hstep, roundHalfEven_one]
    rw [hexact] at hnearest
    exact .finite (toInt?_neg_natCast negative n _) hnearest
  · rw [ofRatio?_one_of_le negative hlog]
    dsimp only
    split_ifs with hcarry hlarge hlarge
    · have hwhole : 2 ^ 52 * 2 ^ (wholeExponent n + 1) = nearestWhole n := by
        rw [nearestWhole, hcarry, mantissaBound_eq, pow_succ]
        ring
      exact .finite (hwhole ▸ toInt?_natCast ..) hnearest
    · exact .infinite (hbound (by unfold greatestExponent at hlarge; omega))
    · exact .finite (toInt?_natCast ..) hnearest
    · exact .infinite (hbound (by unfold greatestExponent at hlarge; omega))

theorem rounds_rounded (negative : Bool) (n k : ℕ) :
    Rounds (signed negative n) (rounded negative (n * 2 ^ k) (2 ^ k)) := by
  have hscale := ofRatio?_mul_two_pow negative Nat.one_ne_zero n k
  rw [Nat.one_mul] at hscale
  unfold rounded
  rw [hscale]
  exact rounds_one negative n

theorem exists_nearest {n : ℤ} (h : Number.InRange n) :
    ∃ m, (Number.integer n).toDouble.toInt? = some m ∧ Nearest n m := by
  obtain ⟨x, hx⟩ := exists_ofInt? h
  have hround := rounds_one (decide (n < 0)) n.natAbs
  have hfinite : rounded (decide (n < 0)) n.natAbs 1 = .finite x := by
    unfold rounded
    rw [← ofInt?, hx]
  rw [hfinite, signed_natAbs] at hround
  cases hround with
  | @finite x m hwhole hnearest => exact ⟨m, by simp [Number.toDouble, hx, hwhole], hnearest⟩

/-! ### Sums and products -/

section Operations

variable {x y : Binary64} {a b : ℤ}

theorem rounds_add (hx : x.toInt? = some a) (hy : y.toInt? = some b) :
    Rounds (a + b) (x.add y) := by
  have hxe := signedAt_mul hx (Int.min_le_left x.exponent y.exponent)
  have hye := signedAt_mul hy (Int.min_le_right x.exponent y.exponent)
  unfold add
  dsimp only
  generalize min x.exponent y.exponent = e at *
  -- over the smaller exponent both terms have whole mantissas, with nothing rounded yet
  have hsum :
      (x.signedAt e + y.signedAt e) * (2 ^ e.toNat : ℕ) = (a + b) * (2 ^ (-e).toNat : ℕ) := by
    rw [Int.add_mul, Int.add_mul, hxe, hye]
  generalize x.signedAt e + y.signedAt e = sum at *
  split_ifs with hzero hwhole
  · have hnull : a + b = 0 := by
      rw [hzero, Int.zero_mul, eq_comm, Int.mul_eq_zero] at hsum
      exact hsum.resolve_right (by positivity)
    rw [hnull]
    exact rounds_zero _
  · have hstep : (-e).toNat = 0 := by omega
    have hexact : signed (decide (sum < 0)) (sum.natAbs * 2 ^ e.toNat) = a + b := by
      rw [signed_mul, signed_natAbs, hsum, hstep, pow_zero, Nat.cast_one, Int.mul_one]
    have hround := rounds_one (decide (sum < 0)) (sum.natAbs * 2 ^ e.toNat)
    rwa [hexact] at hround
  · have hstep : e.toNat = 0 := by omega
    rw [hstep, pow_zero, Nat.cast_one, Int.mul_one] at hsum
    have habs : sum.natAbs = (a + b).natAbs * 2 ^ (-e).toNat := by
      rw [hsum, Int.natAbs_mul, Int.natAbs_natCast]
    have hexact : signed (decide (sum < 0)) (a + b).natAbs = a + b := by
      have hpos : ((2 ^ (-e).toNat : ℕ) : ℤ) ≠ 0 := by positivity
      refine Int.eq_of_mul_eq_mul_right hpos ?_
      rw [← signed_mul, ← habs, signed_natAbs, hsum]
    have hround := rounds_rounded (decide (sum < 0)) (a + b).natAbs (-e).toNat
    rwa [hexact, ← habs] at hround

theorem rounds_sub (hx : x.toInt? = some a) (hy : y.toInt? = some b) :
    Rounds (a - b) (x.sub y) := by
  rw [Int.sub_eq_add_neg]
  exact rounds_add hx (toInt?_neg hy)

theorem rounds_mul (hx : x.toInt? = some a) (hy : y.toInt? = some b) :
    Rounds (a * b) (x.mul y) := by
  obtain ⟨n, rfl, hn⟩ := toInt?_eq_some.mp hx
  obtain ⟨m, rfl, hm⟩ := toInt?_eq_some.mp hy
  obtain ⟨k, hk⟩ := x.ratio_den
  obtain ⟨l, hl⟩ := y.ratio_den
  have hproduct : x.ratio.1 * y.ratio.1 = n * m * 2 ^ (k + l) := by
    rw [hn, hm, hk, hl, pow_add]
    ring
  have hden : x.ratio.2 * y.ratio.2 = 2 ^ (k + l) := by rw [hk, hl, pow_add]
  unfold mul
  dsimp only
  rw [hproduct, hden, ← signed_mul_signed]
  exact rounds_rounded _ _ _

end Operations

end PortGraph.Binary64
