import Mathlib.Data.Int.Notation
import Mathlib.Data.List.Basic
import PortGraph.Proofs.Text.Parts
import PortGraph.Text.Decimal

/-!
Written numbers: what is written is a run of digits without leading zeros and without blanks, and the
run reads back as the number.
-/

namespace PortGraph.Text.Decimal

/-- A nonempty run of digits. -/
structure Run (ds : List Char) : Prop where
  ne_nil : ds ≠ []
  all : ∀ c ∈ ds, isDigit c = true

/-- The first digit is a zero only if it is the only one. -/
def NoLeadingZero (ds : List Char) : Prop := ∀ c rest, ds ≠ '0' :: c :: rest

/-- The text does not go on with a digit. -/
def Ends (cs : List Char) : Prop := ∀ c rest, cs = c :: rest → isDigit c = false

theorem ends_cons {c : Char} {cs : List Char} : Ends (c :: cs) ↔ isDigit c = false :=
  ⟨fun h => h c cs rfl, fun h _ _ heq => (List.cons.inj heq).1 ▸ h⟩

theorem Ends.stopped {cs : List Char} (h : Ends cs) : Stopped isDigit cs := by
  intro c hc
  obtain ⟨rest, rfl⟩ := List.head?_eq_some_iff.mp hc
  exact h c rest rfl

theorem span_append {ds rest : List Char} (hds : ∀ c ∈ ds, isDigit c = true) (hrest : Ends rest) :
    span (ds ++ rest) = (ds, rest) := by
  unfold span
  rw [takeWhile_append_stopped hds hrest.stopped, dropWhile_append_stopped hds hrest.stopped]

/-! ### Single digits -/

theorem isDigit_digit (n : ℕ) : isDigit (digit n) = true := by
  have hall : ∀ k < 10, isDigit (Char.ofNat (48 + k)) = true := by decide
  exact hall (n % 10) (Nat.mod_lt n (by decide))

theorem digitValue_digit (n : ℕ) : digitValue (digit n) = n % 10 := by
  have hall : ∀ k < 10, digitValue (Char.ofNat (48 + k)) = k := by decide
  exact hall (n % 10) (Nat.mod_lt n (by decide))

theorem digit_eq_zero_iff {n : ℕ} (h : n < 10) : digit n = '0' ↔ n = 0 := by
  have hall : ∀ k < 10, Char.ofNat (48 + k % 10) = '0' ↔ k = 0 := by decide
  exact hall n h

/-! ### Numbers -/

theorem value_snoc (ds : List Char) (c : Char) :
    value (ds ++ [c]) = 10 * value ds + digitValue c := by
  simp [value, List.foldl_append]

theorem natural_of_lt {n : ℕ} (h : n < 10) : natural n = [digit n] := by
  unfold natural
  rw [if_pos h]

theorem natural_of_ge {n : ℕ} (h : ¬ n < 10) : natural n = natural (n / 10) ++ [digit n] := by
  conv_lhs => unfold natural
  rw [if_neg h]

/-- What is written reads back. -/
theorem value_natural (n : ℕ) : value (natural n) = n := by
  induction n using natural.induct with
  | case1 n h =>
    rw [natural_of_lt h]
    simp only [value, List.foldl_cons, List.foldl_nil, digitValue_digit]
    omega
  | case2 n h ih =>
    rw [natural_of_ge h, value_snoc, ih, digitValue_digit]
    omega

theorem run_natural (n : ℕ) : Run (natural n) := by
  induction n using natural.induct with
  | case1 n h =>
    rw [natural_of_lt h]
    exact ⟨by simp, by simp [isDigit_digit]⟩
  | case2 n h ih =>
    rw [natural_of_ge h]
    refine ⟨by simp, ?_⟩
    intro c hc
    rcases List.mem_append.mp hc with hc | hc
    · exact ih.all c hc
    · rw [List.mem_singleton.mp hc]
      exact isDigit_digit n

theorem natural_injective : Function.Injective natural := fun n m h => by
  rw [← value_natural n, h, value_natural]

theorem natural_ne_minus (n : ℕ) (cs : List Char) : natural n ≠ '-' :: cs := by
  intro h
  have hdigit := (run_natural n).all '-' (by simp [h])
  exact absurd hdigit (by decide)

/-- No two integers have one text. -/
theorem integer_injective : Function.Injective integer := by
  intro i j h
  cases i with
  | ofNat n =>
    cases j with
    | ofNat m => rw [natural_injective h]
    | negSucc m => exact absurd h (natural_ne_minus n _)
  | negSucc n =>
    cases j with
    | ofNat m => exact absurd h.symm (natural_ne_minus m _)
    | negSucc m => rw [Nat.succ_injective (natural_injective (List.cons.inj h).2)]

theorem head?_natural {n : ℕ} (hpos : 0 < n) : (natural n).head? ≠ some '0' := by
  induction n using natural.induct with
  | case1 n h =>
    rw [natural_of_lt h]
    have hzero := (digit_eq_zero_iff h).not.mpr (by omega)
    simpa using hzero
  | case2 n h ih =>
    rw [natural_of_ge h, List.head?_append_of_ne_nil _ (run_natural _).ne_nil]
    exact ih (by omega)

theorem noLeadingZero_of_head? {ds : List Char} (h : ds.head? ≠ some '0') : NoLeadingZero ds := by
  rintro c rest rfl
  exact h rfl

theorem noLeadingZero_natural (n : ℕ) : NoLeadingZero (natural n) := by
  rcases Nat.eq_zero_or_pos n with rfl | hpos
  · rw [natural_of_lt (by decide)]
    intro c rest heq
    simp at heq
  · exact noLeadingZero_of_head? (head?_natural hpos)

/-! ### Whole texts -/

theorem digits?_eq_some {cs : List Char} {n : ℕ} :
    digits? cs = some n ↔ Run cs ∧ value cs = n := by
  unfold digits?
  constructor
  · intro h
    split_ifs at h with hrun
    simp only [Bool.and_eq_true, Bool.not_eq_true', List.isEmpty_eq_false_iff,
      List.all_eq_true] at hrun
    exact ⟨⟨hrun.1, hrun.2⟩, Option.some.inj h⟩
  · rintro ⟨hrun, rfl⟩
    have hall : cs.all isDigit = true := List.all_eq_true.mpr hrun.all
    simp [hrun.ne_nil, hall]

/-- A plus sign may stand in front of the digits. -/
theorem natural?_eq_some {bound n : ℕ} {cs : List Char} : natural? bound cs = some n ↔
    ∃ ds, (cs = ds ∨ cs = '+' :: ds) ∧ Run ds ∧ value ds = n ∧ n < bound := by
  have hread : ∀ ds, (digits? ds).filter (· < bound) = some n ↔
      Run ds ∧ value ds = n ∧ n < bound := by
    intro ds
    rw [Option.filter_eq_some_iff, digits?_eq_some, and_assoc, decide_eq_true_iff]
  unfold natural?
  split
  · rename_i rest
    rw [hread]
    constructor
    · exact fun h => ⟨rest, Or.inr rfl, h⟩
    · rintro ⟨ds, rfl | hds, hrun, hvalue⟩
      -- a plus sign is no digit
      · exact absurd (hrun.all '+' (by simp)) (by decide)
      · obtain rfl := (List.cons.inj hds).2
        exact ⟨hrun, hvalue⟩
  · rename_i hplus
    rw [hread]
    constructor
    · exact fun h => ⟨cs, Or.inl rfl, h⟩
    · rintro ⟨ds, rfl | rfl, h⟩
      · exact h
      · exact absurd rfl (hplus ds)

/-! ### Blanks -/

theorem isBlank_of_isDigit {c : Char} (h : isDigit c = true) : isBlank c = false := by
  simp only [isDigit, Bool.and_eq_true, decide_eq_true_eq] at h
  simp only [isBlank]
  grind

theorem trim_natural (n : ℕ) : trim (natural n) = natural n :=
  trim_of_forall fun c hc => isBlank_of_isDigit ((run_natural n).all c hc)

theorem trim_integer (n : ℤ) : trim (integer n) = integer n := by
  cases n with
  | ofNat n => exact trim_natural n
  | negSucc n =>
    refine trim_of_forall fun c hc => ?_
    rcases List.mem_cons.mp hc with rfl | hc
    · decide
    · exact isBlank_of_isDigit ((run_natural _).all c hc)

end PortGraph.Text.Decimal
