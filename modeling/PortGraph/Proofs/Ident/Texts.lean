import Mathlib.Data.List.GetD
import Mathlib.Tactic.Common
import PortGraph.Ident.Basic
import PortGraph.Proofs.Text.Bytes
import PortGraph.Proofs.Text.Parts

/-!
Identifiers and their texts. The digits of a ULID are those of its value in base 32 and spell it
again in either case of letters; as their alphabet ascends and their count is fixed, texts are in
the order of the values.
-/

namespace PortGraph

namespace Ulid

/-! ### Single digits -/

theorem alphabet_ascends : alphabet.Pairwise (· < ·) := by decide

theorem digitChar_lt {n m : ℕ} (h : n < m) (hm : m < 32) : digitChar n < digitChar m := by
  have hlength : ∀ k < 32, k < alphabet.length := fun k hk => hk
  rw [digitChar, digitChar, List.getD_eq_getElem _ _ (hlength n (h.trans hm)),
    List.getD_eq_getElem _ _ (hlength m hm)]
  exact List.pairwise_iff_getElem.mp alphabet_ascends _ _ _ _ h

theorem digitChar_mem {n : ℕ} (h : n < 32) : digitChar n ∈ alphabet := by
  have hall : ∀ k < 32, digitChar k ∈ alphabet := by decide
  exact hall n h

/-- A digit is read in either case. -/
theorem digitValue?_of_toUpper {c : Char} {n : ℕ} (hn : n < 32) (h : c.toUpper = digitChar n) :
    digitValue? c = some n := by
  have hall : ∀ k < 32, alphabet.findIdx? (· == digitChar k) = some k := by decide
  rw [digitValue?, h, hall n hn]

/-- What is a digit in upper case is an ASCII character, and not the mark of a prefix. -/
theorem ascii_of_toUpper {c : Char} (h : c.toUpper ∈ alphabet) : c.val.toNat < 128 ∧ c ≠ '_' := by
  have hall : ∀ d ∈ alphabet, decide (d.val.toNat < 128) := List.all_eq_true.mp (by decide)
  refine ⟨?_, ?_⟩
  · have hupper : c.toUpper.val.toNat < 128 := of_decide_eq_true (hall _ h)
    unfold Char.toUpper at hupper
    split_ifs at hupper with hletter
    · have hle : c.val.toNat ≤ 122 := hletter.2
      omega
    · exact hupper
  · rintro rfl
    exact absurd h (by decide)

/-! ### Runs of digits -/

theorem valueOf?_concat (cs : List Char) (c : Char) :
    valueOf? (cs ++ [c]) = (valueOf? cs).bind fun n => (digitValue? c).map (32 * n + ·) := by
  simp [valueOf?, List.foldlM_append]

/-- The digits of a number spell what they leave of it, whatever the case of their letters. -/
theorem valueOf?_of_toUpper {count n : ℕ} {cs : List Char}
    (h : cs.map Char.toUpper = digitsOf count n) : valueOf? cs = some (n % 32 ^ count) := by
  induction count generalizing n cs with
  | zero =>
    obtain rfl := List.map_eq_nil_iff.mp h
    simp [valueOf?, Nat.mod_one]
  | succ count ih =>
    obtain ⟨front, last, rfl, hfront, hlast⟩ := List.map_eq_append_iff.mp h
    obtain ⟨c, rfl, hc⟩ := List.map_eq_singleton_iff.mp hlast
    have hmod : n % 32 ^ (count + 1) = n % 32 + 32 * (n / 32 % 32 ^ count) := by
      rw [Nat.pow_succ', Nat.mod_mul]
    rw [valueOf?_concat, ih hfront, digitValue?_of_toUpper (Nat.mod_lt n (by decide)) hc, hmod]
    simp [Nat.add_comm]

theorem length_digitsOf (count n : ℕ) : (digitsOf count n).length = count := by
  induction count generalizing n with
  | zero => rfl
  | succ count ih => simp [digitsOf, ih]

theorem mem_alphabet_of_mem_digitsOf {count n : ℕ} {c : Char} (h : c ∈ digitsOf count n) :
    c ∈ alphabet := by
  induction count generalizing n with
  | zero => exact absurd h List.not_mem_nil
  | succ count ih =>
    rcases List.mem_append.mp h with h | h
    · exact ih h
    · rw [List.mem_singleton.mp h]
      exact digitChar_mem (Nat.mod_lt n (by decide))

/-- Most significant digit first. -/
theorem getElem?_digitsOf {count n i : ℕ} (h : i < count) :
    (digitsOf count n)[i]? = some (digitChar (n / 32 ^ (count - 1 - i) % 32)) := by
  induction count generalizing n with
  | zero => omega
  | succ count ih =>
    rcases Nat.lt_succ_iff_lt_or_eq.mp h with hlt | rfl
    · have hplace : count + 1 - 1 - i = count - 1 - i + 1 := by omega
      rw [digitsOf, List.getElem?_append_left (by rwa [length_digitsOf]), ih hlt,
        Nat.div_div_eq_div_mul, ← Nat.pow_succ', hplace]
    · rw [digitsOf, List.getElem?_append_right (by rw [length_digitsOf])]
      simp [length_digitsOf]

/-- Of two runs of one length the lesser stays the lesser, whatever follows. -/
theorem append_lt_append {as bs : List Char} (hlength : as.length = bs.length) (h : as < bs)
    (xs ys : List Char) : as ++ xs < bs ++ ys := by
  induction as generalizing bs with
  | nil =>
    obtain rfl := List.length_eq_zero_iff.mp hlength.symm
    exact absurd h (List.not_lt_nil _)
  | cons a as ih =>
    cases bs with
    | nil => exact absurd h (List.not_lt_nil _)
    | cons b bs =>
      refine List.cons_lt_cons_iff.mpr ?_
      rcases List.cons_lt_cons_iff.mp h with hlt | ⟨rfl, hlt⟩
      · exact Or.inl hlt
      · exact Or.inr ⟨rfl, ih (Nat.succ.inj hlength) hlt⟩

theorem append_lt_append_iff (front : List Char) {as bs : List Char} :
    front ++ as < front ++ bs ↔ as < bs := by
  induction front with
  | nil => rfl
  | cons c front ih => simp [ih]

theorem digitsOf_lt {count n m : ℕ} (h : n < m) (hm : m < 32 ^ count) :
    digitsOf count n < digitsOf count m := by
  induction count generalizing n m with
  | zero => omega
  | succ count ih =>
    rw [digitsOf, digitsOf]
    -- the digits before the last decide unless they are the same
    rcases Nat.lt_or_ge (n / 32) (m / 32) with hlt | hge
    · have hbound : m / 32 < 32 ^ count := Nat.div_lt_of_lt_mul (by rwa [← Nat.pow_succ'])
      refine append_lt_append ?_ (ih hlt hbound) _ _
      rw [length_digitsOf, length_digitsOf]
    · have hsame : n / 32 = m / 32 := by omega
      have hlast := digitChar_lt (n := n % 32) (m := m % 32) (by omega) (by omega)
      rw [hsame]
      exact List.append_left_lt (List.cons_lt_cons_iff.mpr (Or.inl hlast))

theorem getElem?_write (u : Ulid) {i : ℕ} (h : i < 26) :
    u.write[i]? = some (digitChar (u.value / 32 ^ (25 - i) % 32)) := by
  simp [write, getElem?_digitsOf h]

/-- A value of 128 bits fits into 26 digits. -/
theorem value_lt_digits (u : Ulid) : u.value < 32 ^ 26 := u.value_lt.trans (by decide)

theorem write_lt_write {u w : Ulid} : u.write < w.write ↔ u.value < w.value := by
  have hlt {a b : Ulid} (h : a.value < b.value) : a.write < b.write :=
    digitsOf_lt h b.value_lt_digits
  refine ⟨fun h => ?_, hlt⟩
  rcases Nat.lt_trichotomy u.value w.value with huw | heq | hwu
  · exact huw
  · rw [write, write, heq] at h
    exact absurd h (List.lt_irrefl _)
  · exact absurd h (List.lt_asymm (hlt hwu))

/-! ### Reading -/

section Reading

variable {u : Ulid} {bare : List Char}

theorem mem_alphabet_of_bare (h : bare.map Char.toUpper = u.write) :
    ∀ c ∈ bare, c.toUpper ∈ alphabet := by
  intro c hc
  have hmem : c.toUpper ∈ bare.map Char.toUpper := List.mem_map_of_mem hc
  rw [h] at hmem
  exact mem_alphabet_of_mem_digitsOf hmem

/-- The digits are read back in either case. -/
theorem parse_of_bare (h : bare.map Char.toUpper = u.write) :
    parse (String.ofList bare) = .ok u := by
  have hlength : bare.length = 26 := by
    rw [← List.length_map Char.toUpper, h, write, length_digitsOf]
  have hsize : (String.ofList bare).utf8ByteSize = 26 := by
    rw [Text.utf8ByteSize_of_ascii fun c hc => (ascii_of_toUpper (mem_alphabet_of_bare h c hc)).1,
      hlength]
  have hvalue : valueOf? bare = some u.value := by
    rw [valueOf?_of_toUpper h, Nat.mod_eq_of_lt u.value_lt_digits]
  have hround : ofNat u.value = u := by
    obtain ⟨value, hlt⟩ := u
    simp only [ofNat, Nat.mod_eq_of_lt hlt]
  rw [parse, if_neg (not_not_intro hsize), String.toList_ofList, hvalue]
  simp only [hround]

theorem map_toUpper_write (u : Ulid) : u.write.map Char.toUpper = u.write := by
  have hall : ∀ d ∈ alphabet, d.toUpper == d := List.all_eq_true.mp (by decide)
  have hsame : ∀ c ∈ u.write, c.toUpper = id c := fun c hc =>
    beq_iff_eq.mp (hall c (mem_alphabet_of_mem_digitsOf hc))
  rw [List.map_congr_left hsame, List.map_id]

theorem map_toUpper_lower (u : Ulid) :
    (u.write.map Char.toLower).map Char.toUpper = u.write := by
  have hall : ∀ d ∈ alphabet, d.toLower.toUpper == d := List.all_eq_true.mp (by decide)
  have hsame : ∀ c ∈ u.write, (Char.toUpper ∘ Char.toLower) c = id c := fun c hc =>
    beq_iff_eq.mp (hall c (mem_alphabet_of_mem_digitsOf hc))
  rw [List.map_map, List.map_congr_left hsame, List.map_id]

end Reading

end Ulid

namespace Ident

variable {family : Family}

theorem toList_text (id : Ident family) :
    id.text.toList = family.marker.toList ++ '_' :: id.ulid.write := by
  simp [text]

theorem mark_not_mem_marker (family : Family) : '_' ∉ family.marker.toList := by
  cases family <;> decide

theorem marker_injective : Function.Injective Family.marker := by
  intro f g h
  cases f <;> cases g <;> first | rfl | exact absurd h (by decide)

/-- Digits alone are an identifier of either family. -/
theorem parse_of_bare {u : Ulid} {bare : List Char} (h : bare.map Char.toUpper = u.write) :
    (parse (String.ofList bare) : Except Fault (Ident family)) = .ok ⟨u⟩ := by
  have hmark : ¬ ['_'] <:+: bare := by
    rw [List.singleton_infix_iff]
    exact fun hmem => (Ulid.ascii_of_toUpper (Ulid.mem_alphabet_of_bare h _ hmem)).2 rfl
  rw [parse, String.toList_ofList, (Text.splitAt?_eq_none (by simp)).mpr hmark]
  simp only [ofUlidText, Ulid.parse_of_bare h]

theorem parse_text (u : Ulid) (other : Family) :
    (parse (text (⟨u⟩ : Ident family)) : Except Fault (Ident other)) =
      if family = other then .ok ⟨u⟩ else .error (.foreign other.marker family.marker) := by
  rw [parse, toList_text, Text.splitAt?_single (mark_not_mem_marker family)]
  simp only [String.toList_inj, String.ofList_toList]
  by_cases h : family = other
  · subst h
    simp only [if_true, ofUlidText, Ulid.parse_of_bare u.map_toUpper_write]
  · rw [if_neg (marker_injective.ne h), if_neg h]

/-- Texts of one family are in the order of the values. -/
theorem text_lt_text {u w : Ulid} :
    text (⟨u⟩ : Ident family) < text (⟨w⟩ : Ident family) ↔ u.value < w.value := by
  have hfront : ∀ x : Ulid, (text (⟨x⟩ : Ident family)).toList =
      (family.marker.toList ++ ['_']) ++ x.write := fun x => by simp [toList_text]
  rw [String.lt_iff_toList_lt, hfront, hfront, Ulid.append_lt_append_iff, Ulid.write_lt_write]

/-- An identifier is read back from its text and from its digits alone, in either case; no text of
one family is one of the other, and the bytes of the texts are in the order of the values. -/
theorem textsFaithful (family : Family) (u : Ulid) :
    (u.write.length = 26 ∧ ∀ i < 26,
      u.write[i]? = some (Ulid.digitChar (u.value / 32 ^ (25 - i) % 32))) ∧
    parse (text (⟨u⟩ : Ident family)) = .ok (⟨u⟩ : Ident family) ∧
    (∀ bare ∈ [u.write, u.write.map Char.toLower], bare.map Char.toUpper = u.write) ∧
    (∀ bare : List Char, bare.map Char.toUpper = u.write →
      parse (String.ofList bare) = .ok (⟨u⟩ : Ident family)) ∧
    (∀ other : Family, other ≠ family →
      (parse (text (⟨u⟩ : Ident family)) : Except Fault (Ident other)) =
        .error (.foreign other.marker family.marker)) ∧
    ∀ w : Ulid, Text.bytes (text (⟨u⟩ : Ident family)) < Text.bytes (text (⟨w⟩ : Ident family)) ↔
      u.value < w.value := by
  refine ⟨⟨Ulid.length_digitsOf _ _, fun i hi => u.getElem?_write hi⟩, ?_, ?_,
    fun bare => parse_of_bare, fun other hother => ?_, fun w => ?_⟩
  · rw [parse_text, if_pos rfl]
  · intro bare hbare
    rcases List.mem_pair.mp hbare with heq | heq
    · rw [heq, u.map_toUpper_write]
    · rw [heq, u.map_toUpper_lower]
  · rw [parse_text, if_neg hother.symm]
  · rw [Text.bytes_lt_bytes, text_lt_text]

/-- The largest value, whose 26 digits would hold two bits more. -/
def largest : Ulid := ⟨Nat.pow 2 128 - 1, by decide⟩

/-- Its digits, some of them in lower case. -/
def largestDigits : List Char := "7zzzzzzzzzzzzZZZZZZZZZZZZZ".toList

theorem largest_textsFaithful :
    (0 < 26 ∧ largest.write[0]? = some (Ulid.digitChar (largest.value / 32 ^ 25 % 32))) ∧
    (largest.write ∈ [largest.write, largest.write.map Char.toLower] ∧
      largest.write.map Char.toUpper = largest.write) ∧
    (largestDigits.map Char.toUpper = largest.write ∧
      (parse (String.ofList largestDigits) : Except Fault WorkflowId) = .ok ⟨largest⟩) ∧
    Family.execution ≠ .workflow ∧
      (parse (text (⟨largest⟩ : WorkflowId)) : Except Fault ExecutionId) =
        .error (.foreign "exec" "wf") := by
  obtain ⟨⟨-, hdigit⟩, -, hupper, hbare, hforeign, -⟩ := textsFaithful .workflow largest
  have hdigits : largestDigits.map Char.toUpper = largest.write := by decide +kernel
  exact ⟨⟨by decide, hdigit 0 (by decide)⟩,
    ⟨List.mem_cons_self, hupper _ List.mem_cons_self⟩, ⟨hdigits, hbare _ hdigits⟩,
    by decide, hforeign .execution (by decide)⟩

end Ident

end PortGraph
