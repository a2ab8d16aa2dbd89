import Mathlib.Data.List.Basic
import PortGraph.Proofs.Ident.Texts

/-!
The spellings of an identifier. Every run of 26 digits is one, with or without the prefix and in
either case, but 26 digits hold two bits more than an identifier: the numbers they spell count modulo
2 ^ 128. So an identifier has four spellings besides case and prefix, and the one whose number fits
is its text.
-/

namespace PortGraph

namespace Ulid

/-! ### What digits spell -/

theorem digitValue?_eq_some {c : Char} {n : ℕ} :
    digitValue? c = some n ↔ n < 32 ∧ c.toUpper = digitChar n := by
  refine ⟨fun h => ?_, fun h => digitValue?_of_toUpper h.1 h.2⟩
  obtain ⟨hlt, hchar, -⟩ := List.findIdx?_eq_some_iff_getElem.mp h
  refine ⟨hlt, ?_⟩
  rw [digitChar, List.getD_eq_getElem _ _ hlt]
  exact (beq_iff_eq.mp hchar).symm

/-- A run of digits spells the number that has these digits, in upper case. -/
theorem valueOf?_eq_some {cs : List Char} {n : ℕ} :
    valueOf? cs = some n ↔ n < 32 ^ cs.length ∧ cs.map Char.toUpper = digitsOf cs.length n := by
  constructor
  · intro h
    induction cs using List.reverseRecOn generalizing n with
    | nil =>
      obtain rfl : 0 = n := by simpa [valueOf?] using h
      exact ⟨by simp, rfl⟩
    | append_singleton cs c ih =>
      rw [valueOf?_concat] at h
      obtain ⟨m, hm, h⟩ := Option.bind_eq_some_iff.mp h
      obtain ⟨d, hd, rfl⟩ := Option.map_eq_some_iff.mp h
      obtain ⟨hbound, hdigits⟩ := ih hm
      obtain ⟨hlt, hchar⟩ := digitValue?_eq_some.mp hd
      have hfront : (32 * m + d) / 32 = m := by omega
      have hlast : (32 * m + d) % 32 = d := by omega
      rw [List.length_append, List.length_singleton]
      refine ⟨?_, ?_⟩
      · rw [Nat.pow_succ']
        omega
      · rw [digitsOf, hfront, hlast, List.map_append, hdigits, List.map_singleton, hchar]
  · rintro ⟨hbound, hdigits⟩
    rw [valueOf?_of_toUpper hdigits, Nat.mod_eq_of_lt hbound]

/-- Numbers that fit are told apart by their digits. -/
theorem digitsOf_inj {count n m : ℕ} (hn : n < 32 ^ count) (hm : m < 32 ^ count) :
    digitsOf count n = digitsOf count m ↔ n = m := by
  refine ⟨fun h => ?_, congrArg _⟩
  rcases Nat.lt_trichotomy n m with hlt | heq | hgt
  · exact absurd (h ▸ digitsOf_lt hlt hm) (List.lt_irrefl _)
  · exact heq
  · exact absurd (h ▸ digitsOf_lt hgt hn) (List.lt_irrefl _)

/-- The digits, whatever their case, are those of a number of 26 digits. -/
structure Spells (digits : List Char) (n : ℕ) : Prop where
  bound : n < 32 ^ 26
  digits : digits.map Char.toUpper = digitsOf 26 n

theorem Spells.length {ds : List Char} {n : ℕ} (h : Spells ds n) : ds.length = 26 := by
  rw [← List.length_map Char.toUpper, h.digits, length_digitsOf]

theorem Spells.toUpper_mem {ds : List Char} {n : ℕ} (h : Spells ds n) :
    ∀ c ∈ ds, c.toUpper ∈ alphabet := by
  intro c hc
  have hmem : c.toUpper ∈ ds.map Char.toUpper := List.mem_map_of_mem hc
  rw [h.digits] at hmem
  exact mem_alphabet_of_mem_digitsOf hmem

/-- Digits are read as the number that they spell, modulo 2 ^ 128. -/
theorem parse_eq_ok {text : String} {u : Ulid} :
    parse text = .ok u ↔ ∃ n, Spells text.toList n ∧ n % 2 ^ 128 = u.value := by
  have hround : ∀ n, ofNat n = u ↔ n % 2 ^ 128 = u.value := by
    intro n
    obtain ⟨value, hvalue⟩ := u
    simp [ofNat]
  have hascii : ∀ {cs : List Char}, (∀ c ∈ cs, c.toUpper ∈ alphabet) →
      (String.ofList cs).utf8ByteSize = cs.length := fun hcs =>
    Text.utf8ByteSize_of_ascii fun c hc => (ascii_of_toUpper (hcs c hc)).1
  unfold parse
  constructor
  · intro h
    split_ifs at h with hsize
    split at h
    · rename_i n hn
      obtain ⟨hbound, hdigits⟩ := valueOf?_eq_some.mp hn
      have halphabet : ∀ c ∈ text.toList, c.toUpper ∈ alphabet := fun c hc =>
        mem_alphabet_of_mem_digitsOf (hdigits ▸ List.mem_map_of_mem hc)
      have hlength : text.toList.length = 26 := by
        rw [← hascii halphabet, String.ofList_toList]
        exact not_not.mp hsize
      rw [hlength] at hbound hdigits
      exact ⟨n, ⟨hbound, hdigits⟩, (hround n).mp (Except.ok.inj h)⟩
    · cases h
  · rintro ⟨n, hspells, hn⟩
    have hsize : text.utf8ByteSize = 26 := by
      rw [← hspells.length, ← hascii hspells.toUpper_mem, String.ofList_toList]
    have hvalue : valueOf? text.toList = some n := by
      rw [valueOf?_eq_some, hspells.length]
      exact ⟨hspells.bound, hspells.digits⟩
    rw [if_neg (not_not_intro hsize), hvalue]
    exact congrArg Except.ok ((hround n).mpr hn)

end Ulid

namespace Ident

variable {family : Family} {text other : String} {n m : ℕ}

/-- What stands behind the first underscore of a text, or all of it if there is none. -/
def bare (text : String) : List Char :=
  match Text.splitAt? ['_'] text.toList with
  | none => text.toList
  | some (_, rest) => rest

/-- The text writes a number in 26 digits of either case, with or without the prefix. -/
structure Spelled (family : Family) (text : String) (n : ℕ) : Prop where
  digits : Ulid.Spells (bare text) n
  whole : text.toList = bare text ∨ text.toList = family.marker.toList ++ '_' :: bare text

/-- Two texts differ at most in the case of their digits and in whether the prefix is written. -/
def Alike (text other : String) : Prop :=
  (bare text).map Char.toUpper = (bare other).map Char.toUpper

/-- A text is an identifier just when it spells a number that leaves its value. -/
theorem parse_eq_ok {id : Ident family} :
    parse text = .ok id ↔ ∃ n, Spelled family text n ∧ n % 2 ^ 128 = id.ulid.value := by
  have hofUlid : ∀ s : String, (ofUlidText s : Except Fault (Ident family)) = .ok id ↔
      ∃ n, Ulid.Spells s.toList n ∧ n % 2 ^ 128 = id.ulid.value := by
    intro s
    obtain ⟨u⟩ := id
    rw [← Ulid.parse_eq_ok]
    unfold ofUlidText
    cases Ulid.parse s <;> simp
  unfold parse
  cases hsplit : Text.splitAt? ['_'] text.toList with
  | none =>
    have hbare : bare text = text.toList := by rw [bare, hsplit]
    dsimp only
    rw [hofUlid]
    refine exists_congr fun n => and_congr_left fun _ => ?_
    exact ⟨fun h => ⟨hbare ▸ h, Or.inl hbare.symm⟩, fun h => hbare ▸ h.digits⟩
  | some parts =>
    obtain ⟨found, rest⟩ := parts
    obtain ⟨htext, hfound⟩ := Text.splitAt?_single_eq_some.mp hsplit
    have hbare : bare text = rest := by rw [bare, hsplit]
    -- the mark stands in the text, so it is not digits alone
    have hmark : text.toList ≠ bare text := by
      intro heq
      have hlength := congrArg List.length (htext.symm.trans (heq.trans hbare))
      simp only [List.length_append, List.length_cons] at hlength
      omega
    have hwhole : ∀ n, Spelled family text n ↔
        found = family.marker.toList ∧ Ulid.Spells rest n := by
      intro n
      rw [← hbare]
      constructor
      · rintro ⟨hdigits, hwhole⟩
        have hprefix := hwhole.resolve_left hmark
        rw [htext] at hprefix
        exact ⟨(Text.eq_of_append_cons hfound (mark_not_mem_marker family) hprefix).1, hdigits⟩
      · rintro ⟨rfl, hdigits⟩
        exact ⟨hdigits, Or.inr (hbare ▸ htext)⟩
    dsimp only
    split_ifs with hfamily
    · rw [hofUlid, String.toList_ofList]
      simp only [hwhole, hfamily, true_and]
    · refine iff_of_false (by simp) ?_
      rintro ⟨n, hspelled, -⟩
      exact hfamily ((hwhole n).mp hspelled).1

theorem alike_iff (h : Spelled family text n) (hother : Spelled family other m) :
    Alike other text ↔ m = n := by
  rw [Alike, h.digits.digits, hother.digits.digits]
  exact Ulid.digitsOf_inj hother.digits.bound h.digits.bound

/-- The text of an identifier is the prefix and the digits of whatever was read as it, in upper case,
if and only if these digits spell a number of 128 bits. Two texts are the same identifier if and only
if their numbers agree modulo 2 ^ 128, and differ in case and prefix alone if and only if they are the
same number. -/
theorem spellingsExact {family : Family} {text : String} {id : Ident family}
    (h : parse text = .ok id) :
    ∃ n, Spelled family text n ∧ n % 2 ^ 128 = id.ulid.value ∧
      (id.text.toList = family.marker.toList ++ '_' :: (bare text).map Char.toUpper ↔
        n < 2 ^ 128) ∧
      ∀ other : String, (parse other = .ok id ↔ ∃ m, Spelled family other m ∧
          m % 2 ^ 128 = n % 2 ^ 128) ∧
        ∀ m, Spelled family other m → (Alike other text ↔ m = n) := by
  obtain ⟨n, hspelled, hn⟩ := parse_eq_ok.mp h
  refine ⟨n, hspelled, hn, ?_, fun other => ⟨?_, fun m hother => alike_iff hspelled hother⟩⟩
  · rw [toList_text, List.append_cancel_left_eq, List.cons.injEq, hspelled.digits.digits, Ulid.write,
      Ulid.digitsOf_inj id.ulid.value_lt_digits hspelled.digits.bound, ← hn]
    simp
  · rw [hn]
    exact parse_eq_ok

/-- The largest identifier, with its prefix and with some of its digits in lower case. -/
def largestText : String := "wf_7zzzzzzzzzzzzZZZZZZZZZZZZZ"

theorem largest_spellingsExact :
    parse largestText = .ok (⟨largest⟩ : WorkflowId) ∧
      ∃ n, Spelled .workflow largestText n ∧ n % 2 ^ 128 = largest.value ∧
        ((⟨largest⟩ : WorkflowId).text.toList =
            Family.workflow.marker.toList ++ '_' :: (bare largestText).map Char.toUpper ↔
          n < 2 ^ 128) ∧
        ∀ other : String, (parse other = .ok (⟨largest⟩ : WorkflowId) ↔
            ∃ m, Spelled .workflow other m ∧ m % 2 ^ 128 = n % 2 ^ 128) ∧
          ∀ m, Spelled .workflow other m → (Alike other largestText ↔ m = n) := by
  have hparse : parse largestText = .ok (⟨largest⟩ : WorkflowId) := by decide +kernel
  exact ⟨hparse, spellingsExact hparse⟩

/-- The number 2 ^ 128 in digits. -/
def wrapped : String := "80000000000000000000000000"

/-- It is read as zero, whose text has other digits; so zero has two spellings without a prefix and
without any letter. -/
theorem wrapped_respelled :
    parse wrapped = .ok (⟨.ofNat 0⟩ : WorkflowId) ∧
      parse "00000000000000000000000000" = .ok (⟨.ofNat 0⟩ : WorkflowId) ∧
      (⟨.ofNat 0⟩ : WorkflowId).text.toList ≠
        Family.workflow.marker.toList ++ '_' :: (bare wrapped).map Char.toUpper ∧
      ¬ Alike wrapped "00000000000000000000000000" := by
  unfold Alike
  decide +kernel

end Ident

end PortGraph
