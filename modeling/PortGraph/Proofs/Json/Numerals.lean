import Mathlib.Data.Int.Notation
import PortGraph.Json.Source
import PortGraph.Proofs.Text.Decimal

/-!
Numbers as they are written and read. Every number is written as a numeral: a sign, digits, and
perhaps a fraction and an exponent. A numeral is read to its end, whatever follows it, and integers
read back as themselves; what a double reads back as is for the arithmetic to say.
-/

namespace PortGraph

open Text.Decimal

/-- The parts of a written number. -/
structure Numeral where
  negative : Bool
  whole : List Char
  fraction : Option (List Char)
  /-- Whether the exponent is below zero, and its digits. -/
  exponent : Option (Bool × List Char)

namespace Numeral

structure Valid (m : Numeral) : Prop where
  whole : Run m.whole
  lead : NoLeadingZero m.whole
  fraction : ∀ ds, m.fraction = some ds → Run ds
  exponent : ∀ e, m.exponent = some e → Run e.2

def fractionText : Option (List Char) → List Char
  | none => []
  | some ds => '.' :: ds

def exponentText : Option (Bool × List Char) → List Char
  | none => []
  | some (negative, ds) => 'e' :: (if negative then '-' else '+') :: ds

def text (m : Numeral) : List Char :=
  (if m.negative then ['-'] else []) ++
    (m.whole ++ (fractionText m.fraction ++ exponentText m.exponent))

def power (m : Numeral) : Option ℤ :=
  m.exponent.map fun (negative, ds) => if negative then -(value ds : ℤ) else value ds

/-- The number that a numeral is read as, unless it is too large. -/
def value? (m : Numeral) : Option Number :=
  Source.numberOf m.negative m.whole m.fraction m.power

/-- The text does not go on with a part of a number. -/
def Stops (cs : List Char) : Prop :=
  ∀ c rest, cs = c :: rest → isDigit c = false ∧ c ≠ '.' ∧ c ≠ 'e' ∧ c ≠ 'E'

theorem stops_nil : Stops [] := nofun

theorem Stops.ends {cs : List Char} (h : Stops cs) : Ends cs := fun c rest heq => (h c rest heq).1

theorem ends_exponentText {rest : List Char} (h : Stops rest) (e : Option (Bool × List Char)) :
    Ends (exponentText e ++ rest) := by
  cases e with
  | none => exact h.ends
  | some e => exact ends_cons.mpr (by decide)

theorem ends_fractionText {rest : List Char} (h : Ends rest) (f : Option (List Char)) :
    Ends (fractionText f ++ rest) := by
  cases f with
  | none => exact h
  | some ds => exact ends_cons.mpr (by decide)

theorem exponent?_text {negative : Bool} {ds rest : List Char} (hds : Run ds)
    (hrest : Ends rest) :
    Binary64.exponent? ((if negative then '-' else '+') :: (ds ++ rest)) =
      some (if negative then -(value ds : ℤ) else value ds, rest) := by
  unfold Binary64.exponent?
  cases negative with
  | true =>
    simp only [if_true, span_append hds.all hrest]
    split
    · exact absurd (Prod.mk.inj ‹_›).1 hds.ne_nil
    · obtain ⟨rfl, rfl⟩ := Prod.mk.inj ‹_›
      rfl
  | false =>
    simp only [Bool.false_eq_true, if_false, span_append hds.all hrest]
    split
    · exact absurd (Prod.mk.inj ‹_›).1 hds.ne_nil
    · obtain ⟨rfl, rfl⟩ := Prod.mk.inj ‹_›
      rfl

theorem scanFraction_text {fraction : Option (List Char)} (h : ∀ ds, fraction = some ds → Run ds)
    {rest : List Char} (hrest : Ends rest) (hpoint : ∀ after, rest ≠ '.' :: after) :
    Source.scanFraction (fractionText fraction ++ rest) = some (fraction, rest) := by
  cases fraction with
  | none =>
    unfold Source.scanFraction
    split
    · exact absurd ‹_› (hpoint _)
    · rfl
  | some ds =>
    have hds := h ds rfl
    simp [fractionText, Source.scanFraction, span_append hds.all hrest, hds.ne_nil]

theorem scanExponent_text {m : Numeral} (hm : m.Valid) {rest : List Char} (hrest : Stops rest) :
    Source.scanExponent (exponentText m.exponent ++ rest) = some (m.power, rest) := by
  unfold power
  cases he : m.exponent with
  | none =>
    unfold Source.scanExponent
    split
    · exact absurd rfl (hrest _ _ ‹_›).2.2.1
    · exact absurd rfl (hrest _ _ ‹_›).2.2.2
    · rfl
  | some e =>
    obtain ⟨negative, ds⟩ := e
    simp [exponentText, Source.scanExponent, exponent?_text (hm.exponent _ he) hrest.ends]

theorem scanSign_text {m : Numeral} (hm : m.Valid) (rest : List Char) :
    Source.scanSign (m.text ++ rest) =
      (m.negative, m.whole ++ (fractionText m.fraction ++ (exponentText m.exponent ++ rest))) := by
  unfold text
  cases m.negative with
  | true => simp [Source.scanSign]
  | false =>
    obtain ⟨c, cs, hc⟩ := List.exists_cons_of_ne_nil hm.whole.ne_nil
    have hdigit := hm.whole.all c (by simp [hc])
    have hsign : c ≠ '-' := by
      rintro rfl
      exact absurd hdigit (by decide)
    simp [hc, Source.scanSign, hsign]

/-- A numeral is read to its end. -/
theorem scanNumber_text {m : Numeral} (hm : m.Valid) {rest : List Char} (hrest : Stops rest) :
    Source.scanNumber (m.text ++ rest) = (.number m.value?, some rest) := by
  have hends := ends_exponentText hrest m.exponent
  have hpoint : ∀ after, exponentText m.exponent ++ rest ≠ '.' :: after := by
    intro after h
    cases hm : m.exponent with
    | none => exact (hrest _ _ (by simpa [hm, exponentText] using h)).2.1 rfl
    | some e => simp [hm, exponentText] at h
  unfold Source.scanNumber
  simp only [scanSign_text hm, span_append hm.whole.all (ends_fractionText hends m.fraction)]
  split
  · exact absurd ‹_› hm.whole.ne_nil
  · exact absurd ‹_› (hm.lead _ _)
  · simp only [scanFraction_text hm.fraction hends hpoint, scanExponent_text hm hrest]
    rfl

/-! ### Integers -/

/-- An integer as a numeral. -/
def ofInt : ℤ → Numeral
  | .ofNat n => ⟨false, natural n, none, none⟩
  | .negSucc n => ⟨true, natural (n + 1), none, none⟩

theorem text_ofInt (n : ℤ) : (ofInt n).text = integer n := by
  cases n <;> simp [ofInt, text, fractionText, exponentText, integer]

theorem valid_ofInt (n : ℤ) : (ofInt n).Valid := by
  cases n <;> exact ⟨run_natural _, noLeadingZero_natural _, nofun, nofun⟩

/-- An integer of a word reads back. -/
theorem value?_ofInt {n : ℤ} (h : Number.InRange n) : (ofInt n).value? = some (.integer n) := by
  obtain ⟨hlow, hhigh⟩ := h
  unfold value? power Source.numberOf
  cases n with
  | ofNat n =>
    have hlt : n < Nat.pow 2 64 := Int.ofNat_lt.mp hhigh
    simp only [ofInt, value_natural, Option.map_none]
    simp [hlt]
  | negSucc n =>
    have hle : n + 1 ≤ Nat.pow 2 63 := by
      have := Int.negSucc_eq n
      omega
    simp only [ofInt, value_natural, Option.map_none]
    simp [hle, Int.negSucc_eq]

/-! ### Doubles -/

/-- The text of a numeral without a sign. -/
def Unsigned (cs : List Char) : Prop := ∃ m : Numeral, m.Valid ∧ m.negative = false ∧ m.text = cs

theorem unsigned_decimal {whole fraction : List Char} (hwhole : Run whole)
    (hlead : NoLeadingZero whole) (hfraction : Run fraction) :
    Unsigned (whole ++ '.' :: fraction) := by
  refine ⟨⟨false, whole, some fraction, none⟩, ⟨hwhole, hlead, ?_, nofun⟩, rfl, ?_⟩
  · rintro _ ⟨⟩
    exact hfraction
  · simp [text, fractionText, exponentText]

theorem unsigned_scientific {c : Char} (hc : isDigit c = true) (fraction : Option (List Char))
    (hfraction : ∀ ds, fraction = some ds → Run ds) (negative : Bool) (n : ℕ) :
    Unsigned (c :: (fractionText fraction ++ 'e' :: (if negative then '-' else '+') ::
      natural n)) := by
  refine ⟨⟨false, [c], fraction, some (negative, natural n)⟩,
    ⟨⟨by simp, by simpa using hc⟩, ?_, hfraction, ?_⟩, rfl, rfl⟩
  · intro c' rest heq
    simp at heq
  · rintro _ ⟨⟩
    exact run_natural n

theorem Unsigned.signed {cs : List Char} (h : Unsigned cs) (negative : Bool) :
    ∃ m : Numeral, m.Valid ∧ m.text = if negative then '-' :: cs else cs := by
  obtain ⟨⟨_, whole, fraction, exponent⟩, hvalid, rfl, rfl⟩ := h
  refine ⟨⟨negative, whole, fraction, exponent⟩, ⟨hvalid.whole, hvalid.lead, hvalid.fraction,
    hvalid.exponent⟩, ?_⟩
  cases negative <;> rfl

end Numeral

namespace Binary64

open Numeral

/-- Digits without a zero in front, or none at all. -/
structure Leading (ds : List Char) : Prop where
  all : ∀ c ∈ ds, isDigit c = true
  head : ds.head? ≠ some '0'

theorem stripZeros_isPrefix (ds : List Char) : stripZeros ds <+: ds := by
  unfold stripZeros
  have h := List.dropWhile_suffix (p := (· == '0')) (l := ds.reverse)
  rw [← List.reverse_prefix, List.reverse_reverse] at h
  exact h

theorem leading_stripZeros (n : ℕ) : Leading (stripZeros (natural n)) := by
  have hstrip := stripZeros_isPrefix (natural n)
  refine ⟨fun c hc => (run_natural n).all c (hstrip.subset hc), ?_⟩
  intro hzero
  rcases Nat.eq_zero_or_pos n with rfl | hpos
  · rw [natural_of_lt (by decide)] at hzero
    exact absurd hzero (by decide)
  · obtain ⟨rest, hrest⟩ := List.head?_eq_some_iff.mp hzero
    rw [hrest] at hstrip
    obtain ⟨more, hmore⟩ := hstrip
    exact head?_natural hpos (by rw [← hmore]; rfl)

theorem leading_shortest (x : Binary64) : Leading x.shortest.digits := by
  have hnone : Leading [] := ⟨by simp, by simp⟩
  unfold shortest
  split_ifs
  · exact hnone
  · dsimp only
    split
    · exact hnone
    · exact leading_stripZeros _

theorem all_zeros (n : ℕ) : ∀ c ∈ zeros n, isDigit c = true := by
  intro c hc
  rw [(List.mem_replicate.mp hc).2]
  decide

theorem run_zero : Run ['0'] := ⟨by simp, by simp [isDigit]⟩

theorem noLeadingZero_zero : NoLeadingZero ['0'] := by
  intro c rest h
  simp at h

theorem unsigned_positionalText (d : Digits) (h : Leading d.digits) :
    Unsigned (positionalText true d) := by
  unfold positionalText
  simp only [if_true]
  split_ifs with hempty hsmall hlarge
  · exact unsigned_decimal run_zero noLeadingZero_zero run_zero
  · have hne : d.digits ≠ [] := by simpa using hempty
    refine unsigned_decimal run_zero noLeadingZero_zero ⟨by simp [hne], ?_⟩
    intro c hc
    rcases List.mem_append.mp hc with hc | hc
    · exact all_zeros _ c hc
    · exact h.all c hc
  · have hne : d.digits ≠ [] := by simpa using hempty
    refine unsigned_decimal ⟨by simp [hne], ?_⟩ (noLeadingZero_of_head? ?_) run_zero
    · intro c hc
      rcases List.mem_append.mp hc with hc | hc
      · exact h.all c hc
      · exact all_zeros _ c hc
    · rw [List.head?_append_of_ne_nil _ hne]
      exact h.head
  · refine unsigned_decimal ⟨?_, fun c hc => h.all c (List.mem_of_mem_take hc)⟩
      (noLeadingZero_of_head? ?_) ⟨?_, fun c hc => h.all c (List.mem_of_mem_drop hc)⟩
    · rw [ne_eq, List.take_eq_nil_iff, not_or]
      exact ⟨by omega, by simpa using hempty⟩
    · rw [List.head?_take]
      split_ifs
      · simp
      · exact h.head
    · rw [ne_eq, List.drop_eq_nil_iff]
      omega

theorem unsigned_scientificText (d : Digits) (h : Leading d.digits) :
    Unsigned (scientificText d) := by
  have hsign : (if d.point - 1 < 0 then '-' else '+') =
      if decide (d.point - 1 < 0) then '-' else '+' := by simp
  unfold scientificText
  dsimp only
  rw [hsign]
  match hd : d.digits with
  | [] => exact unsigned_scientific (by decide) none (by simp) _ _
  | [c] => exact unsigned_scientific (h.all c (by simp [hd])) none (by simp) _ _
  | c :: c' :: rest =>
    refine unsigned_scientific (h.all c (by simp [hd])) (some (c' :: rest)) ?_ _ _
    rintro _ ⟨⟩
    exact ⟨by simp, fun x hx => h.all x (by rw [hd]; exact List.mem_cons_of_mem _ hx)⟩

/-- The text of a double in a document is a numeral. -/
theorem exists_numeral_format (x : Binary64) :
    ∃ m : Numeral, m.Valid ∧ m.text = x.format .document := by
  have h := leading_shortest x
  unfold format
  refine Unsigned.signed ?_ x.negative
  dsimp only [Style.document]
  split_ifs
  · exact unsigned_positionalText _ h
  · exact unsigned_scientificText _ h

end Binary64

namespace Number

theorem exists_numeral (n : Number) : ∃ m : Numeral, m.Valid ∧ m.text = n.toText := by
  cases n with
  | integer n => exact ⟨.ofInt n, Numeral.valid_ofInt n, Numeral.text_ofInt n⟩
  | double x => exact x.exists_numeral_format

theorem head_toText (n : Number) :
    ∃ c cs, n.toText = c :: cs ∧ (c = '-' ∨ isDigit c = true) := by
  obtain ⟨⟨negative, whole, fraction, exponent⟩, hm, htext⟩ := n.exists_numeral
  obtain ⟨c, cs, rfl⟩ : ∃ c cs, whole = c :: cs := List.exists_cons_of_ne_nil hm.whole.ne_nil
  rw [← htext]
  cases negative with
  | true => exact ⟨_, _, rfl, Or.inl rfl⟩
  | false => exact ⟨_, _, rfl, Or.inr (hm.whole.all c (by simp))⟩

/-- The number that the text of a number is read as, unless it is too large. -/
def reread? (n : Number) : Option Number :=
  match Source.scanNumber n.toText with
  | (.number v, _) => v
  | _ => none

/-- A written number is read to its end, whatever follows it. -/
theorem scanNumber_toText (n : Number) {rest : List Char} (hrest : Numeral.Stops rest) :
    Source.scanNumber (n.toText ++ rest) = (.number n.reread?, some rest) := by
  obtain ⟨m, hm, htext⟩ := n.exists_numeral
  have halone := Numeral.scanNumber_text hm Numeral.stops_nil
  rw [List.append_nil] at halone
  unfold reread?
  rw [← htext, halone, Numeral.scanNumber_text hm hrest]

theorem reread?_integer {n : ℤ} (h : InRange n) : (integer n).reread? = some (integer n) := by
  have halone := Numeral.scanNumber_text (Numeral.valid_ofInt n) Numeral.stops_nil
  rw [List.append_nil, Numeral.text_ofInt, Numeral.value?_ofInt h] at halone
  unfold reread? toText
  rw [halone]

end Number

end PortGraph
