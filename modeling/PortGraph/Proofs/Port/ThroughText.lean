import PortGraph.Proofs.Json.Reading
import PortGraph.Proofs.Number.Literal
import PortGraph.Proofs.Port.Conversion

/-!
Values that pass a port for texts on their way to a port of their own type. Integers of a signed
word and objects no deeper than documents may be come back as they were; an object that is deeper is
rejected. An integer beyond the signed word comes back as a double.
-/

namespace PortGraph.Conversion

open Text.Decimal

/-! ### Integers -/

/-- An integer leaves as its digits, and the digits come back as the integer. -/
structure IntegerReturns (n : ℤ) : Prop where
  leaves : convert (.number (.integer n)) .string =
    .ok (.string (integerText n), some (.number, .string))
  returns : convert (.string (integerText n)) .number =
    .ok (.number (.integer n), some (.string, .number))

/-- What the digits of an integer come back as. -/
def returned (n : ℤ) : Number :=
  if n < Nat.pow 2 63 then .integer n else .double (Number.integer n).toDouble

theorem decimal?_integerText {n : ℤ} (h : Number.InRange n) :
    decimal? (integerText n) = some (returned n) := by
  unfold decimal? integerText returned
  rw [String.toList_ofList, trim_integer]
  dsimp only
  rw [integer?_integer]
  by_cases hn : n < Nat.pow 2 63
  · rw [if_pos ⟨h.1, hn⟩, if_pos hn]
  · -- beyond the signed word the digits are read as a decimal
    obtain ⟨m, rfl⟩ : ∃ m : ℕ, n = m := ⟨n.toNat, by omega⟩
    obtain ⟨x, hx⟩ := Binary64.exists_ofInt? h
    have hlength : (natural m).length ≤ 20 := by
      refine length_natural_le (by decide) (lt_trans (Int.ofNat_lt.mp h.2) (by decide))
    have hread : Binary64.ofText? (integer m) = some x :=
      (Binary64.ofText?_natural (by omega)).trans hx
    rw [if_neg fun hword => hn hword.2, if_neg hn, hread, Number.toDouble, hx]
    rfl

/-- An integer of a word leaves as its digits. They come back as the integer just when a signed word
can hold it, and otherwise as the double next to it. -/
theorem integersReturn {n : ℤ} (h : Number.InRange n) :
    convert (.number (.integer n)) .string =
        .ok (.string (integerText n), some (.number, .string)) ∧
      convert (.string (integerText n)) .number =
        .ok (.number (returned n), some (.string, .number)) ∧
      (IntegerReturns n ↔ n < Nat.pow 2 63) := by
  have hleaves : convert (.number (.integer n)) .string =
      .ok (.string (integerText n), some (.number, .string)) := (Becomes.digits _).convert
  have hreturns : convert (.string (integerText n)) .number =
      .ok (.number (returned n), some (.string, .number)) :=
    (Becomes.number (decimal?_integerText h)).convert
  refine ⟨hleaves, hreturns, fun hn => ?_, fun hn => ⟨hleaves, ?_⟩⟩
  · by_contra hbeyond
    have heq := hn.returns
    rw [hreturns, returned, if_neg hbeyond] at heq
    simp at heq
  · rw [hreturns, returned, if_pos hn]

theorem least_integersReturn : Number.InRange (-9223372036854775808) ∧
    IntegerReturns (-9223372036854775808) := by
  have h : Number.InRange (-9223372036854775808) := by decide
  exact ⟨h, (integersReturn h).2.2.mpr (by decide)⟩

/-- The greatest integer of a word comes back as the next power of two, and as a double. -/
theorem greatest_not_returns : Number.InRange 18446744073709551615 ∧
    convert (.string "18446744073709551615") .number =
      .ok (.number (.double ⟨false, 4503599627370496, 12⟩), some (.string, .number)) ∧
    ¬ IntegerReturns 18446744073709551615 := by
  have hdouble : convert (.string "18446744073709551615") .number =
      .ok (.number (.double ⟨false, 4503599627370496, 12⟩), some (.string, .number)) := by
    decide +kernel
  refine ⟨by decide, hdouble, fun h => ?_⟩
  have hreturns := h.returns
  have htext : integerText 18446744073709551615 = "18446744073709551615" := by decide +kernel
  rw [htext, hdouble] at hreturns
  simp at hreturns

/-! ### Objects -/

section Objects

variable {fields : Table Json}

theorem convert_document {text : String} {v : Json} :
    convert (.string text) .object = .ok (v, some (.string, .object)) ↔
      Json.parse text = .ok v ∧ ∃ fields, v = .object fields := by
  rw [convert_eq_ok]
  constructor
  · rintro (⟨-, -, h⟩ | ⟨h, -⟩)
    · simp at h
    · cases h with
      | fields h => exact ⟨h, _, rfl⟩
  · rintro ⟨h, fields, rfl⟩
    exact Or.inr ⟨.fields h, rfl⟩

theorem convert_malformed {text : String} {m : Mismatch} (h : Json.parse text = .error m) :
    convert (.string text) .object = .error ⟨.string, .object, .notDocument m⟩ := by
  simp [convert, Json.portType?, h]

/-- An object leaves as its compact text. The text comes back as the object just when each double in
it is read back from its own text, unless the object nests deeper than documents may; then the text
is rejected. -/
theorem objectsReturn (h : (Json.object fields).Regular) :
    convert (.object fields) .string =
        .ok (.string (Json.object fields).compact, some (.object, .string)) ∧
      ((Json.object fields).depth ≤ depthLimit →
        (convert (.string (Json.object fields).compact) .object =
            .ok (.object fields, some (.string, .object)) ↔
          ∀ x, .double x ∈ (Json.object fields).numbers → x.ReadsBack)) ∧
      (depthLimit < (Json.object fields).depth →
        convert (.string (Json.object fields).compact) .object =
          .error ⟨.string, .object, .notDocument .malformed⟩) := by
  refine ⟨(Becomes.document fields).convert, fun hdepth => ?_, fun hdeep => ?_⟩
  · rw [convert_document, Json.parse_compact h.tabled hdepth, h.ranged.reread_iff]
    exact and_iff_left ⟨fields, rfl⟩
  · exact convert_malformed (Json.parse_compact_of_deep hdeep)

end Objects

/-- An object with a line end for a key, the least integer of a word and a double. -/
def parcel : Table Json :=
  [("\n", .array [.number (.integer (-9223372036854775808)), .object [], .string "\"\\\x01"]),
    ("é", .number (.double ⟨false, 6755399441055744, -52⟩))]

/-- An object that holds an object, and so on. -/
def nested : ℕ → Json
  | 0 => .object []
  | n + 1 => .object [("in", nested n)]

theorem depth_nested (n : ℕ) : (nested n).depth = n + 1 := by
  induction n with
  | zero => rfl
  | succ n ih => simp [nested, Json.depth, Json.depthFields, ih]

theorem regular_nested (n : ℕ) : (nested n).Regular := by
  induction n with
  | zero => exact ⟨⟨List.Pairwise.nil, trivial⟩, Number.ranged_nil⟩
  | succ n ih =>
    refine ⟨⟨List.pairwise_singleton _ _, ih.tabled, trivial⟩, ?_⟩
    simpa [nested, Json.numbers, Json.fieldNumbers] using ih.ranged

/-- The first comes back; of an object that nests one level too deep, the text is rejected. -/
theorem parcel_objectsReturn :
    convert (.string (Json.object parcel).compact) .object =
        .ok (.object parcel, some (.string, .object)) ∧
      convert (.string (nested 127).compact) .object =
        .error ⟨.string, .object, .notDocument .malformed⟩ := by
  have hregular : (Json.object parcel).Regular := by
    refine ⟨⟨?_, ?_⟩, ?_⟩
    · exact List.pairwise_pair.mpr (by decide)
    · simp [parcel, Json.Tabled, Json.TabledItems, Json.TabledFields, Table.Ordered]
    · simp [parcel, Number.Ranged, Number.InRange, Json.numbers, Json.itemNumbers,
        Json.fieldNumbers]
  have hdoubles : ∀ x, .double x ∈ (Json.object parcel).numbers → x.ReadsBack := by
    intro x hx
    obtain rfl : x = ⟨false, 6755399441055744, -52⟩ := by
      simpa [parcel, Json.numbers, Json.itemNumbers, Json.fieldNumbers] using hx
    unfold Binary64.ReadsBack
    decide +kernel
  have hnested : (Json.object [("in", nested 126)]).Regular := regular_nested 127
  have hdeep : depthLimit < (nested 127).depth := by
    rw [depth_nested]
    decide
  exact ⟨((objectsReturn hregular).2.1 (by decide)).mpr hdoubles,
    (objectsReturn hnested).2.2 hdeep⟩

end PortGraph.Conversion
