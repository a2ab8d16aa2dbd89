import Mathlib.Data.List.Basic
import Mathlib.Data.String.Basic

/-!
Texts as bytes. A text is known by its UTF-8 bytes, and the order of texts is the order of their
bytes: of two characters the lesser has the lesser bytes, whatever follows it.
-/

namespace PortGraph.Text

/-- The UTF-8 bytes of a text. -/
def bytes (s : String) : List UInt8 := s.toUTF8.toList

theorem toList_loop (b : ByteArray) (left : ℕ) : ∀ i read, i + left = b.size →
    ByteArray.toList.loop b i read = read.reverse ++ b.data.toList.drop i := by
  induction left with
  | zero =>
    rintro i read rfl
    unfold ByteArray.toList.loop
    simp
  | succ left ih =>
    intro i read hi
    have hlt : i < b.size := by omega
    have hget : b.get! i = b.data[i] := getElem!_pos b.data i hlt
    have hdrop := List.drop_eq_getElem_cons (l := b.data.toList) (by simpa using hlt)
    unfold ByteArray.toList.loop
    rw [if_pos hlt, ih (i + 1) _ (by omega), hdrop, hget]
    simp

theorem toList_eq (b : ByteArray) : b.toList = b.data.toList :=
  toList_loop b b.size 0 [] (Nat.zero_add _)

theorem bytes_eq_flatMap (s : String) : bytes s = s.toList.flatMap String.utf8EncodeChar := by
  rw [bytes, toList_eq, String.toUTF8_eq_toByteArray, ← String.utf8Encode_toList, List.utf8Encode,
    List.toList_data_toByteArray]

theorem bytes_injective : Function.Injective bytes := by
  intro s t h
  rw [bytes, bytes, toList_eq, toList_eq] at h
  exact String.toByteArray_inj.mp (ByteArray.ext (Array.toList_inj.mp h))

theorem length_bytes (s : String) : (bytes s).length = s.utf8ByteSize := by
  rw [bytes, toList_eq]
  rfl

/-- A text of ASCII characters has one byte for each. -/
theorem utf8ByteSize_of_ascii {cs : List Char} (h : ∀ c ∈ cs, c.val.toNat < 128) :
    (String.ofList cs).utf8ByteSize = cs.length := by
  rw [← length_bytes, bytes_eq_flatMap, String.toList_ofList, List.length_flatMap]
  have hone : ∀ c ∈ cs, (String.utf8EncodeChar c).length = 1 := by
    intro c hc
    rw [String.utf8EncodeChar, if_pos (Nat.le_of_lt_succ (h c hc)), List.length_singleton]
  rw [List.map_congr_left hone, List.map_const', List.sum_replicate_nat, mul_one]

/-! ### The order of bytes -/

/-- The lesser of two characters has the lesser bytes, and they differ before either ends. -/
theorem encode_lt {c d : Char} (h : c < d) (x y : List UInt8) :
    String.utf8EncodeChar c ++ x < String.utf8EncodeChar d ++ y := by
  have hlt : c.val.toNat < d.val.toNat := h
  have hmax : d.val.toNat < 0x110000 := by
    have hvalid := d.valid
    simp only [UInt32.isValidChar, Nat.isValidChar] at hvalid
    omega
  generalize hm : c.val.toNat = m at hlt
  generalize hn : d.val.toNat = n at hlt hmax
  -- the leading byte of more than one holds a quotient by the lower ones
  have h₁ (k : ℕ) : k / 4096 = k / 64 / 64 := (Nat.div_div_eq_div_mul k 64 64).symm
  have h₂ (k : ℕ) : k / 262144 = k / 64 / 64 / 64 := by
    rw [Nat.div_div_eq_div_mul, Nat.div_div_eq_div_mul]
  simp only [String.utf8EncodeChar, hm, hn]
  split_ifs <;>
    simp [List.cons_lt_cons_iff, UInt8.lt_iff_toNat_lt, ← UInt8.toNat_inj, h₁, h₂] <;> omega

theorem flatMap_encode_lt {cs ds : List Char} (h : cs < ds) :
    cs.flatMap String.utf8EncodeChar < ds.flatMap String.utf8EncodeChar := by
  induction cs generalizing ds with
  | nil =>
    cases ds with
    | nil => exact absurd h (List.not_lt_nil _)
    | cons d ds =>
      obtain ⟨b, rest, hb⟩ := List.exists_cons_of_ne_nil (String.utf8EncodeChar_ne_nil (c := d))
      rw [List.flatMap_cons, hb]
      exact List.nil_lt_cons _ _
  | cons c cs ih =>
    cases ds with
    | nil => exact absurd h (List.not_lt_nil _)
    | cons d ds =>
      rw [List.flatMap_cons, List.flatMap_cons]
      rcases List.cons_lt_cons_iff.mp h with hlt | ⟨rfl, hlt⟩
      · exact encode_lt hlt _ _
      · exact List.append_left_lt (ih hlt)

/-- The order of texts is that of their bytes. -/
theorem bytes_lt_bytes {s t : String} : bytes s < bytes t ↔ s < t := by
  have hlt {a b : String} (h : a < b) : bytes a < bytes b := by
    rw [bytes_eq_flatMap, bytes_eq_flatMap]
    exact flatMap_encode_lt (String.lt_iff_toList_lt.mp h)
  refine ⟨fun h => ?_, hlt⟩
  rcases lt_trichotomy s t with hst | rfl | hts
  · exact hst
  · exact absurd h (List.lt_irrefl _)
  · exact absurd h (List.lt_asymm (hlt hts))

end PortGraph.Text
