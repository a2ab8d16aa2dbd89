import PortGraph.Proofs.Json.Ranged
import PortGraph.Proofs.Json.Scanning
import PortGraph.Proofs.Results
import PortGraph.Proofs.Tables
import PortGraph.Wire.Reader

/-!
Values as they are read. A value that is written and read again comes back when each of its numbers
does, and conversely; integers of a 64-bit word always do. What is read in the first place keeps its
objects in key order, takes its numbers from the document and stays within the depth limit.
-/

namespace PortGraph

namespace Json

/-! ### Depth, numbers and order -/

mutual

/-- How many arrays and objects are inside each other. -/
def depth : Json → ℕ
  | .array items => depthItems items + 1
  | .object fields => depthFields fields + 1
  | _ => 0

def depthItems : List Json → ℕ
  | [] => 0
  | v :: rest => max (depth v) (depthItems rest)

def depthFields : List (String × Json) → ℕ
  | [] => 0
  | (_, v) :: rest => max (depth v) (depthFields rest)

end

mutual

/-- The numbers in a value. -/
def numbers : Json → List Number
  | .number n => [n]
  | .array items => itemNumbers items
  | .object fields => fieldNumbers fields
  | _ => []

def itemNumbers : List Json → List Number
  | [] => []
  | v :: rest => numbers v ++ itemNumbers rest

def fieldNumbers : List (String × Json) → List Number
  | [] => []
  | (_, v) :: rest => numbers v ++ fieldNumbers rest

end

mutual

/-- Every object in the value has its fields in key order. -/
def Tabled : Json → Prop
  | .array items => TabledItems items
  | .object fields => Table.Ordered fields ∧ TabledFields fields
  | _ => True

def TabledItems : List Json → Prop
  | [] => True
  | v :: rest => Tabled v ∧ TabledItems rest

def TabledFields : List (String × Json) → Prop
  | [] => True
  | (_, v) :: rest => Tabled v ∧ TabledFields rest

end

/-- A value in memory: its objects are tables and its integers are those of a 64-bit word. -/
structure Regular (v : Json) : Prop where
  tabled : v.Tabled
  ranged : Number.Ranged v.numbers

theorem depthFields_le_iff {fields : List (String × Json)} {k : ℕ} :
    depthFields fields ≤ k ↔ ∀ e ∈ fields, e.2.depth ≤ k := by
  induction fields with
  | nil => simp [depthFields]
  | cons e rest ih => simp [depthFields, ih]

theorem depthItems_le_iff {items : List Json} {k : ℕ} :
    depthItems items ≤ k ↔ ∀ v ∈ items, v.depth ≤ k := by
  induction items with
  | nil => simp [depthItems]
  | cons v rest ih => simp [depthItems, ih]

theorem mem_fieldNumbers {fields : List (String × Json)} {n : Number} :
    n ∈ fieldNumbers fields ↔ ∃ e ∈ fields, n ∈ e.2.numbers := by
  induction fields with
  | nil => simp [fieldNumbers]
  | cons e rest ih => simp [fieldNumbers, ih]

theorem mem_itemNumbers {items : List Json} {n : Number} :
    n ∈ itemNumbers items ↔ ∃ v ∈ items, n ∈ v.numbers := by
  induction items with
  | nil => simp [itemNumbers]
  | cons v rest ih => simp [itemNumbers, ih]

theorem tabledItems_iff {items : List Json} : TabledItems items ↔ ∀ v ∈ items, v.Tabled := by
  induction items with
  | nil => simp [TabledItems]
  | cons v rest ih => simp [TabledItems, ih]

theorem tabledFields_iff {fields : List (String × Json)} :
    TabledFields fields ↔ ∀ e ∈ fields, e.2.Tabled := by
  induction fields with
  | nil => simp [TabledFields]
  | cons e rest ih => simp [TabledFields, ih]

end Json

namespace Reading

variable {r r' : Reading}

theorem enter_eq_ok (h : r.depth < depthLimit) : r.enter = .ok ⟨r.origin, r.depth + 1⟩ := by
  unfold enter
  rw [if_neg fun hlimit => h.not_ge hlimit.2]

/-- Going into a text stops at the limit. -/
theorem of_enter (h : r.enter = .ok r') :
    r'.origin = r.origin ∧ r'.depth = r.depth + 1 ∧
      (r.origin = .text → r.depth < depthLimit) := by
  unfold enter at h
  split_ifs at h with hlimit
  obtain rfl := Except.ok.inj h
  exact ⟨rfl, rfl, fun horigin => Nat.lt_of_not_le fun hle => hlimit ⟨horigin, hle⟩⟩

theorem enter_error {e : Mismatch} (h : r.enter = .error e) : e = .malformed := by
  unfold enter at h
  split_ifs at h
  exact (Except.error.inj h).symm

/-- What stands inside an array or an object of a text has the levels that are left. -/
theorem depth_inside (h : r.enter = .ok r') (horigin : r.origin = .text) {k : ℕ}
    (hk : r'.origin = .text → r'.depth ≤ depthLimit → k ≤ depthLimit - r'.depth) :
    r.depth + (k + 1) ≤ depthLimit := by
  obtain ⟨horigin', hdepth, hlimit⟩ := of_enter h
  have hlimit := hlimit horigin
  have hleft := hk (horigin'.trans horigin) (by omega)
  omega

end Reading

namespace Reader

open Source

/-! ### Reading what was written -/

theorem find?_of_anyFields {r : Reading} {read t : Table Json} {k : String} :
    ∀ {fields : List (String × Json)}, k ∉ Table.keys fields →
      anyFields r read (writtenFields fields) = .ok t → t.find? k = read.find? k := by
  intro fields
  induction fields generalizing read with
  | nil =>
    intro _ h
    obtain rfl := Except.ok.inj h
    rfl
  | cons e rest ih =>
    obtain ⟨key, v⟩ := e
    intro hk h
    obtain ⟨hne, hrest⟩ : k ≠ key ∧ k ∉ Table.keys rest := by simpa [Table.keys] using hk
    obtain ⟨w, -, h⟩ := ok_of_bind h
    rw [ih hrest h, Table.find?_insert, if_neg hne.symm]

/-- Fields are read back one by one: a later one has a later key, so it goes to the end. -/
theorem anyFields_cons_written {r : Reading} {read : Table Json} {k : String} {v : Json}
    {rest : List (String × Json)} (h : (read ++ (k, v) :: rest).Pairwise fun a b => a.1 < b.1) :
    anyFields r read (writtenFields ((k, v) :: rest)) = .ok (read ++ (k, v) :: rest) ↔
      any r (written v) = .ok v ∧
        anyFields r (read ++ [(k, v)]) (writtenFields rest) = .ok (read ++ [(k, v)] ++ rest) := by
  have hread : ∀ e ∈ read, e.1 < k := fun e he =>
    (List.pairwise_append.mp h).2.2 e he (k, v) (by simp)
  have hkeys := Table.Ordered.nodup h
  have hrest : k ∉ Table.keys rest := by
    have hcons := (List.pairwise_cons.mp (List.pairwise_append.mp h).2.1).1
    intro hk
    obtain ⟨e, he, rfl⟩ := List.mem_map.mp hk
    exact lt_irrefl _ (hcons e he)
  rw [List.append_assoc, List.singleton_append]
  constructor
  · intro hok
    obtain ⟨w, hw, hok⟩ := ok_of_bind hok
    have hfound := find?_of_anyFields hrest hok
    rw [Table.find?_of_mem hkeys (by simp : (k, v) ∈ _), Table.find?_insert, if_pos rfl] at hfound
    obtain rfl := Option.some.inj hfound
    rw [Table.insert_of_forall_lt hread] at hok
    exact ⟨hw, hok⟩
  · rintro ⟨hv, hok⟩
    refine bind_eq_ok.mpr ⟨v, hv, ?_⟩
    rw [Table.insert_of_forall_lt hread]
    exact hok

mutual

/-- A written value comes back just when its numbers do. -/
theorem any_written (r : Reading) : ∀ {v : Json}, v.Tabled → r.depth + v.depth ≤ depthLimit →
    (any r (written v) = .ok v ↔ ∀ n ∈ v.numbers, n.reread? = some n)
  | .null, _, _ => by simp [written, any, Json.numbers]
  | .bool _, _, _ => by simp [written, any, Json.numbers]
  | .number n, _, _ => by
    rw [written, Json.numbers, List.forall_mem_singleton]
    cases n.reread? <;> simp [any]
  | .string _, _, _ => by simp [written, any, Json.numbers]
  | .array items, hv, hdepth => by
    rw [Json.depth] at hdepth
    have ih := anyItems_written ⟨r.origin, r.depth + 1⟩ hv (by simp only; omega)
    rw [Json.numbers, ← ih, written, any, Reading.enter_eq_ok (by omega), ok_bind, bind_eq_ok]
    simp [pure, Except.pure]
  | .object fields, hv, hdepth => by
    rw [Json.depth] at hdepth
    have ih := @anyFields_written ⟨r.origin, r.depth + 1⟩ fields [] hv.1 hv.2
      (by simp only; omega)
    rw [List.nil_append] at ih
    rw [Json.numbers, ← ih, written, any, Reading.enter_eq_ok (by omega), ok_bind, bind_eq_ok]
    simp [pure, Except.pure]

theorem anyItems_written (r : Reading) : ∀ {items : List Json}, Json.TabledItems items →
    r.depth + Json.depthItems items ≤ depthLimit →
    (anyItems r (writtenItems items) = .ok items ↔
      ∀ n ∈ Json.itemNumbers items, n.reread? = some n)
  | [], _, _ => by simp [writtenItems, anyItems, Json.itemNumbers]
  | v :: rest, h, hdepth => by
    rw [Json.depthItems] at hdepth
    rw [Json.itemNumbers, List.forall_mem_append, ← any_written r h.1 (by omega),
      ← anyItems_written r h.2 (by omega), writtenItems, anyItems]
    simp [bind_eq_ok, pure, Except.pure]

theorem anyFields_written (r : Reading) : ∀ {fields : List (String × Json)} {read : Table Json},
    (read ++ fields).Pairwise (fun a b => a.1 < b.1) → Json.TabledFields fields →
    r.depth + Json.depthFields fields ≤ depthLimit →
    (anyFields r read (writtenFields fields) = .ok (read ++ fields) ↔
      ∀ n ∈ Json.fieldNumbers fields, n.reread? = some n)
  | [], read, _, _, _ => by simp [writtenFields, anyFields, Json.fieldNumbers]
  | (k, v) :: rest, read, hordered, h, hdepth => by
    rw [Json.depthFields] at hdepth
    rw [Json.fieldNumbers, List.forall_mem_append, ← any_written r h.1 (by omega),
      anyFields_cons_written hordered]
    rw [List.append_cons] at hordered
    rw [anyFields_written r hordered h.2 (by omega)]

end

/-! ### What is read at all -/

/-- A value that was read at some depth out of a document with the given numbers. -/
structure Admitted (r : Reading) (ns : List Number) (v : Json) : Prop where
  tabled : v.Tabled
  numbers : v.numbers ⊆ ns
  depth : r.origin = .text → r.depth ≤ depthLimit → r.depth + v.depth ≤ depthLimit

namespace Admitted

variable {r r' : Reading} {ns ns' : List Number}

theorem mono {v : Json} (h : Admitted r ns v) (hns : ns ⊆ ns') : Admitted r ns' v :=
  ⟨h.tabled, List.Subset.trans h.numbers hns, h.depth⟩

theorem leaf {v : Json} (htabled : v.Tabled) (hnumbers : v.numbers ⊆ ns) (hdepth : v.depth = 0) :
    Admitted r ns v :=
  ⟨htabled, hnumbers, fun _ hr => by omega⟩

theorem array {vs : List Json} (henter : r.enter = .ok r') (h : ∀ v ∈ vs, Admitted r' ns v) :
    Admitted r ns (.array vs) where
  tabled := Json.tabledItems_iff.mpr fun v hv => (h v hv).tabled
  numbers n hn := by
    obtain ⟨v, hv, hn⟩ := Json.mem_itemNumbers.mp hn
    exact (h v hv).numbers hn
  depth horigin _ := Reading.depth_inside henter horigin fun horigin hdepth =>
    Json.depthItems_le_iff.mpr fun v hv =>
      Nat.le_sub_of_add_le' ((h v hv).depth horigin hdepth)

theorem object {t : Table Json} (henter : r.enter = .ok r') (hordered : t.Ordered)
    (h : ∀ e ∈ t, Admitted r' ns e.2) : Admitted r ns (.object t) where
  tabled := ⟨hordered, Json.tabledFields_iff.mpr fun e he => (h e he).tabled⟩
  numbers n hn := by
    obtain ⟨e, he, hn⟩ := Json.mem_fieldNumbers.mp hn
    exact (h e he).numbers hn
  depth horigin _ := Reading.depth_inside henter horigin fun horigin hdepth =>
    Json.depthFields_le_iff.mpr fun e he =>
      Nat.le_sub_of_add_le' ((h e he).depth horigin hdepth)

end Admitted

mutual

theorem any_admitted {r : Reading} : ∀ {s : Source} {v : Json}, any r s = .ok v →
    Admitted r s.numbers v
  | .null, _, h => by
    obtain rfl := Except.ok.inj h
    exact .leaf trivial (List.nil_subset _) rfl
  | .bool b, _, h => by
    obtain rfl := Except.ok.inj h
    exact .leaf trivial (List.nil_subset _) rfl
  | .number (some n), _, h => by
    obtain rfl := Except.ok.inj h
    exact .leaf trivial (List.Subset.refl _) rfl
  | .string (some t), _, h => by
    obtain rfl := Except.ok.inj h
    exact .leaf trivial (List.nil_subset _) rfl
  | .array items, v, h => by
    obtain ⟨r', henter, h⟩ := ok_of_bind h
    obtain ⟨vs, hvs, h⟩ := ok_of_bind h
    obtain rfl := Except.ok.inj h
    exact .array henter (anyItems_admitted hvs)
  | .object fields, v, h => by
    obtain ⟨r', henter, h⟩ := ok_of_bind h
    obtain ⟨t, ht, h⟩ := ok_of_bind h
    obtain rfl := Except.ok.inj h
    obtain ⟨hordered, hall⟩ := anyFields_admitted List.Pairwise.nil ht
    exact .object henter hordered fun e he => (hall e he).resolve_left (List.not_mem_nil)

theorem anyItems_admitted {r : Reading} : ∀ {items : List Source} {vs : List Json},
    anyItems r items = .ok vs → ∀ v ∈ vs, Admitted r (itemNumbers items) v
  | [], _, h => by
    obtain rfl := Except.ok.inj h
    simp
  | s :: rest, _, h => by
    obtain ⟨v, hv, h⟩ := ok_of_bind h
    obtain ⟨vs, hvs, h⟩ := ok_of_bind h
    obtain rfl := Except.ok.inj h
    refine List.forall_mem_cons.mpr ⟨?_, fun w hw => ?_⟩
    · exact (any_admitted hv).mono (List.subset_append_left _ _)
    · exact (anyItems_admitted hvs w hw).mono (List.subset_append_right _ _)

theorem anyFields_admitted {r : Reading} : ∀ {fields : List (Option String × Source)}
    {read t : Table Json}, read.Ordered → anyFields r read fields = .ok t →
      t.Ordered ∧ ∀ e ∈ t, e ∈ read ∨ Admitted r (fieldNumbers fields) e.2
  | [], _, _, hread, h => by
    obtain rfl := Except.ok.inj h
    exact ⟨hread, fun e he => Or.inl he⟩
  | (some k, s) :: rest, read, _, hread, h => by
    obtain ⟨v, hv, h⟩ := ok_of_bind h
    obtain ⟨hordered, hall⟩ := anyFields_admitted (Table.ordered_insert hread k v) h
    refine ⟨hordered, fun e he => ?_⟩
    rcases hall e he with hin | hlater
    · rcases Table.mem_insert hin with rfl | hin
      · exact Or.inr ((any_admitted hv).mono (List.subset_append_left _ _))
      · exact Or.inl hin
    · exact Or.inr (hlater.mono (List.subset_append_right _ _))

end

/-! ### What is not read -/

mutual

/-- Any value will do, so it is only the text that can be wrong. -/
theorem any_error {r : Reading} {e : Mismatch} : ∀ {s : Source}, any r s = .error e → e = .malformed
  | .null, h | .bool _, h | .number (some _), h | .string (some _), h => by simp [any] at h
  | .number none, h | .string none, h | .broken, h => (Except.error.inj h).symm
  | .array items, h => by
    rcases error_of_bind h with h | ⟨r', -, h⟩
    · exact Reading.enter_error h
    · rcases error_of_bind h with h | ⟨vs, -, h⟩
      · exact anyItems_error h
      · simp [pure, Except.pure] at h
  | .object fields, h => by
    rcases error_of_bind h with h | ⟨r', -, h⟩
    · exact Reading.enter_error h
    · rcases error_of_bind h with h | ⟨t, -, h⟩
      · exact anyFields_error h
      · simp [pure, Except.pure] at h

theorem anyItems_error {r : Reading} {e : Mismatch} : ∀ {items : List Source},
    anyItems r items = .error e → e = .malformed
  | [], h => by simp [anyItems] at h
  | s :: rest, h => by
    rcases error_of_bind h with h | ⟨v, -, h⟩
    · exact any_error h
    · rcases error_of_bind h with h | ⟨vs, -, h⟩
      · exact anyItems_error h
      · simp [pure, Except.pure] at h

theorem anyFields_error {r : Reading} {e : Mismatch} : ∀ {fields : List (Option String × Source)}
    {read : Table Json}, anyFields r read fields = .error e → e = .malformed
  | [], _, h => by simp [anyFields] at h
  | (none, _) :: _, _, h => (Except.error.inj h).symm
  | (some k, s) :: rest, _, h => by
    rcases error_of_bind h with h | ⟨v, -, h⟩
    · exact any_error h
    · exact anyFields_error h

end

mutual

/-- A written value is read from a text only if it nests no deeper than the levels that are left. -/
theorem depth_of_any_written {r : Reading} : ∀ {v w : Json}, any r (written v) = .ok w →
    r.origin = .text → r.depth ≤ depthLimit → v.depth ≤ depthLimit - r.depth
  | .null, _, _, _, _ | .bool _, _, _, _, _ | .number _, _, _, _, _ | .string _, _, _, _, _ =>
    Nat.zero_le _
  | .array items, _, h, horigin, _ => by
    obtain ⟨r', henter, h⟩ := ok_of_bind h
    obtain ⟨vs, hvs, -⟩ := ok_of_bind h
    exact Nat.le_sub_of_add_le'
      (Reading.depth_inside henter horigin (depth_of_anyItems_written hvs))
  | .object fields, _, h, horigin, _ => by
    obtain ⟨r', henter, h⟩ := ok_of_bind h
    obtain ⟨t, ht, -⟩ := ok_of_bind h
    exact Nat.le_sub_of_add_le'
      (Reading.depth_inside henter horigin (depth_of_anyFields_written ht))

theorem depth_of_anyItems_written {r : Reading} : ∀ {items vs : List Json},
    anyItems r (writtenItems items) = .ok vs →
      r.origin = .text → r.depth ≤ depthLimit → Json.depthItems items ≤ depthLimit - r.depth
  | [], _, _, _, _ => Nat.zero_le _
  | v :: rest, _, h, horigin, hdepth => by
    obtain ⟨w, hw, h⟩ := ok_of_bind h
    obtain ⟨vs, hvs, -⟩ := ok_of_bind h
    exact max_le (depth_of_any_written hw horigin hdepth)
      (depth_of_anyItems_written hvs horigin hdepth)

theorem depth_of_anyFields_written {r : Reading} : ∀ {fields : List (String × Json)}
    {read t : Table Json}, anyFields r read (writtenFields fields) = .ok t →
      r.origin = .text → r.depth ≤ depthLimit → Json.depthFields fields ≤ depthLimit - r.depth
  | [], _, _, _, _, _ => Nat.zero_le _
  | (k, v) :: rest, _, _, h, horigin, hdepth => by
    obtain ⟨w, hw, h⟩ := ok_of_bind h
    exact max_le (depth_of_any_written hw horigin hdepth)
      (depth_of_anyFields_written h horigin hdepth)

end

/-- Any object is read as any value is. -/
theorem fields_eq_ok {r : Reading} {s : Source} {t : Table Json} :
    fields r s = .ok t ↔ any r s = .ok (.object t) := by
  cases s with
  | object fs =>
    simp only [fields, any, bind_eq_ok, pure, Except.pure, Except.ok.injEq, Json.object.injEq]
    simp
  | array items => simp [fields, any, unfit_ne_ok, bind_eq_ok, pure, Except.pure]
  | number n => cases n <;> simp [fields, any, unfit_ne_ok]
  | string t => cases t <;> simp [fields, any, unfit_ne_ok]
  | null | bool _ | broken => simp [fields, any, unfit_ne_ok]

end Reader

/-! ### Texts -/

namespace Json

/-- A value whose objects are in key order and that nests no deeper than documents may is read back
from its text just when its numbers are. -/
theorem parse_compact {v : Json} (h : v.Tabled) (hdepth : v.depth ≤ depthLimit) :
    parse (compact v) = .ok v ↔ ∀ n ∈ v.numbers, n.reread? = some n := by
  rw [← Reader.any_written ⟨.text, 0⟩ h (by simpa using hdepth)]
  unfold parse Reader.readText compact
  rw [(Source.spells_write v).ofText]
  simp [bind_eq_ok, pure, Except.pure]

/-- The text of a value that nests too deep is no document. -/
theorem parse_compact_of_deep {v : Json} (h : depthLimit < v.depth) :
    parse (compact v) = .error .malformed := by
  unfold parse Reader.readText compact
  rw [(Source.spells_write v).ofText]
  cases hread : Reader.any ⟨.text, 0⟩ (Source.written v) with
  | ok w =>
    have hdepth := Reader.depth_of_any_written hread rfl (Nat.zero_le _)
    exact absurd h (by simpa using hdepth)
  | error e =>
    obtain rfl := Reader.any_error hread
    simp only [hread]
    rfl

end Json

/-- The text of the double is read as the double itself. -/
def Binary64.ReadsBack (x : Binary64) : Prop :=
  Json.parse (Json.compact (.number (.double x))) = .ok (.number (.double x))

theorem Binary64.readsBack_iff {x : Binary64} :
    x.ReadsBack ↔ (Number.double x).reread? = some (.double x) := by
  unfold ReadsBack
  rw [Json.parse_compact (v := .number (.double x)) trivial (Nat.zero_le _)]
  simp [Json.numbers]

/-- Not every double does: the text of this one, -9.722470000000001e-141, is read as its
neighbour. -/
example : ¬ (⟨true, 8342848663336257, -518⟩ : Binary64).ReadsBack := by
  unfold Binary64.ReadsBack
  decide +kernel

/-- Integers of a 64-bit word are read back, so it comes down to the doubles. -/
theorem Number.Ranged.reread_iff {ns : List Number} (h : Number.Ranged ns) :
    (∀ n ∈ ns, n.reread? = some n) ↔ ∀ x, .double x ∈ ns → x.ReadsBack := by
  constructor
  · intro hall x hx
    exact Binary64.readsBack_iff.mpr (hall _ hx)
  · intro hall n hn
    cases n with
    | integer i => exact Number.reread?_integer (h i hn)
    | double x => exact Binary64.readsBack_iff.mp (hall x hn)

end PortGraph
