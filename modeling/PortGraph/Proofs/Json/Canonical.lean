import Mathlib.Tactic.Common
import PortGraph.Json.Digest
import PortGraph.Proofs.Json.Reading
import PortGraph.Proofs.Text.Bytes
import PortGraph.Run.Log

/-!
What a canonical text stands for. It is the compact text of the value with its objects in key
order, and it can be taken apart again: two values have one text only if they differ in nothing but
numbers that are written alike. So values with one digest are equal in this sense, or their texts
are a collision of the hash.
-/

namespace PortGraph

/-! ### Objects in key order -/

namespace Json

mutual

/-- The value with the fields of each of its objects put into a table. -/
def sorted : Json → Json
  | .array items => .array (sortedItems items)
  | .object fields => .object (Table.ofEntries (sortedFields fields))
  | v => v

def sortedItems : List Json → List Json
  | [] => []
  | v :: rest => sorted v :: sortedItems rest

def sortedFields : List (String × Json) → List (String × Json)
  | [] => []
  | (k, v) :: rest => (k, sorted v) :: sortedFields rest

end

mutual

theorem tabled_sorted : ∀ v : Json, v.sorted.Tabled
  | .null | .bool _ | .number _ | .string _ => trivial
  | .array items => tabledItems_sorted items
  | .object fields => by
      refine ⟨Table.ordered_ofEntries _, tabledFields_iff.mpr fun e he => ?_⟩
      exact tabledFields_iff.mp (tabledFields_sorted fields) e (Table.mem_of_mem_ofEntries he)

theorem tabledItems_sorted : ∀ items : List Json, TabledItems (sortedItems items)
  | [] => trivial
  | v :: rest => ⟨tabled_sorted v, tabledItems_sorted rest⟩

theorem tabledFields_sorted : ∀ fields : List (String × Json), TabledFields (sortedFields fields)
  | [] => trivial
  | (_, v) :: rest => ⟨tabled_sorted v, tabledFields_sorted rest⟩

end

mutual

theorem sorted_of_tabled : ∀ {v : Json}, v.Tabled → v.sorted = v
  | .null, _ | .bool _, _ | .number _, _ | .string _, _ => rfl
  | .array _, h => congrArg Json.array (sortedItems_of_tabled h)
  | .object fields, h => by
      rw [sorted, sortedFields_of_tabled h.2, Table.ofEntries_of_ordered h.1]

theorem sortedItems_of_tabled : ∀ {items : List Json}, TabledItems items →
    sortedItems items = items
  | [], _ => rfl
  | v :: rest, h => by rw [sortedItems, sorted_of_tabled h.1, sortedItems_of_tabled h.2]

theorem sortedFields_of_tabled : ∀ {fields : List (String × Json)}, TabledFields fields →
    sortedFields fields = fields
  | [], _ => rfl
  | (k, v) :: rest, h => by rw [sortedFields, sorted_of_tabled h.1, sortedFields_of_tabled h.2]

end

/-- The value is another one or stands somewhere inside it. -/
inductive Within (u : Json) : Json → Prop
  | self : Within u u
  | item {items : List Json} {v : Json} (hv : v ∈ items) (h : Within u v) : Within u (.array items)
  | field {fields : List (String × Json)} {e : String × Json} (he : e ∈ fields)
      (h : Within u e.2) : Within u (.object fields)

theorem Within.tabled {u v : Json} (h : Within u v) : v.Tabled → u.Tabled := by
  induction h with
  | self => exact id
  | item hv _ ih => exact fun htabled => ih (tabledItems_iff.mp htabled _ hv)
  | field he _ ih => exact fun htabled => ih (tabledFields_iff.mp htabled.2 _ he)

/-- The keys of an object come in the order of their bytes. -/
theorem pairwise_bytes_of_tabled {fields : List (String × Json)} (h : (Json.object fields).Tabled) :
    fields.Pairwise fun e f => Text.bytes e.1 < Text.bytes f.1 :=
  h.1.imp Text.bytes_lt_bytes.mpr

/-! ### The canonical text is a compact text -/

theorem commaSeparated_eq : ∀ texts : List (List Char),
    commaSeparated texts = List.intercalate [','] texts
  | [] => rfl
  | [t] => by rw [commaSeparated, List.intercalate_singleton]
  | t :: u :: rest => by
    rw [commaSeparated, commaSeparated_eq (u :: rest)]
    · simp [List.intercalate_cons_cons]
    · simp

mutual

theorem canonical_eq : ∀ v : Json, canonical v = write v.sorted
  | .null | .bool _ | .number _ | .string _ => rfl
  | .array items => by
      rw [canonical, sorted, write, writeItems_eq, commaSeparated_eq, canonicalItems_eq]
  | .object fields => by
      rw [canonical, sorted, write, writeFields_eq, commaSeparated_eq, canonicalFields_eq,
        Table.ofEntries_map_snd _ write, List.map_map]
      rfl

theorem canonicalItems_eq : ∀ items : List Json,
    canonicalItems items = (sortedItems items).map write
  | [] => rfl
  | v :: rest => by
      rw [canonicalItems, canonical_eq v, canonicalItems_eq rest, sortedItems, List.map_cons]

theorem canonicalFields_eq : ∀ fields : List (String × Json),
    canonicalFields fields = (sortedFields fields).map fun e => (e.1, write e.2)
  | [] => rfl
  | (k, v) :: rest => by
      rw [canonicalFields, canonical_eq v, canonicalFields_eq rest, sortedFields, List.map_cons]

end

end Json

/-! ### Taking texts apart -/

namespace Source

/-- Each with something after it, the texts are equal only if both parts are. -/
def Separate (text text' : List Char) : Prop :=
  ∀ rest rest', Numeral.Stops rest → Numeral.Stops rest' → text ++ rest = text' ++ rest' →
    text = text' ∧ rest = rest'

theorem Spells.cut {text text' rest rest' : List Char} {source source' : Source}
    (h : Spells text source) (h' : Spells text' source') (hrest : Numeral.Stops rest)
    (hrest' : Numeral.Stops rest') (heq : text ++ rest = text' ++ rest') :
    source = source' ∧ text = text' ∧ rest = rest' := by
  -- both are read off the front of one text, and reading is a function
  have hscan := h.scan (text.length + text'.length) rest (by omega) hrest
  rw [heq, h'.scan _ rest' (by omega) hrest'] at hscan
  obtain ⟨rfl, hsome⟩ := Prod.mk.inj hscan
  obtain rfl := Option.some.inj hsome
  exact ⟨rfl, List.append_cancel_right heq, rfl⟩

theorem separate_write (v w : Json) : Separate (Json.write v) (Json.write w) :=
  fun _ _ hrest hrest' heq => ((spells_write v).cut (spells_write w) hrest hrest' heq).2

/-- The key of a field ends before the colon. -/
theorem fieldText_append_inj {k k' : String} {text text' : List Char}
    (heq : fieldText (k, text) = fieldText (k', text')) : k = k' ∧ text = text' := by
  have hcolon : ∀ cs, Numeral.Stops (':' :: cs) := by
    rintro cs _ _ ⟨⟩
    decide
  obtain ⟨hkey, -, htail⟩ :=
    (spells_quoted k).cut (spells_quoted k') (hcolon text) (hcolon text') heq
  exact ⟨by simpa using hkey, (List.cons.inj htail).2⟩

theorem fieldText_ne_nil (m : String × List Char) : fieldText m ≠ [] := by
  simp [fieldText, Json.quoted]

theorem separate_fieldText (e f : String × Json) :
    Separate (fieldText (e.1, Json.write e.2)) (fieldText (f.1, Json.write f.2)) := by
  intro rest rest' hrest hrest' heq
  have hsplit : ∀ (k : String) (text more : List Char),
      fieldText (k, text) ++ more = fieldText (k, text ++ more) := by simp [fieldText]
  rw [hsplit, hsplit] at heq
  obtain ⟨hkey, htail⟩ := fieldText_append_inj heq
  obtain ⟨htext, hmore⟩ := separate_write e.2 f.2 rest rest' hrest hrest' htail
  exact ⟨by rw [hkey, htext], hmore⟩

/-- Texts with a comma before each, as they follow the first of a list. -/
def commaLed (texts : List (List Char)) : List Char := texts.flatMap (',' :: ·)

theorem stops_commaLed (texts : List (List Char)) : Numeral.Stops (commaLed texts) := by
  cases texts with
  | nil => exact Numeral.stops_nil
  | cons text rest => exact stops_cons (Or.inl rfl) _

theorem intercalate_cons_eq (text : List Char) (rest : List (List Char)) :
    List.intercalate [','] (text :: rest) = text ++ commaLed rest := by
  induction rest generalizing text with
  | nil => simp [commaLed]
  | cons next rest ih =>
    rw [List.intercalate_cons_cons, ih, commaLed, commaLed, List.flatMap_cons]
    simp

theorem commaLed_inj {texts texts' : List (List Char)}
    (h : ∀ text ∈ texts, ∀ text' ∈ texts', Separate text text')
    (heq : commaLed texts = commaLed texts') : texts = texts' := by
  induction texts generalizing texts' with
  | nil =>
    cases texts' with
    | nil => rfl
    | cons => simp [commaLed] at heq
  | cons text rest ih =>
    cases texts' with
    | nil => simp [commaLed] at heq
    | cons text' rest' =>
      obtain ⟨rfl, hrest⟩ := h text (by simp) text' (by simp) (commaLed rest) (commaLed rest')
        (stops_commaLed rest) (stops_commaLed rest') (List.cons.inj heq).2
      rw [ih (fun u hu u' hu' => h u (by simp [hu]) u' (by simp [hu'])) hrest]

/-- Texts that are separate can be told apart in a list. -/
theorem intercalate_inj {texts texts' : List (List Char)}
    (h : ∀ text ∈ texts, ∀ text' ∈ texts', Separate text text')
    (hne : ∀ text ∈ texts, text ≠ []) (hne' : ∀ text ∈ texts', text ≠ [])
    (heq : List.intercalate [','] texts = List.intercalate [','] texts') : texts = texts' := by
  cases texts with
  | nil =>
    cases texts' with
    | nil => rfl
    | cons text' rest' =>
      rw [intercalate_cons_eq, List.intercalate_nil] at heq
      exact absurd (List.append_eq_nil_iff.mp heq.symm).1 (hne' text' (by simp))
  | cons text rest =>
    cases texts' with
    | nil =>
      rw [intercalate_cons_eq, List.intercalate_nil] at heq
      exact absurd (List.append_eq_nil_iff.mp heq).1 (hne text (by simp))
    | cons text' rest' =>
      rw [intercalate_cons_eq, intercalate_cons_eq] at heq
      obtain ⟨rfl, hrest⟩ := h text (by simp) text' (by simp) (commaLed rest) (commaLed rest')
        (stops_commaLed rest) (stops_commaLed rest') heq
      rw [commaLed_inj (fun u hu u' hu' => h u (by simp [hu]) u' (by simp [hu'])) hrest]

end Source

namespace Json

mutual

/-- The values are the same but for numbers, of which only the texts are. -/
inductive EqualAsPrinted : Json → Json → Prop
  | null : EqualAsPrinted .null .null
  | bool (b : Bool) : EqualAsPrinted (.bool b) (.bool b)
  | number {n m : Number} (h : n.toText = m.toText) : EqualAsPrinted (.number n) (.number m)
  | string (s : String) : EqualAsPrinted (.string s) (.string s)
  | array {items items' : List Json} (h : ItemsAsPrinted items items') :
      EqualAsPrinted (.array items) (.array items')
  | object {fields fields' : List (String × Json)} (h : FieldsAsPrinted fields fields') :
      EqualAsPrinted (.object fields) (.object fields')

inductive ItemsAsPrinted : List Json → List Json → Prop
  | nil : ItemsAsPrinted [] []
  | cons {v w : Json} {items items' : List Json} (h : EqualAsPrinted v w)
      (hrest : ItemsAsPrinted items items') : ItemsAsPrinted (v :: items) (w :: items')

inductive FieldsAsPrinted : List (String × Json) → List (String × Json) → Prop
  | nil : FieldsAsPrinted [] []
  | cons (k : String) {v w : Json} {fields fields' : List (String × Json)}
      (h : EqualAsPrinted v w) (hrest : FieldsAsPrinted fields fields') :
      FieldsAsPrinted ((k, v) :: fields) ((k, w) :: fields')

end

mutual

theorem write_of_equal : ∀ {v w : Json}, EqualAsPrinted v w → write v = write w
  | _, _, .null | _, _, .bool _ | _, _, .string _ => rfl
  | _, _, .number h => h
  | _, _, .array h => by
      rw [write, write, writeItems_eq, writeItems_eq, write_of_equal_items h]
  | _, _, .object h => by
      rw [write, write, writeFields_eq, writeFields_eq, write_of_equal_fields h]

theorem write_of_equal_items : ∀ {items items' : List Json}, ItemsAsPrinted items items' →
    items.map write = items'.map write
  | _, _, .nil => rfl
  | _, _, .cons h hrest => by
      rw [List.map_cons, List.map_cons, write_of_equal h, write_of_equal_items hrest]

theorem write_of_equal_fields : ∀ {fields fields' : List (String × Json)},
    FieldsAsPrinted fields fields' → (fields.map fun e => Source.fieldText (e.1, write e.2)) =
      fields'.map fun e => Source.fieldText (e.1, write e.2)
  | _, _, .nil => rfl
  | _, _, .cons k h hrest => by
      rw [List.map_cons, List.map_cons, write_of_equal h, write_of_equal_fields hrest]

end

theorem write_ne_nil (v : Json) : write v ≠ [] := by
  obtain ⟨c, cs, hc, -⟩ := (Source.spells_write v).head
  simp [hc]

theorem written_of_write {v w : Json} (h : write v = write w) :
    Source.written v = Source.written w :=
  ((Source.spells_write v).cut (Source.spells_write w) Numeral.stops_nil Numeral.stops_nil
    (by rw [h])).1

mutual

theorem equal_of_write : ∀ {v w : Json}, write v = write w → EqualAsPrinted v w
  -- what both texts spell tells that `w` has the constructor of `v`
  | .null, w, h => by
      have hwritten := written_of_write h
      cases w <;> simp [Source.written] at hwritten
      exact .null
  | .bool b, w, h => by
      have hwritten := written_of_write h
      cases w <;> simp [Source.written] at hwritten
      exact hwritten ▸ .bool b
  | .number n, w, h => by
      have hwritten := written_of_write h
      cases w <;> simp [Source.written] at hwritten
      exact .number h
  | .string s, w, h => by
      have hwritten := written_of_write h
      cases w <;> simp [Source.written] at hwritten
      exact hwritten ▸ .string s
  | .array items, w, h => by
      have hwritten := written_of_write h
      cases w <;> simp [Source.written] at hwritten
      rw [write, write, writeItems_eq, writeItems_eq] at h
      have htexts := List.append_cancel_right (List.cons.inj h).2
      refine .array (equal_of_items (Source.intercalate_inj ?_ ?_ ?_ htexts))
      · simp only [List.forall_mem_map]
        exact fun v _ w _ => Source.separate_write v w
      · exact List.forall_mem_map.mpr fun v _ => write_ne_nil v
      · exact List.forall_mem_map.mpr fun v _ => write_ne_nil v
  | .object fields, w, h => by
      have hwritten := written_of_write h
      cases w <;> simp [Source.written] at hwritten
      rw [write, write, writeFields_eq, writeFields_eq] at h
      have htexts := List.append_cancel_right (List.cons.inj h).2
      refine .object (equal_of_fields (Source.intercalate_inj ?_ ?_ ?_ htexts))
      · simp only [List.forall_mem_map]
        exact fun e _ f _ => Source.separate_fieldText e f
      · exact List.forall_mem_map.mpr fun e _ => Source.fieldText_ne_nil _
      · exact List.forall_mem_map.mpr fun e _ => Source.fieldText_ne_nil _

theorem equal_of_items : ∀ {items items' : List Json}, items.map write = items'.map write →
    ItemsAsPrinted items items'
  | [], [], _ => .nil
  | _ :: _, _ :: _, h =>
      .cons (equal_of_write (List.cons.inj h).1) (equal_of_items (List.cons.inj h).2)

theorem equal_of_fields : ∀ {fields fields' : List (String × Json)},
    (fields.map fun e => Source.fieldText (e.1, write e.2)) =
      (fields'.map fun e => Source.fieldText (e.1, write e.2)) → FieldsAsPrinted fields fields'
  | [], [], _ => .nil
  | (k, v) :: rest, (k', w) :: rest', h => by
      obtain ⟨hfield, hrest⟩ := List.cons.inj h
      obtain ⟨rfl, hvalue⟩ := Source.fieldText_append_inj hfield
      exact .cons k (equal_of_write hvalue) (equal_of_fields hrest)

end

/-- Two values have one compact text only if they differ in nothing but numbers written alike. -/
theorem write_eq_write_iff {v w : Json} : write v = write w ↔ EqualAsPrinted v w :=
  ⟨equal_of_write, write_of_equal⟩

end Json

/-! ### Numbers written alike -/

namespace Binary64

/-- The text of a double has a point or an exponent. -/
theorem mem_format (x : Binary64) :
    '.' ∈ x.format .document ∨ 'e' ∈ x.format .document := by
  have hpositional : ∀ d, '.' ∈ positionalText true d := by
    intro d
    unfold positionalText
    dsimp only
    simp only [if_true]
    split_ifs <;> simp
  have hscientific : ∀ d, 'e' ∈ scientificText d := by
    intro d
    simp [scientificText]
  unfold format
  dsimp only [Style.document]
  split_ifs
  · exact Or.inl (List.mem_cons_of_mem _ (hpositional _))
  · exact Or.inr (List.mem_cons_of_mem _ (hscientific _))
  · exact Or.inl (hpositional _)
  · exact Or.inr (hscientific _)

end Binary64

namespace Number

open Text.Decimal

/-- The text of an integer is that of no other number. -/
theorem toText_integer_iff {i : ℤ} {n : Number} :
    (integer i).toText = n.toText ↔ n = integer i := by
  refine ⟨fun h => ?_, fun h => by rw [h]⟩
  cases n with
  | integer j => rw [integer_injective h]
  | double x =>
    -- a point or an exponent stands in no text of an integer
    have hplain : ∀ c ∈ Text.Decimal.integer i, isDigit c = true ∨ c = '-' := by
      cases i with
      | ofNat k => exact fun c hc => Or.inl ((run_natural k).all c hc)
      | negSucc k =>
        intro c hc
        rcases List.mem_cons.mp hc with rfl | hc
        · exact Or.inr rfl
        · exact Or.inl ((run_natural (k + 1)).all c hc)
    have hmem := x.mem_format
    rw [← show Text.Decimal.integer i = x.format .document from h] at hmem
    rcases hmem with hc | hc
    · exact absurd (hplain _ hc) (by decide)
    · exact absurd (hplain _ hc) (by decide)

end Number

/-! ### Digests -/

namespace Sha256

/-- Different bytes with one digest. -/
def Collide (bytes bytes' : List UInt8) : Prop := bytes ≠ bytes' ∧ digest bytes = digest bytes'

/-- A number of a few hexadecimal digits is known by them. -/
theorem eq_of_digits {count n m : ℕ} (hn : n < Nat.pow 16 count) (hm : m < Nat.pow 16 count)
    (h : ∀ i < count, n / Nat.pow 16 i % 16 = m / Nat.pow 16 i % 16) : n = m := by
  induction count generalizing n m with
  | zero => exact (Nat.lt_one_iff.mp hn).trans (Nat.lt_one_iff.mp hm).symm
  | succ count ih =>
    have hpow : Nat.pow 16 (count + 1) = Nat.pow 16 count * 16 := Nat.pow_succ 16 count
    have hlast : n % 16 = m % 16 := by simpa using h 0 (by omega)
    have hrest : n / 16 = m / 16 := by
      refine ih (by omega) (by omega) fun i hi => ?_
      have hnext := h (i + 1) (by omega)
      rwa [show Nat.pow 16 (i + 1) = 16 * Nat.pow 16 i from Nat.pow_succ', ← Nat.div_div_eq_div_mul,
        ← Nat.div_div_eq_div_mul] at hnext
    omega

theorem hexDigits_injective : Function.Injective hexDigits := by
  intro x y h
  have hdigit : ∀ i < 8, x.toNat / Nat.pow 16 i % 16 = y.toNat / Nat.pow 16 i % 16 := by
    intro i hi
    have hchar : Json.hexDigit (x.toNat / Nat.pow 16 i % 16) =
        Json.hexDigit (y.toNat / Nat.pow 16 i % 16) :=
      List.map_inj_left.mp h i (by simpa using hi)
    have hvalue := congrArg Source.hexValue? hchar
    rw [Source.hexValue?_hexDigit (Nat.mod_lt _ (by decide)),
      Source.hexValue?_hexDigit (Nat.mod_lt _ (by decide))] at hvalue
    exact Option.some.inj hvalue
  have hlt : ∀ z : UInt32, z.toNat < Nat.pow 16 8 := UInt32.toNat_lt
  exact UInt32.toNat_inj.mp (eq_of_digits (hlt x) (hlt y) hdigit)

theorem flatMap_hexDigits_injective {xs ys : List UInt32}
    (h : xs.flatMap hexDigits = ys.flatMap hexDigits) : xs = ys := by
  induction xs generalizing ys with
  | nil =>
    cases ys with
    | nil => rfl
    | cons y ys => simp [hexDigits] at h
  | cons x xs ih =>
    cases ys with
    | nil => simp [hexDigits] at h
    | cons y ys =>
      rw [List.flatMap_cons, List.flatMap_cons] at h
      obtain ⟨hhead, htail⟩ := List.append_inj h rfl
      rw [hexDigits_injective hhead, ih htail]

theorem hexDigest_eq_iff {s t : String} : hexDigest s = hexDigest t ↔
    s = t ∨ Collide (Text.bytes s) (Text.bytes t) := by
  unfold Collide
  constructor
  · intro h
    have hdigest := flatMap_hexDigits_injective (String.ofList_injective h)
    by_cases heq : s = t
    · exact Or.inl heq
    · exact Or.inr ⟨Text.bytes_injective.ne heq, hdigest⟩
  · rintro (rfl | ⟨-, h⟩)
    · rfl
    · exact congrArg (fun ws : List UInt32 => String.ofList (ws.flatMap hexDigits)) h

end Sha256

/-- Values share a digest only if they are equal, or their texts collide. -/
theorem Json.digest_eq_iff {v w : Json} : v.digest = w.digest ↔
    EqualAsPrinted v.sorted w.sorted ∨
      Sha256.Collide (Text.bytes v.sorted.compact) (Text.bytes w.sorted.compact) := by
  rw [digest, digest, canonical_eq, canonical_eq, Sha256.hexDigest_eq_iff, ← write_eq_write_iff]
  exact or_congr_left ⟨fun h => String.ofList_injective h, congrArg String.ofList⟩

namespace LogEntry

/-- A digest of the entry of a run, with the port values that it stands for. -/
inductive Digests (e : LogEntry) (r : NodeRun) : String → PortValues → Prop
  | inputs : Digests e r e.inputsDigest r.inputs
  | outputs {d : String} (h : e.outputsDigest = some d) : Digests e r d (r.outputs.getD [])

theorem Digests.eq_digest {node : Node} {r : NodeRun} {iteration : List ℕ} {verbose : Bool}
    {d : String} {values : PortValues}
    (h : Digests (.ofRun node r iteration verbose) r d values) :
    d = Json.digest (.object values) := by
  cases h with
  | inputs => rfl
  | outputs h =>
    unfold ofRun at h
    dsimp only at h
    split_ifs at h
    exact (Option.some.inj h).symm

end LogEntry

namespace Json

/-- The canonical text is the compact text with keys in the order of their bytes, different values
have different ones, and the digests in a log tell port values apart unless the hash collides. -/
theorem canonicalFaithful :
    (∀ v : Json, String.ofList (canonical v) = v.sorted.compact ∧ (v.Tabled → v.sorted = v) ∧
      ∀ fields, Within (.object fields) v.sorted →
        fields.Pairwise fun e f => Text.bytes e.1 < Text.bytes f.1) ∧
    (∀ v w : Json, canonical v = canonical w ↔ EqualAsPrinted v.sorted w.sorted) ∧
    (∀ (i : ℤ) (n : Number), EqualAsPrinted (.number (.integer i)) (.number n) ↔ n = .integer i) ∧
    ∀ (node node' : Node) (r r' : NodeRun) (iteration iteration' : List ℕ)
      (verbose verbose' : Bool) (d : String) (values values' : PortValues),
      LogEntry.Digests (.ofRun node r iteration verbose) r d values →
      LogEntry.Digests (.ofRun node' r' iteration' verbose') r' d values' →
      EqualAsPrinted (Json.object values).sorted (Json.object values').sorted ∨
        Sha256.Collide (Text.bytes (Json.object values).sorted.compact)
          (Text.bytes (Json.object values').sorted.compact) := by
  refine ⟨fun v => ⟨?_, sorted_of_tabled, fun fields h => ?_⟩, fun v w => ?_, fun i n => ?_, ?_⟩
  · rw [canonical_eq, compact]
  · exact pairwise_bytes_of_tabled (h.tabled (tabled_sorted v))
  · rw [canonical_eq, canonical_eq, write_eq_write_iff]
  · rw [← Number.toText_integer_iff]
    exact ⟨fun h => by cases h; assumption, .number⟩
  · intro node node' r r' iteration iteration' verbose verbose' d values values' h h'
    exact digest_eq_iff.mp (h.eq_digest.symm.trans h'.eq_digest)

/-- A value with a quotation mark, a comma and a brace in a text. -/
def crowded : Json :=
  .object [("a", .string "x\",\x7d"), ("b", .array [.number (.integer 1), .object []])]

def crowdedBackward : Json :=
  .object [("b", .array [.number (.integer 1), .object []]), ("a", .string "x\",\x7d")]

/-- A run that received a value. -/
def received (v : Json) : NodeRun := { NodeRun.new "end" with inputs := [("data", v)] }

def receiver : Node := ⟨"end", .output ⟨"json"⟩, [], [⟨"data", .any⟩], []⟩

theorem crowded_canonicalFaithful :
    (crowded.Tabled ∧ String.ofList (canonical crowded) = crowded.sorted.compact ∧
      crowded.sorted = crowded) ∧
    (Within (.object [("a", .string "x\",\x7d"), ("b", .array [.number (.integer 1), .object []])])
        crowdedBackward.sorted ∧ Text.bytes "a" < Text.bytes "b") ∧
    LogEntry.Digests (.ofRun receiver (received crowded) [] false) (received crowded)
      (digest (.object [("data", crowded)])) [("data", crowded)] ∧
    LogEntry.Digests (.ofRun receiver (received crowdedBackward) [2] true)
      (received crowdedBackward) (digest (.object [("data", crowded)]))
      [("data", crowdedBackward)] ∧
    (EqualAsPrinted (Json.object [("data", crowded)]).sorted
        (Json.object [("data", crowdedBackward)]).sorted ∨
      Sha256.Collide (Text.bytes (Json.object [("data", crowded)]).sorted.compact)
        (Text.bytes (Json.object [("data", crowdedBackward)]).sorted.compact)) := by
  have htabled : crowded.Tabled :=
    ⟨List.pairwise_pair.mpr (by decide), trivial, ⟨trivial, ⟨.nil, trivial⟩, trivial⟩, trivial⟩
  have hsorted : crowdedBackward.sorted = crowded := rfl
  have hcanonical : canonical (.object [("data", crowdedBackward)]) =
      canonical (.object [("data", crowded)]) := rfl
  have hdigests : LogEntry.Digests (.ofRun receiver (received crowded) [] false)
      (received crowded) (digest (.object [("data", crowded)])) [("data", crowded)] := .inputs
  have hdigests' : LogEntry.Digests (.ofRun receiver (received crowdedBackward) [2] true)
      (received crowdedBackward) (digest (.object [("data", crowded)]))
      [("data", crowdedBackward)] := by
    have hdigest : digest (.object [("data", crowdedBackward)]) =
        digest (.object [("data", crowded)]) := by
      rw [digest, digest, hcanonical]
    rw [← hdigest]
    exact .inputs
  have hwithin : Within crowded crowdedBackward.sorted := hsorted ▸ .self
  have hkeys : Text.bytes "a" < Text.bytes "b" :=
    List.rel_of_pairwise_cons ((canonicalFaithful.1 crowdedBackward).2.2 _ hwithin)
      (List.mem_singleton_self _)
  exact ⟨⟨htabled, (canonicalFaithful.1 crowded).1, (canonicalFaithful.1 crowded).2.1 htabled⟩,
    ⟨hwithin, hkeys⟩, hdigests, hdigests',
    canonicalFaithful.2.2.2 _ _ _ _ _ _ _ _ _ _ _ hdigests hdigests'⟩

end Json

end PortGraph
