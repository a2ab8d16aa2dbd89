import PortGraph.Proofs.Json.Records
import PortGraph.Wire.Choice

/-!
What is written and read again without a text in between. A value in memory recalls something when
it is read as that, however deep it stands; a record is recalled by an object with a value for each
of its fields, in whatever order the fields are kept.
-/

namespace PortGraph

namespace Source

theorem ofItems_eq_map (items : List Json) : ofItems items = items.map ofJson := by
  induction items with
  | nil => rfl
  | cons v rest ih => rw [ofItems, ih, List.map_cons]

mutual

theorem numbers_ofJson : ∀ v : Json, (ofJson v).numbers = v.numbers
  | .null | .bool _ | .number _ | .string _ => rfl
  | .array items => itemNumbers_ofItems items
  | .object fields => fieldNumbers_ofFields fields

theorem itemNumbers_ofItems : ∀ items : List Json,
    itemNumbers (ofItems items) = Json.itemNumbers items
  | [] => rfl
  | v :: rest => by
      rw [ofItems, itemNumbers, numbers_ofJson v, itemNumbers_ofItems rest, Json.itemNumbers]

theorem fieldNumbers_ofFields : ∀ fields : List (String × Json),
    fieldNumbers (ofFields fields) = Json.fieldNumbers fields
  | [] => rfl
  | (k, v) :: rest => by
      rw [ofFields, fieldNumbers, numbers_ofJson v, fieldNumbers_ofFields rest, Json.fieldNumbers]

end

end Source

namespace Json

/-- The objects of the value are in key order, and its integers are those of a 64-bit word or some
of the given numbers. -/
structure Drawn (ns : List Number) (v : Json) : Prop where
  tabled : v.Tabled
  integers : ∀ i : ℤ, .integer i ∈ v.numbers → Number.InRange i ∨ .integer i ∈ ns

variable {ns : List Number}

theorem Drawn.regular {v : Json} (h : Drawn ns v) (hns : Number.Ranged ns) : v.Regular :=
  ⟨h.tabled, fun i hi => (h.integers i hi).elim id (hns i)⟩

theorem drawn_leaf {v : Json} (htabled : v.Tabled) (hnumbers : v.numbers = []) : Drawn ns v :=
  ⟨htabled, fun i hi => by simp [hnumbers] at hi⟩

theorem drawn_array {items : List Json} (h : ∀ v ∈ items, Drawn ns v) :
    Drawn ns (array items) where
  tabled := tabledItems_iff.mpr fun v hv => (h v hv).tabled
  integers i hi := by
    obtain ⟨v, hv, hi⟩ := mem_itemNumbers.mp hi
    exact (h v hv).integers i hi

theorem drawn_record {entries : List (String × Json)} (h : ∀ e ∈ entries, Drawn ns e.2) :
    Drawn ns (record entries) where
  tabled := ⟨Table.ordered_ofEntries entries, tabledFields_iff.mpr fun e he =>
    (h e (Table.mem_of_mem_ofEntries he)).tabled⟩
  integers i hi := by
    obtain ⟨e, he, hi⟩ := mem_fieldNumbers.mp hi
    exact (h e (Table.mem_of_mem_ofEntries he)).integers i hi

end Json

namespace Reader

variable {α : Type} {ns : List Number}

/-! ### Values -/

/-- The value, drawn from the given numbers and held in memory, is read as `a`. -/
structure Recalls (ns : List Number) (read : Reader α) (v : Json) (a : α) : Prop where
  back : ∀ depth, read ⟨.value, depth⟩ (Source.ofJson v) = .ok a
  drawn : v.Drawn ns

mutual

theorem any_ofJson : ∀ {v : Json} (depth : ℕ), v.Tabled →
    any ⟨.value, depth⟩ (Source.ofJson v) = .ok v
  | .null, _, _ | .bool _, _, _ | .number _, _, _ | .string _, _, _ => rfl
  | .array items, depth, h => by
      rw [Source.ofJson, any, Reading.enter, if_neg (by simp), ok_bind,
        anyItems_ofJson (depth + 1) h]
      rfl
  | .object fields, depth, h => by
      have hordered : ([] ++ fields).Pairwise (fun a b : String × Json => a.1 < b.1) := h.1
      rw [Source.ofJson, any, Reading.enter, if_neg (by simp), ok_bind,
        anyFields_ofJson (depth + 1) hordered h.2]
      rfl

theorem anyItems_ofJson : ∀ {items : List Json} (depth : ℕ), Json.TabledItems items →
    anyItems ⟨.value, depth⟩ (Source.ofItems items) = .ok items
  | [], _, _ => rfl
  | v :: rest, depth, h => by
      rw [Source.ofItems, anyItems, any_ofJson depth h.1, ok_bind, anyItems_ofJson depth h.2]
      rfl

theorem anyFields_ofJson : ∀ {read fields : List (String × Json)} (depth : ℕ),
    (read ++ fields).Pairwise (fun a b => a.1 < b.1) → Json.TabledFields fields →
      anyFields ⟨.value, depth⟩ read (Source.ofFields fields) = .ok (read ++ fields)
  | read, [], _, _, _ => by rw [List.append_nil]; rfl
  | read, (k, v) :: rest, depth, hordered, h => by
      -- the key is greater than all that were read, so its field is put last
      have hlast : ∀ e ∈ read, e.1 < k := fun e he =>
        (List.pairwise_append.mp hordered).2.2 e he (k, v) (by simp)
      rw [Source.ofFields, anyFields, any_ofJson depth h.1, ok_bind,
        Table.insert_of_forall_lt hlast, anyFields_ofJson depth (by simpa using hordered) h.2]
      simp

end

theorem recalls_any {v : Json} (h : v.Drawn ns) : Recalls ns any v v :=
  ⟨fun depth => any_ofJson depth h.tabled, h⟩

theorem recalls_text (s : String) : Recalls ns text (.string s) s :=
  ⟨fun _ => rfl, Json.drawn_leaf trivial rfl⟩

theorem recalls_bool (b : Bool) : Recalls ns bool (.bool b) b :=
  ⟨fun _ => rfl, Json.drawn_leaf trivial rfl⟩

theorem recalls_double (x : Binary64) : Recalls ns double (.number (.double x)) x :=
  ⟨fun _ => rfl, trivial, fun i hi => by simp [Json.numbers] at hi⟩

theorem recalls_natural {bits n : ℕ} (kind : String) (h : n < Nat.pow 2 bits) (hbits : bits ≤ 64) :
    Recalls ns (natural bits kind) (.ofNat n) n where
  back depth := by
    have hrange : (0 : ℤ) ≤ n ∧ (n : ℤ) < Nat.pow 2 bits := ⟨by omega, by exact_mod_cast h⟩
    rw [Json.ofNat, Source.ofJson, natural, if_pos hrange, Int.toNat_natCast]
  drawn := by
    refine ⟨trivial, fun i hi => Or.inl ?_⟩
    have hpow : Nat.pow 2 bits ≤ Nat.pow 2 64 := Nat.pow_le_pow_right (by decide) hbits
    obtain rfl : i = n := by simpa [Json.ofNat, Json.numbers] using hi
    exact ⟨by omega, by exact_mod_cast h.trans_le hpow⟩

theorem recalls_texts (ss : List String) : Recalls ns (list text) (.ofTexts ss) ss where
  back depth := by
    have hitems : Source.ofItems (ss.map .string) = ss.map fun s => .string (some s) := by
      rw [Source.ofItems_eq_map, List.map_map]
      rfl
    rw [Json.ofTexts, Source.ofJson, hitems, list, Reading.enter, if_neg (by simp), ok_bind,
      listItems_map]
    exact fun _ _ => rfl
  drawn := Json.drawn_array fun v hv => by
    obtain ⟨s, -, rfl⟩ := List.mem_map.mp hv
    exact Json.drawn_leaf trivial rfl

theorem recalls_null (read : Reader α) : Recalls ns (optional read) .null none :=
  ⟨fun _ => rfl, Json.drawn_leaf trivial rfl⟩

theorem Recalls.some {read : Reader α} {v : Json} {a : α} (h : Recalls ns read v a)
    (hv : v.isNull = false) : Recalls ns (optional read) v (some a) where
  back depth := by
    have hback := h.back depth
    cases v with
    | null => simp [Json.isNull] at hv
    | bool _ | number _ | string _ | array _ | object _ =>
      simp only [Source.ofJson, optional] at hback ⊢
      rw [hback]
      rfl
  drawn := h.drawn

/-- What is absent is written as null, so it must not be what a value is written as. -/
theorem recalls_optional {read : Reader α} {write : α → Json} (o : Option α)
    (h : ∀ a, Recalls ns read (write a) a) (hwrite : ∀ a, (write a).isNull = false) :
    Recalls ns (optional read) (.ofOption (o.map write)) o := by
  cases o with
  | none => exact recalls_null read
  | some a => exact (h a).some (hwrite a)

end Reader

namespace Record

variable {α β : Type} {ns : List Number}

/-! ### Records -/

/-- The field is in the object, and what stands there is read. -/
def Fits (f : Field) (e : String × Json) : Prop :=
  f.name = e.1 ∧ ∀ depth, f.check ⟨.value, depth⟩ (Source.ofJson e.2) = .ok ()

/-- The entries, one for each field, make the record `a`. -/
structure Recalls (ns : List Number) (rec : Record α) (entries : List (String × Json)) (a : α) :
    Prop where
  fits : List.Forall₂ Fits rec.fields entries
  build : ∀ depth get, (∀ e ∈ entries, get e.1 = some (Source.ofJson e.2)) →
    rec.build ⟨.value, depth⟩ get = .ok a
  drawn : ∀ e ∈ entries, e.2.Drawn ns

theorem recalls_fieldOr (name : String) {read : Reader α} (default : α) {v : Json} {a : α}
    (h : Reader.Recalls ns read v a) : Recalls ns (fieldOr name read default) [(name, v)] a where
  fits := .cons ⟨rfl, fun depth => checkWith_eq_ok.mpr ⟨a, h.back depth⟩⟩ .nil
  build depth get hget :=
    build_fieldOr.mpr (Or.inr ⟨_, hget (name, v) (by simp), h.back depth⟩)
  drawn := by simpa using h.drawn

theorem Recalls.map {rec : Record α} {entries : List (String × Json)} {a : α}
    (h : Recalls ns rec entries a) (f : α → β) : Recalls ns (f <$> rec) entries (f a) where
  fits := h.fits
  build depth get hget := build_map.mpr ⟨a, h.build depth get hget, rfl⟩
  drawn := h.drawn

theorem Recalls.seq {f : Record (α → β)} {rec : Record α} {entries entries' : List (String × Json)}
    {g : α → β} {a : α} (h : Recalls ns f entries g) (h' : Recalls ns rec entries' a) :
    Recalls ns (f <*> rec) (entries ++ entries') (g a) where
  fits := List.rel_append h.fits h'.fits
  build depth get hget := build_seq.mpr ⟨g, a,
    h.build depth get fun e he => hget e (List.mem_append_left _ he),
    h'.build depth get fun e he => hget e (List.mem_append_right _ he), rfl⟩
  drawn e he := (List.mem_append.mp he).elim (h.drawn e) (h'.drawn e)

theorem find?_of_fits {known : List Field} {entries : List (String × Json)}
    (h : List.Forall₂ Fits known entries) (hnodup : (entries.map (·.1)).Nodup)
    {e : String × Json} (he : e ∈ entries) :
    ∃ f, known.find? (fun f => f.name == e.1) = some f ∧ Fits f e := by
  induction h with
  | nil => exact absurd he List.not_mem_nil
  | @cons f e' known entries hfit _ ih =>
    obtain ⟨hnot, hrest⟩ := List.nodup_cons.mp hnodup
    rcases List.mem_cons.mp he with rfl | he
    · exact ⟨f, by simp [hfit.1], hfit⟩
    · have hne : e'.1 ≠ e.1 := fun heq => hnot (List.mem_map.mpr ⟨e, he, heq.symm⟩)
      obtain ⟨g, hg, hfits⟩ := ih hrest he
      exact ⟨g, by simp [hfit.1, hne, hg], hfits⟩

theorem checkFields_of_fits {known : List Field} {depth : ℕ} {fields : List (String × Json)}
    (h : ∀ e ∈ fields, ∃ f, known.find? (fun f => f.name == e.1) = some f ∧ Fits f e)
    (hnodup : (fields.map (·.1)).Nodup) {seen : List String}
    (hseen : ∀ e ∈ fields, e.1 ∉ seen) :
    checkFields known ⟨.value, depth⟩ seen (Source.ofFields fields) = .ok () := by
  induction fields generalizing seen with
  | nil => rfl
  | cons e rest ih =>
    obtain ⟨hnot, hrest⟩ := List.nodup_cons.mp hnodup
    obtain ⟨f, hf, hfits⟩ := h e (by simp)
    have hfresh : seen.contains e.1 = false := by simpa using hseen e (by simp)
    rw [Source.ofFields, checkFields, hf]
    simp only [hfresh, Bool.false_eq_true, if_false, hfits.2, ok_bind]
    refine ih (fun e' he' => h e' (by simp [he'])) hrest fun e' he' => ?_
    rw [List.mem_cons, not_or]
    exact ⟨fun heq => hnot (List.mem_map.mpr ⟨e', he', heq⟩), hseen e' (by simp [he'])⟩

theorem lookup_ofFields (t : Table Json) (name : String) :
    lookup (Source.ofFields t) name = (t.find? name).map Source.ofJson := by
  induction t with
  | nil => rfl
  | cons e rest ih =>
    obtain ⟨k, v⟩ := e
    unfold lookup at ih ⊢
    rw [Source.ofFields, Table.find?_cons, List.find?_cons]
    by_cases h : k = name
    · simp [h]
    · have hne : (some k == some name) = false := by simpa using h
      rw [hne, if_neg h, ih]

/-- A record is read from an object with its entries. -/
theorem Recalls.reader {rec : Record α} {entries : List (String × Json)} {a : α}
    (h : Recalls ns rec entries a) (hnodup : (entries.map (·.1)).Nodup) (label : String) :
    Reader.Recalls ns (Record.reader label rec) (.record entries) a where
  back depth := by
    have hcheck : checkFields rec.fields ⟨.value, depth + 1⟩ []
        (Source.ofFields (Table.ofEntries entries)) = .ok () :=
      checkFields_of_fits
        (fun e he => find?_of_fits h.fits hnodup (Table.mem_of_mem_ofEntries he))
        (Table.ordered_ofEntries entries).nodup (by simp)
    have hbuild : rec.build ⟨.value, depth + 1⟩
        (lookup (Source.ofFields (Table.ofEntries entries))) = .ok a := by
      refine h.build _ _ fun e he => ?_
      rw [lookup_ofFields, Table.find?_ofEntries entries hnodup, Table.find?_of_mem hnodup he,
        Option.map_some]
    rw [Json.record, Source.ofJson, Record.reader, Reading.enter, if_neg (by simp), ok_bind,
      ofFields, hcheck, ok_bind, hbuild]
  drawn := Json.drawn_record h.drawn

end Record

end PortGraph
