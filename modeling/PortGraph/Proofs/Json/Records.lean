import PortGraph.Proofs.Json.Reading
import PortGraph.Wire.Record

/-!
Records and lists as they are read. Whatever form a record has in the document, it is built from
parts of it, one level deeper; so is each element of a list.
-/

namespace PortGraph

namespace Source

theorem numbers_of_mem_items {items : List Source} {v : Source} (h : v ∈ items) :
    v.numbers ⊆ itemNumbers items := by
  induction h with
  | head rest => exact List.subset_append_left _ _
  | tail w _ ih => exact List.Subset.trans ih (List.subset_append_right _ _)

theorem numbers_of_mem_fields {fields : List (Option String × Source)} {f : Option String × Source}
    (h : f ∈ fields) : f.2.numbers ⊆ fieldNumbers fields := by
  induction h with
  | head rest => exact List.subset_append_left _ _
  | tail w _ ih => exact List.Subset.trans ih (List.subset_append_right _ _)

end Source

namespace Record

variable {α β : Type} {r : Reading} {get : String → Option Source}

@[simp] theorem build_map {f : α → β} {rec : Record α} {b : β} :
    (f <$> rec).build r get = .ok b ↔ ∃ a, rec.build r get = .ok a ∧ f a = b := by
  change (rec.build r get >>= fun a => .ok (f a)) = .ok b ↔ _
  simp only [bind_eq_ok, Except.ok.injEq]

@[simp] theorem build_seq {f : Record (α → β)} {rec : Record α} {b : β} :
    (f <*> rec).build r get = .ok b ↔
      ∃ g a, f.build r get = .ok g ∧ rec.build r get = .ok a ∧ g a = b := by
  change (f.build r get >>= fun g => rec.build r get >>= fun a => .ok (g a)) = .ok b ↔ _
  simp only [bind_eq_ok, Except.ok.injEq]
  grind

@[simp] theorem build_field {name : String} {read : Reader α} {a : α} :
    (field name read).build r get = .ok a ↔ ∃ s, get name = some s ∧ read r s = .ok a := by
  cases hget : get name <;> simp [field, hget]

@[simp] theorem build_fieldOr {name : String} {read : Reader α} {a default : α} :
    (fieldOr name read default).build r get = .ok a ↔
      (get name = none ∧ default = a) ∨ ∃ s, get name = some s ∧ read r s = .ok a := by
  cases hget : get name <;> simp [fieldOr, hget]

theorem mem_of_lookup {fields : List (Option String × Source)} {name : String} {v : Source}
    (h : lookup fields name = some v) : (some name, v) ∈ fields := by
  obtain ⟨f, hf, rfl⟩ := Option.map_eq_some_iff.mp h
  have hname : f.1 = some name := by simpa using List.find?_some hf
  rw [← hname]
  exact List.mem_of_find?_eq_some hf

/-- A record that was read is built from parts of what it was read from. -/
theorem build_of_reader {label : String} {rec : Record α} {s : Source} {a : α}
    (h : Record.reader label rec r s = .ok a) :
    ∃ r' get, r.enter = .ok r' ∧ rec.build r' get = .ok a ∧
      ∀ name v, get name = some v → v.numbers ⊆ s.numbers := by
  cases s with
  | object fields =>
    obtain ⟨r', henter, h⟩ := ok_of_bind h
    obtain ⟨-, -, h⟩ := ok_of_bind h
    exact ⟨r', _, henter, h, fun name v hv => Source.numbers_of_mem_fields (mem_of_lookup hv)⟩
  | array items =>
    obtain ⟨r', henter, h⟩ := ok_of_bind h
    obtain ⟨-, -, h⟩ := ok_of_bind h
    refine ⟨r', _, henter, h, fun name v hv => ?_⟩
    exact Source.numbers_of_mem_items (List.of_mem_zip (mem_of_lookup hv)).2
  | null | bool _ | number _ | string _ | broken => exact absurd h Reader.unfit_ne_ok

/-- A mapped record yields only values mapped from what the record was built as. -/
theorem map_of_reader {label : String} {f : α → β} {rec : Record α} {s : Source} {b : β}
    (h : Record.reader label (f <$> rec) r s = .ok b) :
    ∃ a, b = f a ∧ ∃ r' get, rec.build r' get = .ok a ∧
      ∀ name v, get name = some v → v.numbers ⊆ s.numbers := by
  obtain ⟨r', get, -, h, hparts⟩ := build_of_reader h
  obtain ⟨a, ha, rfl⟩ := build_map.mp h
  exact ⟨a, rfl, r', get, ha, hparts⟩

/-! ### Fields of a written record -/

@[simp] theorem fields_map (f : α → β) (rec : Record α) : (f <$> rec).fields = rec.fields := rfl

@[simp] theorem fields_seq (f : Record (α → β)) (rec : Record α) :
    (f <*> rec).fields = f.fields ++ rec.fields := rfl

@[simp] theorem fields_field (name : String) (read : Reader α) :
    (field name read).fields = [⟨name, checkWith read, false⟩] := rfl

@[simp] theorem fields_fieldOr (name : String) (read : Reader α) (default : α) :
    (fieldOr name read default).fields = [⟨name, checkWith read, true⟩] := rfl

@[simp] theorem checkWith_eq_ok {read : Reader α} {s : Source} {u : Unit} :
    checkWith read r s = .ok u ↔ ∃ a, read r s = .ok a := by
  unfold checkWith
  cases read r s <;> simp [Functor.map, Except.map]

theorem reader_object {label : String} {rec : Record α} {fields : List (Option String × Source)}
    {a : α} (h : r.depth < depthLimit) :
    reader label rec r (.object fields) = .ok a ↔
      checkFields rec.fields ⟨r.origin, r.depth + 1⟩ [] fields = .ok () ∧
        rec.build ⟨r.origin, r.depth + 1⟩ (lookup fields) = .ok a := by
  simp only [reader, Reading.enter_eq_ok h, ok_bind, ofFields, check_bind_eq_ok]

end Record

namespace Reader

variable {α : Type} {read : Reader α} {r : Reading}

theorem mem_of_listItems {items : List Source} {as : List α} (h : listItems read r items = .ok as) :
    ∀ a ∈ as, ∃ v ∈ items, read r v = .ok a := by
  induction items generalizing as with
  | nil =>
    obtain rfl := Except.ok.inj h
    simp
  | cons s rest ih =>
    obtain ⟨a, ha, h⟩ := ok_of_bind h
    obtain ⟨as, has, h⟩ := ok_of_bind h
    obtain rfl := Except.ok.inj h
    refine List.forall_mem_cons.mpr ⟨⟨s, by simp, ha⟩, fun b hb => ?_⟩
    obtain ⟨v, hv, hread⟩ := ih has b hb
    exact ⟨v, List.mem_cons_of_mem _ hv, hread⟩

/-- A list comes back just when its elements do. -/
theorem listItems_map {write : α → Source} {as : List α} :
    listItems read r (as.map write) = .ok as ↔ ∀ a ∈ as, read r (write a) = .ok a := by
  induction as with
  | nil => simp [listItems]
  | cons a rest ih =>
    rw [List.forall_mem_cons, ← ih]
    simp [listItems, bind_eq_ok, pure, Except.pure]

theorem of_list {s : Source} {as : List α} (h : list read r s = .ok as) :
    ∃ r', r.enter = .ok r' ∧ ∀ a ∈ as, ∃ v, v.numbers ⊆ s.numbers ∧ read r' v = .ok a := by
  cases s with
  | array items =>
    obtain ⟨r', henter, h⟩ := ok_of_bind h
    refine ⟨r', henter, fun a ha => ?_⟩
    obtain ⟨v, hv, hread⟩ := mem_of_listItems h a ha
    exact ⟨v, Source.numbers_of_mem_items hv, hread⟩
  | null | bool _ | number _ | string _ | object _ | broken => exact absurd h unfit_ne_ok

end Reader

end PortGraph
