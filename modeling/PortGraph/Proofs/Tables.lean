import Mathlib.Data.List.Basic
import Mathlib.Data.List.Perm.Basic
import Mathlib.Data.List.Sort
import Mathlib.Data.String.Basic
import PortGraph.Table

/-!
Reading tables and sorted lists after they have been changed. Every later statement about the runs
of a scope goes through `find?`; nobody opens `insert` or `modify` again.
-/

namespace PortGraph

/-- Lists that ascend in the first components of the same pairs. -/
theorem eq_of_pairwise_lt {κ α : Type} [Preorder κ] {l l' : List (κ × α)}
    (h : l.Pairwise fun a b => a.1 < b.1) (h' : l'.Pairwise fun a b => a.1 < b.1)
    (hmem : ∀ a, a ∈ l ↔ a ∈ l') : l = l' := by
  have hirrefl : Std.Irrefl fun a b : κ × α => a.1 < b.1 := ⟨fun a => lt_irrefl a.1⟩
  have hantisymm : Std.Antisymm fun a b : κ × α => a.1 < b.1 :=
    ⟨fun _ _ hab hba => absurd hba hab.not_gt⟩
  exact h.eq_of_mem_iff h' hmem

namespace Table

variable {α β : Type}

@[simp] theorem find?_nil (key : String) : Table.find? ([] : Table α) key = none := rfl

theorem find?_cons (k key : String) (v : α) (t : Table α) :
    Table.find? ((k, v) :: t) key = if k = key then some v else t.find? key := rfl

theorem find?_insert (t : Table α) (key k : String) (value : α) :
    (t.insert key value).find? k = if key = k then some value else t.find? k := by
  induction t with
  | nil => simp [insert, find?]
  | cons e rest ih =>
    obtain ⟨k', v⟩ := e
    unfold insert
    by_cases hlt : key < k'
    · simp [hlt, find?_cons]
    · by_cases heq : key = k'
      · subst heq
        by_cases hk : key = k <;> simp [find?_cons, hk]
      · simp only [hlt, heq, if_false, find?_cons, ih]
        by_cases hk : k' = k
        · subst hk
          simp [heq]
        · simp [hk]

theorem modify_cons (k key : String) (v : α) (t : Table α) (f : α → α) :
    modify ((k, v) :: t) key f = (k, if k = key then f v else v) :: t.modify key f := by
  by_cases h : k = key <;> simp [modify, h]

theorem erase_cons (k key : String) (v : α) (t : Table α) :
    erase ((k, v) :: t) key = if k = key then t.erase key else (k, v) :: t.erase key := by
  by_cases h : k = key <;> simp [erase, h]

theorem find?_modify (t : Table α) (key k : String) (f : α → α) :
    (t.modify key f).find? k = if key = k then (t.find? k).map f else t.find? k := by
  induction t with
  | nil => simp [modify, find?]
  | cons e rest ih =>
    obtain ⟨k', v⟩ := e
    simp only [modify_cons, find?_cons, ih]
    by_cases hk : k' = k
    · subst hk
      by_cases hkey : key = k' <;> simp [hkey, Ne.symm]
    · simp [hk]

theorem find?_erase (t : Table α) (key k : String) :
    (t.erase key).find? k = if key = k then none else t.find? k := by
  induction t with
  | nil => simp [erase, find?]
  | cons e rest ih =>
    obtain ⟨k', v⟩ := e
    rw [erase_cons]
    by_cases hkey : k' = key
    · rw [if_pos hkey, ih, find?_cons, hkey]
      by_cases hk : key = k <;> simp [hk]
    · simp only [hkey, if_false, find?_cons, ih]
      by_cases hk : k' = k
      · subst hk
        simp [Ne.symm hkey]
      · simp [hk]

theorem find?_eq_none_iff (t : Table α) (k : String) : t.find? k = none ↔ k ∉ t.keys := by
  induction t with
  | nil => simp [keys]
  | cons e rest ih =>
    obtain ⟨k', v⟩ := e
    by_cases hk : k' = k
    · simp [find?_cons, keys, hk]
    · have hk' : k ≠ k' := fun h => hk h.symm
      simpa [find?_cons, keys, hk, hk'] using ih

theorem isSome_find?_iff (t : Table α) (k : String) : (t.find? k).isSome ↔ k ∈ t.keys := by
  rw [← not_iff_not, Option.not_isSome_iff_eq_none, find?_eq_none_iff]

theorem mem_of_find? {t : Table α} {k : String} {v : α} (h : t.find? k = some v) :
    (k, v) ∈ t := by
  induction t with
  | nil => simp at h
  | cons e rest ih =>
    obtain ⟨k', v'⟩ := e
    by_cases hk : k' = k
    · have hv : v' = v := by simpa [find?_cons, hk] using h
      simp [hk, hv]
    · exact List.mem_cons_of_mem _ (ih (by simpa [find?_cons, hk] using h))

theorem find?_of_mem {t : Table α} (ht : t.keys.Nodup) {k : String} {v : α} (h : (k, v) ∈ t) :
    t.find? k = some v := by
  induction t with
  | nil => simp at h
  | cons e rest ih =>
    obtain ⟨k', v'⟩ := e
    have hnd : k' ∉ rest.map (·.1) ∧ (rest.map (·.1)).Nodup := by simpa [keys] using ht
    rcases List.mem_cons.mp h with heq | hrest
    · simp [find?_cons, Prod.mk.inj heq]
    · have hne : k' ≠ k := by
        rintro rfl
        exact hnd.1 (List.mem_map.mpr ⟨(k', v), hrest, rfl⟩)
      simpa [find?_cons, hne] using ih hnd.2 hrest

theorem mem_keys_insert (t : Table α) (key k : String) (value : α) :
    k ∈ (t.insert key value).keys ↔ k = key ∨ k ∈ t.keys := by
  rw [← isSome_find?_iff, ← isSome_find?_iff, find?_insert]
  by_cases h : key = k
  · simp [h]
  · have h' : k ≠ key := fun h' => h h'.symm
    simp [h, h']

theorem Ordered.nodup {t : Table α} (h : t.Ordered) : t.keys.Nodup :=
  List.pairwise_map.mpr (h.imp fun hlt => ne_of_lt hlt)

theorem ordered_insert {t : Table α} (h : t.Ordered) (key : String) (value : α) :
    (t.insert key value).Ordered := by
  induction t with
  | nil => simp [Ordered, insert]
  | cons e rest ih =>
    obtain ⟨k', v⟩ := e
    have hrest : Ordered rest := (List.pairwise_cons.mp h).2
    have hhead : ∀ a ∈ rest, k' < a.1 := (List.pairwise_cons.mp h).1
    unfold insert
    by_cases hlt : key < k'
    · simp only [hlt, if_true]
      refine List.pairwise_cons.mpr ⟨?_, h⟩
      intro a ha
      rcases List.mem_cons.mp ha with rfl | ha
      · exact hlt
      · exact lt_trans hlt (hhead a ha)
    · by_cases heq : key = k'
      · subst heq
        simp only [lt_irrefl, if_true, if_false]
        exact List.pairwise_cons.mpr ⟨hhead, hrest⟩
      · simp only [hlt, heq, if_false]
        refine List.pairwise_cons.mpr ⟨?_, ih hrest⟩
        intro a ha
        have hkey : a.1 ∈ (insert rest key value).keys := List.mem_map.mpr ⟨a, ha, rfl⟩
        rcases (mem_keys_insert rest key a.1 value).mp hkey with hk | hk
        · rw [hk]
          exact lt_of_le_of_ne (not_lt.mp hlt) (Ne.symm heq)
        · obtain ⟨b, hb, hba⟩ := List.mem_map.mp hk
          rw [← hba]
          exact hhead b hb

/-- A key after all others goes to the end. -/
theorem insert_of_forall_lt {t : Table α} {key : String} (h : ∀ e ∈ t, e.1 < key) (value : α) :
    t.insert key value = t ++ [(key, value)] := by
  induction t with
  | nil => rfl
  | cons e rest ih =>
    obtain ⟨k, v⟩ := e
    have hlt : k < key := h (k, v) (by simp)
    rw [insert, if_neg hlt.not_gt, if_neg hlt.ne', ih fun e he => h e (List.mem_cons_of_mem _ he)]
    rfl

theorem mem_insert {t : Table α} {key : String} {value : α} {e : String × α}
    (h : e ∈ t.insert key value) : e = (key, value) ∨ e ∈ t := by
  induction t with
  | nil => exact Or.inl (by simpa [insert] using h)
  | cons e' rest ih =>
    unfold insert at h
    split_ifs at h
    · exact List.mem_cons.mp h
    · exact (List.mem_cons.mp h).imp_right (List.mem_cons_of_mem _)
    · rcases List.mem_cons.mp h with rfl | h
      · exact Or.inr (by simp)
      · exact (ih h).imp_right (List.mem_cons_of_mem _)

theorem ordered_modify {t : Table α} (h : t.Ordered) (key : String) (f : α → α) :
    (t.modify key f).Ordered := by
  refine List.pairwise_map.mpr (h.imp ?_)
  intro a b hab
  by_cases ha : a.1 = key <;> by_cases hb : b.1 = key <;> simp_all

theorem ordered_erase {t : Table α} (h : t.Ordered) (key : String) : (t.erase key).Ordered :=
  h.sublist List.filter_sublist

theorem count_keys {t : Table α} (h : t.Ordered) (k : String) :
    t.keys.count k = if (t.find? k).isSome then 1 else 0 := by
  rw [h.nodup.count]
  simp only [isSome_find?_iff]

theorem ordered_foldl_insert (es : List (String × α)) {t : Table α} (h : t.Ordered) :
    (es.foldl (fun t e => insert t e.1 e.2) t).Ordered := by
  induction es generalizing t with
  | nil => exact h
  | cons e rest ih => exact ih (ordered_insert h e.1 e.2)

theorem ordered_ofEntries (es : List (String × α)) : (ofEntries es).Ordered :=
  ordered_foldl_insert es List.Pairwise.nil

theorem insert_map_snd (t : Table α) (key : String) (value : α) (f : α → β) :
    Table.insert (t.map fun e => (e.1, f e.2)) key (f value) =
      (t.insert key value).map fun e => (e.1, f e.2) := by
  induction t with
  | nil => rfl
  | cons e rest ih =>
    obtain ⟨k, v⟩ := e
    simp only [List.map_cons, insert]
    split_ifs
    · rfl
    · rfl
    · rw [ih]
      rfl

theorem ofEntries_map_snd (es : List (String × α)) (f : α → β) :
    ofEntries (es.map fun e => (e.1, f e.2)) = (ofEntries es).map fun e => (e.1, f e.2) := by
  have hfold : ∀ t : Table α,
      (es.map fun e => (e.1, f e.2)).foldl (fun t e => insert t e.1 e.2)
          (t.map fun e => (e.1, f e.2)) =
        (es.foldl (fun t e => insert t e.1 e.2) t).map fun e => (e.1, f e.2) := by
    induction es with
    | nil => intro t; rfl
    | cons e rest ih =>
      intro t
      rw [List.map_cons, List.foldl_cons, List.foldl_cons, insert_map_snd, ih]
  exact hfold []

/-- A table is what its entries make. -/
theorem ofEntries_of_ordered {t : Table α} (h : t.Ordered) : ofEntries t = t := by
  have hfold : ∀ done rest : Table α, (done ++ rest).Ordered →
      rest.foldl (fun t e => insert t e.1 e.2) done = done ++ rest := by
    intro done rest
    induction rest generalizing done with
    | nil => intro _; simp
    | cons e rest ih =>
      intro hordered
      have hlast : ∀ a ∈ done, a.1 < e.1 := fun a ha =>
        (List.pairwise_append.mp hordered).2.2 a ha e (by simp)
      rw [List.foldl_cons, insert_of_forall_lt hlast, ih _ (by simpa using hordered)]
      simp
  exact hfold [] t h

theorem mem_of_mem_ofEntries {es : List (String × α)} {e : String × α} (h : e ∈ ofEntries es) :
    e ∈ es := by
  have hfold : ∀ t : Table α, e ∈ es.foldl (fun t e => insert t e.1 e.2) t → e ∈ es ∨ e ∈ t := by
    clear h
    induction es with
    | nil => exact fun t h => Or.inr h
    | cons a rest ih =>
      intro t h
      rcases ih _ h with h | h
      · exact Or.inl (List.mem_cons_of_mem _ h)
      · rcases mem_insert h with rfl | h
        · exact Or.inl (by simp)
        · exact Or.inr h
  exact (hfold [] h).resolve_right List.not_mem_nil

/-! ### The last entry under a key -/

/-- The value of the last entry under a key. A table has no other entry under it. -/
def Last (es : List (String × α)) (key : String) (v : α) : Prop :=
  ∃ before after, es = before ++ (key, v) :: after ∧ key ∉ keys after

theorem not_last_nil {key : String} {v : α} : ¬ Last [] key v := by
  rintro ⟨before, after, h, -⟩
  simp at h

theorem last_cons {e : String × α} {es : List (String × α)} {key : String} {v : α} :
    Last (e :: es) key v ↔ Last es key v ∨ key ∉ keys es ∧ e = (key, v) := by
  constructor
  · rintro ⟨before, after, h, hafter⟩
    cases before with
    | nil =>
      obtain ⟨rfl, rfl⟩ := List.cons.inj h
      exact Or.inr ⟨hafter, rfl⟩
    | cons b before => exact Or.inl ⟨before, after, (List.cons.inj h).2, hafter⟩
  · rintro (⟨before, after, rfl, hafter⟩ | ⟨hes, rfl⟩)
    · exact ⟨e :: before, after, rfl, hafter⟩
    · exact ⟨[], es, rfl, hes⟩

theorem last_iff_find? {t : Table α} (ht : t.keys.Nodup) {key : String} {v : α} :
    Last t key v ↔ t.find? key = some v := by
  constructor
  · rintro ⟨before, after, rfl, -⟩
    exact find?_of_mem ht (by simp)
  · intro h
    obtain ⟨before, after, rfl⟩ := List.append_of_mem (mem_of_find? h)
    refine ⟨before, after, rfl, ?_⟩
    have hnd : (keys before ++ key :: keys after).Nodup := by simpa [keys] using ht
    exact (List.nodup_cons.mp (List.nodup_append.mp hnd).2.1).1

theorem find?_foldl_insert {es : List (String × α)} {t : Table α} {key : String} {v : α} :
    (es.foldl (fun t e => insert t e.1 e.2) t).find? key = some v ↔
      Last es key v ∨ key ∉ keys es ∧ t.find? key = some v := by
  induction es generalizing t with
  | nil => simp [not_last_nil, keys]
  | cons e rest ih =>
    obtain ⟨k, w⟩ := e
    rw [List.foldl_cons, ih, find?_insert, last_cons]
    by_cases hk : k = key
    · simp [hk, keys]
    · simp [hk, Ne.symm hk, keys]

theorem find?_ofEntries_eq_some {es : List (String × α)} {key : String} {v : α} :
    (ofEntries es).find? key = some v ↔ Last es key v := by
  rw [ofEntries, find?_foldl_insert]
  simp

/-- Entries with distinct keys are found where they were put. -/
theorem find?_ofEntries (es : List (String × α)) (h : (es.map (·.1)).Nodup) (k : String) :
    (ofEntries es).find? k = find? es k :=
  Option.ext fun _ => find?_ofEntries_eq_some.trans (last_iff_find? h)

/-- Two tables in which the same is found are one. -/
theorem Ordered.ext {t u : Table α} (ht : t.Ordered) (hu : u.Ordered)
    (h : ∀ key, t.find? key = u.find? key) : t = u := by
  have hsub : ∀ {t u : Table α}, t.Ordered → (∀ key, t.find? key = u.find? key) → t ⊆ u :=
    fun ht h e he => mem_of_find? ((h e.1).symm.trans (find?_of_mem ht.nodup he))
  exact eq_of_pairwise_lt ht hu fun _ =>
    ⟨fun he => hsub ht h he, fun he => hsub hu (fun key => (h key).symm) he⟩

end Table

theorem mem_insertSorted (ts : List String) (s t : String) :
    t ∈ insertSorted ts s ↔ t = s ∨ t ∈ ts := by
  induction ts with
  | nil => simp [insertSorted]
  | cons a rest ih =>
    unfold insertSorted
    by_cases hlt : s < a
    · simp [hlt]
    · by_cases heq : s = a
      · simp [heq]
      · simp only [hlt, heq, if_false, List.mem_cons, ih]
        tauto

theorem pairwise_insertSorted {ts : List String} (h : ts.Pairwise (· < ·)) (s : String) :
    (insertSorted ts s).Pairwise (· < ·) := by
  induction ts with
  | nil => simp [insertSorted]
  | cons a rest ih =>
    have hrest := (List.pairwise_cons.mp h).2
    have hhead := (List.pairwise_cons.mp h).1
    unfold insertSorted
    by_cases hlt : s < a
    · simp only [hlt, if_true]
      refine List.pairwise_cons.mpr ⟨?_, h⟩
      intro b hb
      rcases List.mem_cons.mp hb with rfl | hb
      · exact hlt
      · exact lt_trans hlt (hhead b hb)
    · by_cases heq : s = a
      · simpa [heq] using h
      · simp only [hlt, heq, if_false]
        refine List.pairwise_cons.mpr ⟨?_, ih hrest⟩
        intro b hb
        rcases (mem_insertSorted rest s b).mp hb with rfl | hb
        · exact lt_of_le_of_ne (not_lt.mp hlt) (Ne.symm heq)
        · exact hhead b hb

private theorem mem_foldl_insertSorted (ts acc : List String) (t : String) :
    t ∈ ts.foldl insertSorted acc ↔ t ∈ ts ∨ t ∈ acc := by
  induction ts generalizing acc with
  | nil => simp
  | cons a rest ih =>
    simp only [List.foldl_cons, ih, mem_insertSorted, List.mem_cons]
    tauto

@[simp] theorem mem_ascending (ts : List String) (t : String) : t ∈ ascending ts ↔ t ∈ ts := by
  simp [ascending, mem_foldl_insertSorted]

private theorem pairwise_foldl_insertSorted (ts : List String) {acc : List String}
    (h : acc.Pairwise (· < ·)) : (ts.foldl insertSorted acc).Pairwise (· < ·) := by
  induction ts generalizing acc with
  | nil => exact h
  | cons a rest ih => exact ih (pairwise_insertSorted h a)

theorem pairwise_ascending (ts : List String) : (ascending ts).Pairwise (· < ·) :=
  pairwise_foldl_insertSorted ts List.Pairwise.nil

theorem nodup_ascending (ts : List String) : (ascending ts).Nodup :=
  (pairwise_ascending ts).imp fun h => ne_of_lt h

/-! ### Association lists -/

section Lookup

variable {κ α : Type} [BEq κ] [LawfulBEq κ]

theorem lookup_map_key (l : List κ) (f : κ → α) (k : κ) :
    (l.map fun a => (a, f a)).lookup k = if k ∈ l then some (f k) else none := by
  induction l with
  | nil => simp
  | cons a rest ih =>
    by_cases h : k = a
    · simp [h]
    · have hbeq : (k == a) = false := beq_false_of_ne h
      simp [List.lookup_cons, hbeq, ih, h]

theorem lookup_append_singleton [DecidableEq κ] (l : List (κ × α)) (k a : κ) (v : α)
    (ha : l.lookup a = none) :
    (l ++ [(a, v)]).lookup k = if k = a then some v else l.lookup k := by
  rw [List.lookup_append]
  by_cases h : k = a
  · simp [h, ha]
  · have hbeq : (k == a) = false := beq_false_of_ne h
    simp [List.lookup_cons, hbeq, h]

theorem lookup_eq_some_iff_mem {l : List (κ × α)} (h : (l.map (·.1)).Nodup) {k : κ} {v : α} :
    l.lookup k = some v ↔ (k, v) ∈ l := by
  induction l with
  | nil => simp
  | cons x rest ih =>
    obtain ⟨a, w⟩ := x
    obtain ⟨ha, hrest⟩ := List.nodup_cons.mp h
    by_cases hk : k = a
    · subst hk
      have hnot : (k, v) ∉ rest := fun hmem => ha (List.mem_map.mpr ⟨_, hmem, rfl⟩)
      simp [hnot, eq_comm]
    · have hbeq : (k == a) = false := beq_false_of_ne hk
      rw [List.lookup_cons, hbeq, List.mem_cons, ih hrest]
      simp [hk]

theorem lookup_map_replace [DecidableEq κ] (l : List (κ × α)) (a b : κ) (v : α) :
    (l.map fun x => if x.1 = a then (a, v) else x).lookup b =
      if a = b then (l.lookup a).map fun _ => v else l.lookup b := by
  induction l with
  | nil => simp
  | cons x rest ih =>
    obtain ⟨k, w⟩ := x
    rw [List.map_cons]
    by_cases hk : k = a
    · subst hk
      by_cases hb : k = b
      · subst hb
        simp
      · have hbeq : (b == k) = false := beq_false_of_ne (Ne.symm hb)
        simp only [if_true, List.lookup_cons, hbeq, ih, if_neg hb]
    · rw [if_neg hk]
      by_cases hb : k = b
      · subst hb
        simp [Ne.symm hk]
      · have hbeq : (b == k) = false := beq_false_of_ne (Ne.symm hb)
        have hak : (a == k) = false := beq_false_of_ne (Ne.symm hk)
        simp only [List.lookup_cons, hbeq, hak, ih]

end Lookup

/-! ### Sorting -/

section Sorting

variable {α : Type} (le : α → α → Bool)

theorem insertBy_perm (a : α) (l : List α) : (insertBy le a l).Perm (a :: l) := by
  induction l with
  | nil => exact List.Perm.refl _
  | cons b rest ih =>
    unfold insertBy
    by_cases h : le a b = true
    · simp [h]
    · simp only [h]
      exact (ih.cons b).trans (List.Perm.swap a b rest)

theorem sortBy_perm (l : List α) : (sortBy le l).Perm l := by
  induction l with
  | nil => exact List.Perm.refl _
  | cons a rest ih => exact (insertBy_perm le a _).trans (ih.cons a)

@[simp] theorem mem_sortBy (l : List α) (a : α) : a ∈ sortBy le l ↔ a ∈ l :=
  (sortBy_perm le l).mem_iff

variable (htotal : ∀ a b, le a b = true ∨ le b a = true)
  (htrans : ∀ a b c, le a b = true → le b c = true → le a c = true)
include htotal htrans

theorem pairwise_insertBy (a : α) {l : List α} (h : l.Pairwise fun a b => le a b = true) :
    (insertBy le a l).Pairwise fun a b => le a b = true := by
  induction l with
  | nil => simp [insertBy]
  | cons b rest ih =>
    have hhead := (List.pairwise_cons.mp h).1
    have hrest := (List.pairwise_cons.mp h).2
    unfold insertBy
    by_cases hab : le a b = true
    · simp only [hab, if_true]
      refine List.pairwise_cons.mpr ⟨?_, h⟩
      intro c hc
      rcases List.mem_cons.mp hc with rfl | hc
      · exact hab
      · exact htrans a b c hab (hhead c hc)
    · simp only [hab]
      refine List.pairwise_cons.mpr ⟨?_, ih hrest⟩
      intro c hc
      rcases List.mem_cons.mp ((insertBy_perm le a rest).mem_iff.mp hc) with rfl | hc
      · exact (htotal c b).resolve_left hab
      · exact hhead c hc

theorem pairwise_sortBy (l : List α) : (sortBy le l).Pairwise fun a b => le a b = true := by
  induction l with
  | nil => exact List.Pairwise.nil
  | cons a rest ih => exact pairwise_insertBy le htotal htrans a ih

/-- A sorted list depends on what is sorted only, unless two different elements precede each
other. -/
theorem sortBy_eq_of_perm {l l' : List α} (h : l.Perm l')
    (hanti : ∀ a ∈ l, ∀ b ∈ l, le a b = true → le b a = true → a = b) :
    sortBy le l = sortBy le l' := by
  have hperm : (sortBy le l).Perm (sortBy le l') :=
    ((sortBy_perm le l).trans h).trans (sortBy_perm le l').symm
  refine hperm.eq_of_pairwise (fun a b ha hb => hanti a ((mem_sortBy le l a).mp ha) b ?_)
    (pairwise_sortBy le htotal htrans l) (pairwise_sortBy le htotal htrans l')
  exact (mem_sortBy le l b).mp (hperm.mem_iff.mpr hb)

end Sorting

end PortGraph
