import PortGraph.Proofs.Json.Paths

/-!
Which paths can be written. Brackets and quotation marks carry every key but those with a closing
bracket, at which the bracket ends also inside the quotation marks. Such a key is left to the form
with a point, which it fits only without the characters that begin a segment.
-/

namespace PortGraph

namespace Segment

/-- What the brackets of a written segment hold. -/
def inner : Segment → List Char
  | .key name => '\'' :: (name.toList ++ ['\''])
  | .index i => Text.Decimal.natural i

/-- Brackets carry the segment: an index of a 64-bit word, or a key without a closing bracket. -/
def Carried : Segment → Prop
  | .key name => ']' ∉ name.toList
  | .index i => i < Nat.pow 2 64

/-- Some text spells the segment. A key for which only the form with a point is left must not end in
a blank where the expression ends, since that blank would be trimmed. -/
inductive Writable (last : Bool) : Segment → Prop
  | carried {s : Segment} (h : s.Carried) : Writable last s
  | dotted {name : String} (h : Path.Bare name.toList)
      (hlast : last = true → Text.Stopped Text.isBlank name.toList.reverse) :
      Writable last (.key name)

theorem write_eq (s : Segment) : s.write = '[' :: (s.inner ++ [']']) := by
  cases s with
  | key name => simp [write, inner]
  | index i => rfl

theorem trim_inner (s : Segment) : Text.trim s.inner = s.inner := by
  cases s with
  | key name =>
    refine Text.trim_of_tight ⟨?_, ?_⟩
    · rintro c ⟨⟩
      decide
    · rw [inner, List.reverse_cons, List.reverse_append]
      rintro c ⟨⟩
      decide
  | index i => exact Text.Decimal.trim_natural i

variable {s : Segment}

theorem Carried.notMem_inner (h : s.Carried) : ']' ∉ s.inner := by
  cases s with
  | key name =>
    have hname : ']' ∉ name.toList := h
    simpa [inner] using hname
  | index i =>
    intro hmem
    exact absurd ((Text.Decimal.run_natural i).all ']' hmem) (by decide)

theorem Carried.held (h : s.Carried) : Path.Held s.inner s := by
  cases s with
  | key name =>
    have hheld : Path.Held ('\'' :: (name.toList ++ ['\''])) (.key (String.ofList name.toList)) :=
      .quoted (Or.inl rfl) rfl
    simpa [inner] using hheld
  | index i =>
    have hvalue := Text.Decimal.value_natural i
    have hword : Text.Decimal.value (Text.Decimal.natural i) < Nat.pow 2 64 := hvalue.symm ▸ h
    simpa [inner, hvalue] using
      Path.Held.index (Or.inl rfl) (Text.Decimal.run_natural i) hword

/-- A key in quotation marks stands in the brackets around it. -/
theorem carried_of_held {inner : List Char} (hclose : ']' ∉ inner)
    (h : Path.Held (Text.trim inner) s) : s.Carried := by
  cases h with
  | quoted hq htrim =>
    intro hmem
    refine hclose ((Text.trim_infix inner).subset ?_)
    rw [htrim]
    simpa using Or.inr (Or.inl hmem)
  | index hsign hrun hword => exact hword

theorem Carried.spelled {first : Bool} (h : s.Carried) : s.Spelled first s.write := by
  rw [write_eq]
  refine .bracketed h.notMem_inner ?_
  rw [trim_inner]
  exact h.held

theorem stopped_write (s : Segment) : Text.Stopped Text.isBlank s.write.reverse := by
  rw [write_eq, List.reverse_cons, List.reverse_append]
  rintro c ⟨⟩
  decide

end Segment

namespace Path

def Addressable : Path → Prop
  | [] => True
  | s :: p => s.Writable p.isEmpty ∧ Addressable p

/-! ### The ends of an expression -/

theorem body_dollar {cs : List Char} (h : Text.Stopped Text.isBlank cs.reverse) :
    body (String.ofList ('$' :: cs)) = cs := by
  have htight : Text.Tight ('$' :: cs) := by
    constructor
    · rintro c ⟨⟩
      decide
    · rw [List.reverse_cons]
      refine h.append fun _ => ?_
      rintro c ⟨⟩
      decide
  unfold body
  rw [String.toList_ofList, Text.trim_of_tight htight]
  rfl

theorem stopped_body (expression : String) :
    Text.Stopped Text.isBlank (body expression).reverse := by
  have htrim := (Text.tight_trim expression.toList).last
  unfold body
  split
  · rename_i hdollar
    rw [hdollar, List.reverse_cons] at htrim
    exact htrim.take (List.prefix_append ..)
  · exact htrim

/-! ### Paths in brackets -/

theorem spells_write {first : Bool} {p : Path} (h : ∀ s ∈ p, s.Carried) :
    Spells first (p.flatMap Segment.write) p := by
  induction p generalizing first with
  | nil => exact .nil
  | cons s p ih =>
    rw [List.flatMap_cons]
    exact .cons (h s (by simp)).spelled (ih fun t ht => h t (List.mem_cons_of_mem _ ht))

/-- The text up to the first closing bracket is all that brackets can hold. -/
theorem of_spells_write {first : Bool} {s : Segment} {p : Path} {cs : List Char}
    (h : Spells first (s.write ++ cs) (s :: p)) : s.Carried ∧ Spells false cs p := by
  rw [Segment.write_eq] at h
  generalize hall : '[' :: (s.inner ++ [']']) ++ cs = all at h
  cases h with
  | cons hs hp =>
    cases hs with
    | dotted hbare => simp at hall
    | bracketed hclose hheld =>
      have hcarried := Segment.carried_of_held hclose hheld
      obtain ⟨-, rfl⟩ :=
        Text.eq_of_append_cons hcarried.notMem_inner hclose (by simpa using hall)
      exact ⟨hcarried, hp⟩
    | @bare run hfirst hbare =>
      obtain ⟨c, cs, rfl⟩ := List.exists_cons_of_ne_nil hbare.ne_nil
      obtain rfl : '[' = c := (List.cons.inj hall).1
      exact absurd (by simp) hbare.bracket

theorem carried_of_spells {first : Bool} {p : Path}
    (h : Spells first (p.flatMap Segment.write) p) : ∀ s ∈ p, s.Carried := by
  induction p generalizing first with
  | nil => simp
  | cons s p ih =>
    rw [List.flatMap_cons] at h
    obtain ⟨hs, hp⟩ := of_spells_write h
    exact List.forall_mem_cons.mpr ⟨hs, ih hp⟩

theorem parse_write {p : Path} : parse p.write = .ok p ↔ ∀ s ∈ p, s.Carried := by
  have hstop : Text.Stopped Text.isBlank (p.flatMap Segment.write).reverse := by
    induction p with
    | nil => exact fun _ hc => by simp at hc
    | cons s p ih =>
      rw [List.flatMap_cons, List.reverse_append]
      exact ih.append fun _ => s.stopped_write
  rw [parse_eq_ok, write, body_dollar hstop]
  exact ⟨carried_of_spells, spells_write⟩

/-! ### All expressions -/

theorem Spells.eq_nil_iff {first : Bool} {cs : List Char} {p : Path} (h : Spells first cs p) :
    cs = [] ↔ p = [] := by
  cases h with
  | nil => simp
  | cons hs _ => simp [hs.ne_nil]

theorem Spells.addressable {first : Bool} {cs : List Char} {p : Path} (h : Spells first cs p)
    (hstop : Text.Stopped Text.isBlank cs.reverse) : p.Addressable := by
  induction h with
  | nil => trivial
  | @cons first text rest s p hs hp ih =>
    rw [List.reverse_append] at hstop
    refine ⟨?_, ih (hstop.take (List.prefix_append ..))⟩
    -- the last segment ends where the expression does
    have hlast : p.isEmpty = true → Text.Stopped Text.isBlank text.reverse := by
      intro hempty
      have hrest : rest = [] := hp.eq_nil_iff.mpr (List.isEmpty_iff.mp hempty)
      simpa [hrest] using hstop
    cases hs with
    | dotted hbare =>
      refine .dotted (by simpa using hbare) fun hempty => ?_
      rw [String.toList_ofList]
      exact (hlast hempty).take (by simp)
    | bracketed hclose hheld => exact .carried (Segment.carried_of_held hclose hheld)
    | bare hfirst hbare => exact .dotted (by simpa using hbare) (by simpa using hlast)

theorem Segment.Writable.spelled {last : Bool} {s : Segment} (h : s.Writable last) :
    ∃ text, s.Spelled false text ∧ (last = true → Text.Stopped Text.isBlank text.reverse) := by
  cases h with
  | carried h => exact ⟨s.write, h.spelled, fun _ => s.stopped_write⟩
  | @dotted name hbare hlast =>
    have hspelled : (Segment.key (String.ofList name.toList)).Spelled false ('.' :: name.toList) :=
      .dotted hbare
    refine ⟨'.' :: name.toList, by simpa using hspelled, ?_⟩
    intro h
    rw [List.reverse_cons]
    exact (hlast h).append fun hnil => absurd (List.reverse_eq_nil_iff.mp hnil) hbare.ne_nil

theorem Addressable.spells {p : Path} (h : p.Addressable) :
    ∃ cs, Spells false cs p ∧ Text.Stopped Text.isBlank cs.reverse := by
  induction p with
  | nil => exact ⟨[], .nil, fun _ hc => by simp at hc⟩
  | cons s p ih =>
    obtain ⟨text, hs, hlast⟩ := Segment.Writable.spelled h.1
    obtain ⟨rest, hp, hrest⟩ := ih h.2
    refine ⟨text ++ rest, .cons hs hp, ?_⟩
    rw [List.reverse_append]
    refine hrest.append fun hnil => hlast ?_
    exact List.isEmpty_iff.mpr (hp.eq_nil_iff.mp (List.reverse_eq_nil_iff.mp hnil))

theorem exists_parse {p : Path} : (∃ expression, parse expression = .ok p) ↔ p.Addressable := by
  constructor
  · rintro ⟨expression, h⟩
    exact (parse_eq_ok.mp h).addressable (stopped_body expression)
  · intro h
    obtain ⟨cs, hp, hstop⟩ := h.spells
    refine ⟨String.ofList ('$' :: cs), parse_eq_ok.mpr ?_⟩
    rw [body_dollar hstop]
    exact hp.of_later

/-- A path reads back from its text in brackets just when brackets carry each of its segments, and
has some text at all just when each of its segments has one. So an expression selects every value
that such a path leads to. -/
theorem addressesExact {p : Path} :
    (parse p.write = .ok p ↔ ∀ s ∈ p, s.Carried) ∧
      ((∃ expression, parse expression = .ok p) ↔ p.Addressable) ∧
      ∀ {v w}, Leads p v w → p.Addressable →
        ∃ expression path, parse expression = .ok path ∧ select? path v = some w := by
  refine ⟨parse_write, exists_parse, fun h haddressable => ?_⟩
  obtain ⟨expression, hparse⟩ := exists_parse.mpr haddressable
  exact ⟨expression, p, hparse, select?_eq_some.mpr h⟩

/-- Keys with a quotation mark, a point, an opening bracket and nothing at all need brackets; one with
a closing bracket needs a point. -/
theorem awkward_addressesExact :
    parse (write [.key "it's", .key ".[", .key "", .index 18446744073709551615]) =
        .ok [.key "it's", .key ".[", .key "", .index 18446744073709551615] ∧
      ∃ expression path, parse expression = .ok path ∧
        select? path (.object [("x]y", .array [.null])]) = some .null := by
  have hleads : Leads [.key "x]y", .index 0] (.object [("x]y", .array [.null])]) .null :=
    .field rfl (.item rfl .here)
  have hkey : (Segment.key "x]y").Writable false :=
    .dotted ⟨by simp, by decide, by decide⟩ (by simp)
  have hindex : (Segment.index 0).Writable true := .carried (by decide : 0 < Nat.pow 2 64)
  have hcarried : ∀ s ∈ [Segment.key "it's", .key ".[", .key "", .index 18446744073709551615],
      s.Carried := by
    simp [Segment.Carried]
  exact ⟨addressesExact.1.mpr hcarried, addressesExact.2.2 hleads ⟨hkey, hindex, trivial⟩⟩

theorem not_addressable_brackets : ¬ Addressable [.key "[]"] := by
  rintro ⟨hkey, -⟩
  cases hkey with
  | carried h => exact absurd h (by simp [Segment.Carried])
  | dotted hbare _ => exact hbare.bracket (by decide)

/-- A key of two brackets has no text: in quotation marks it is refused, and no expression selects
the value under it. A key that looks like the end of one and the start of another is read as two. -/
theorem brackets_not_addressed :
    parse (write [.key "[]"]) = .error ⟨"$['[]']", .badBracket⟩ ∧
      Leads [.key "[]"] (.object [("[]", .bool true)]) (.bool true) ∧
      (∀ expression path, parse expression = .ok path →
        select? path (.object [("[]", .bool true)]) ≠ some (.bool true)) ∧
      parse (write [.key "a']['b"]) = .ok [.key "a", .key "b"] := by
  refine ⟨by decide +kernel, .field rfl .here, fun expression path hparse hselect => ?_,
    by decide +kernel⟩
  have haddressable := exists_parse.mp ⟨expression, hparse⟩
  cases select?_eq_some.mp hselect with
  | @field _ name v _ p hfield hp =>
    -- the only field leads to the value, which leads nowhere else
    obtain ⟨rfl, rfl⟩ : "[]" = name ∧ .bool true = v := by simpa [Table.find?] using hfield
    cases hp
    exact not_addressable_brackets haddressable

end Path

end PortGraph
