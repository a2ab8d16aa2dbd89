import Mathlib.Tactic.Common
import PortGraph.Port.Conversion

/-!
What becomes of a value on its way into a port. It passes when it conforms to the type of the port;
otherwise one of five conversions applies to it, or it is rejected. A converted value is another
one, and it conforms.
-/

namespace PortGraph.Conversion

/-- What a value is converted to for a port of a type. -/
inductive Becomes : Json → PortType → Json → Prop
  | number {s : String} {n : Number} (h : decimal? s = some n) :
      Becomes (.string s) .number (.number n)
  | digits (n : Number) : Becomes (.number n) .string (.string (String.ofList n.toText))
  | document (fields : List (String × Json)) :
      Becomes (.object fields) .string (.string (Json.object fields).compact)
  | fields {s : String} {fields : List (String × Json)} (h : Json.parse s = .ok (.object fields)) :
      Becomes (.string s) .object (.object fields)
  | list {v : Json} {source : PortType} (hsource : v.portType? = some source)
      (hother : source ≠ .array) : Becomes v .array (.array [v])

variable {v w : Json} {t source : PortType} {applied : Option (PortType × PortType)}

theorem portType?_eq_none : v.portType? = none ↔ v = .null := by
  cases v <;> simp [Json.portType?]

theorem conforms_null (t : PortType) : Conforms .null t := trivial

theorem conforms_any (v : Json) : Conforms v .any := by
  cases v <;> simp [Conforms, Json.portType?]

theorem conforms_iff (hsource : v.portType? = some source) :
    Conforms v t ↔ t = .any ∨ source = t ∨ (t = .file ∧ (source = .string ∨ source = .object)) := by
  simp only [Conforms, hsource]

namespace Conforms

theorem string (h : Conforms v .string) : v = .null ∨ ∃ s, v = .string s := by
  cases v <;> simp_all [Conforms, Json.portType?]

theorem number (h : Conforms v .number) : v = .null ∨ ∃ n, v = .number n := by
  cases v <;> simp_all [Conforms, Json.portType?]

theorem boolean (h : Conforms v .boolean) : v = .null ∨ ∃ b, v = .bool b := by
  cases v <;> simp_all [Conforms, Json.portType?]

theorem object (h : Conforms v .object) : v = .null ∨ ∃ fields, v = .object fields := by
  cases v <;> simp_all [Conforms, Json.portType?]

theorem array (h : Conforms v .array) : v = .null ∨ ∃ items, v = .array items := by
  cases v <;> simp_all [Conforms, Json.portType?]

theorem file (h : Conforms v .file) :
    v = .null ∨ (∃ s, v = .string s) ∨ ∃ fields, v = .object fields := by
  cases v <;> simp_all [Conforms, Json.portType?]

end Conforms

/-- What conforms passes as it stands. -/
theorem convert_of_conforms (h : Conforms v t) : convert v t = .ok (v, none) := by
  unfold convert
  cases hsource : v.portType? with
  | none => rfl
  | some source =>
    dsimp only
    rcases (conforms_iff hsource).mp h with hany | hsame | ⟨rfl, hpayload⟩
    · rw [if_pos (Or.inl hany)]
    · rw [if_pos (Or.inr hsame)]
    · cases v <;> cases hsource <;> simp at hpayload ⊢

/-- What is converted is recorded, with the types on both sides. -/
theorem Becomes.convert (h : Becomes v t w) :
    Conversion.convert v t = .ok (w, v.portType?.map fun source => (source, t)) := by
  cases h with
  | number h => simp [Conversion.convert, Json.portType?, h]
  | digits n => simp [Conversion.convert, Json.portType?]
  | document fields => simp [Conversion.convert, Json.portType?]
  | fields h => simp [Conversion.convert, Json.portType?, h]
  | list hsource hother => simp [Conversion.convert, hsource, hother]

/-- A value that a port takes conforms or is converted. -/
theorem conforms_or_becomes (h : convert v t = .ok (w, applied)) :
    Conforms v t ∨ Becomes v t w := by
  unfold convert at h
  cases hsource : v.portType? with
  | none =>
    rw [portType?_eq_none.mp hsource]
    exact Or.inl (conforms_null t)
  | some source =>
    rw [conforms_iff hsource]
    rw [hsource] at h
    dsimp only at h
    split_ifs at h with hfits
    · exact Or.inl (hfits.imp_right Or.inl)
    · split at h
      -- a text or an object for a file
      · exact Or.inl (Or.inr (Or.inr ⟨rfl, Or.inl (Option.some.inj hsource).symm⟩))
      · exact Or.inl (Or.inr (Or.inr ⟨rfl, Or.inr (Option.some.inj hsource).symm⟩))
      · simp at h
      -- a text for a number
      · split at h
        · obtain ⟨rfl, -⟩ := Prod.mk.inj (Except.ok.inj h)
          exact Or.inr (.number ‹_›)
        · simp at h
      -- a number or an object for a text
      · obtain ⟨rfl, -⟩ := Prod.mk.inj (Except.ok.inj h)
        exact Or.inr (.digits _)
      · obtain ⟨rfl, -⟩ := Prod.mk.inj (Except.ok.inj h)
        exact Or.inr (.document _)
      -- a text for an object
      · split at h
        · obtain ⟨rfl, -⟩ := Prod.mk.inj (Except.ok.inj h)
          exact Or.inr (.fields ‹_›)
        · simp at h
        · simp at h
      -- one value for a list
      · obtain ⟨rfl, -⟩ := Prod.mk.inj (Except.ok.inj h)
        exact Or.inr (.list hsource fun hsame => hfits (Or.inr hsame))
      · simp at h

/-- What a port makes of a value, and what is recorded of it. -/
theorem convert_eq_ok : convert v t = .ok (w, applied) ↔
    (Conforms v t ∧ w = v ∧ applied = none) ∨
      (Becomes v t w ∧ applied = v.portType?.map fun source => (source, t)) := by
  constructor
  · intro h
    rcases conforms_or_becomes h with hconforms | hbecomes
    · rw [convert_of_conforms hconforms] at h
      obtain ⟨rfl, rfl⟩ := Prod.mk.inj (Except.ok.inj h)
      exact Or.inl ⟨hconforms, rfl, rfl⟩
    · rw [hbecomes.convert] at h
      exact Or.inr ⟨hbecomes, (Prod.mk.inj (Except.ok.inj h)).2.symm⟩
  · rintro (⟨hconforms, rfl, rfl⟩ | ⟨hbecomes, rfl⟩)
    · exact convert_of_conforms hconforms
    · exact hbecomes.convert

theorem exists_convert_eq_ok : (∃ taken, convert v t = .ok taken) ↔
    Conforms v t ∨ ∃ w, Becomes v t w := by
  constructor
  · rintro ⟨⟨w, applied⟩, h⟩
    exact (conforms_or_becomes h).imp_right fun hbecomes => ⟨w, hbecomes⟩
  · rintro (h | ⟨w, h⟩)
    · exact ⟨_, convert_of_conforms h⟩
    · exact ⟨_, h.convert⟩

namespace Becomes

theorem conforms (h : Becomes v t w) : Conforms w t := by
  cases h <;> exact (conforms_iff rfl).mpr (Or.inr (Or.inl rfl))

theorem exists_source (h : Becomes v t w) : ∃ source, v.portType? = some source := by
  cases h with
  | list hsource _ => exact ⟨_, hsource⟩
  | _ => exact ⟨_, rfl⟩

theorem ne (h : Becomes v t w) : w ≠ v := by
  cases h with
  | list hsource hother =>
    intro heq
    rw [← heq] at hsource
    exact hother (Option.some.inj hsource).symm
  | _ => simp

theorem result_ne_null (h : Becomes v t w) : w ≠ .null := by
  cases h <;> simp

end Becomes

/-- A value as a port takes it has the type of the port. -/
theorem conforms_of_convert (h : convert v t = .ok (w, applied)) : Conforms w t := by
  rcases convert_eq_ok.mp h with ⟨hconforms, rfl, -⟩ | ⟨hbecomes, -⟩
  · exact hconforms
  · exact hbecomes.conforms

/-- A value that a port has taken is settled: it is null only if it was, it conforms to the type, it
passes the next port of the type as it stands, and a conversion is recorded just when the value is
no longer what it was. -/
structure Settled (v : Json) (t : PortType) (w : Json) (applied : Option (PortType × PortType)) :
    Prop where
  null : w = .null ↔ v = .null
  conforms : Conforms w t
  again : convert w t = .ok (w, none)
  changed : (∃ source, v.portType? = some source ∧ applied = some (source, t)) ↔ w ≠ v
  unchanged : applied = none ↔ w = v

theorem settled_of_conforms (h : Conforms v t) : Settled v t v none where
  null := Iff.rfl
  conforms := h
  again := convert_of_conforms h
  changed := by simp
  unchanged := by simp

theorem Becomes.settled (h : Becomes v t w) :
    Settled v t w (v.portType?.map fun source => (source, t)) := by
  obtain ⟨source, hsource⟩ := h.exists_source
  have hv : v ≠ .null := fun hnull => by simp [hnull, Json.portType?] at hsource
  exact {
    null := iff_of_false h.result_ne_null hv
    conforms := h.conforms
    again := convert_of_conforms h.conforms
    changed := iff_of_true ⟨source, hsource, by rw [hsource]; rfl⟩ h.ne
    unchanged := iff_of_false (by simp [hsource]) h.ne }

/-- Whatever a port takes is settled, and the values that it takes as they stand are those that
conform to its type. -/
theorem conversionSettles (v : Json) (t : PortType) :
    (convert v t = .ok (v, none) ↔ Conforms v t) ∧
      ∀ {w applied}, convert v t = .ok (w, applied) → Settled v t w applied := by
  refine ⟨⟨fun h => ?_, convert_of_conforms⟩, fun h => ?_⟩
  · exact (conforms_or_becomes h).resolve_right fun hbecomes => hbecomes.ne rfl
  · rcases convert_eq_ok.mp h with ⟨hconforms, rfl, rfl⟩ | ⟨hbecomes, rfl⟩
    · exact settled_of_conforms hconforms
    · exact hbecomes.settled

/-- Two and a half, with blanks around it, comes to a port for numbers. -/
theorem blankedDigits_conversionSettles :
    convert (.string " 2.5\t") .number =
        .ok (.number (.double ⟨false, 5629499534213120, -51⟩), some (.string, .number)) ∧
      Settled (.string " 2.5\t") .number (.number (.double ⟨false, 5629499534213120, -51⟩))
        (some (.string, .number)) := by
  have h : convert (.string " 2.5\t") .number =
      .ok (.number (.double ⟨false, 5629499534213120, -51⟩), some (.string, .number)) := by
    decide +kernel
  exact ⟨h, (conversionSettles _ _).2 h⟩

end PortGraph.Conversion
