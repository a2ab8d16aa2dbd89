import PortGraph.Proofs.Graph.Building
import PortGraph.Proofs.Port.Conversion
import PortGraph.Run.NodeRun

/-!
The check of types when an edge is added, against the conversions of the values that pass along it.
A value of a compatible type is taken unless it is a text that does not spell what is asked for; one
of a type that is not compatible is rejected.
-/

namespace PortGraph

/-- The pairs of types that are compatible. -/
theorem PortType.compatible_iff {s t : PortType} : s.compatible t = true ↔
    s = t ∨ s = .any ∨ t = .any ∨ (s = .string ∧ t = .number) ∨ (s = .number ∧ t = .string) ∨
      (s = .object ∧ t = .string) ∨ (s = .string ∧ t = .object) ∨ (s ≠ .file ∧ t = .array) := by
  cases s <;> cases t <;> simp [compatible]

namespace Conversion

variable {v w : Json} {s t : PortType}

/-- A text that spells no number, or no object. -/
inductive Unreadable : PortType → Json → Prop
  | number {s : String} (hinteger : Text.Decimal.integer? (Text.trim s.toList) = none)
      (hdouble : Binary64.ofText? (Text.trim s.toList) = none) : Unreadable .number (.string s)
  | object {s : String} (h : ∀ fields, Json.parse s ≠ .ok (.object fields)) :
      Unreadable .object (.string s)

theorem decimal?_eq_none {s : String} : decimal? s = none ↔
    Text.Decimal.integer? (Text.trim s.toList) = none ∧
      Binary64.ofText? (Text.trim s.toList) = none := by
  unfold decimal?
  dsimp only
  cases Text.Decimal.integer? (Text.trim s.toList) <;> simp

theorem Unreadable.not_taken (h : Unreadable t v) : ¬ ∃ taken, convert v t = .ok taken := by
  rw [exists_convert_eq_ok]
  rintro (hconforms | ⟨w, hbecomes⟩)
  · cases h <;> simp [Conforms, Json.portType?] at hconforms
  · cases h with
    | number hinteger hdouble =>
      cases hbecomes with
      | number hdecimal =>
        rw [decimal?_eq_none.mpr ⟨hinteger, hdouble⟩] at hdecimal
        simp at hdecimal
    | object h =>
      cases hbecomes with
      | fields hparse => exact h _ hparse

theorem exists_becomes_number (s : String) :
    Unreadable .number (.string s) ∨ ∃ w, Becomes (.string s) .number w := by
  cases hdecimal : decimal? s with
  | none =>
    obtain ⟨hinteger, hdouble⟩ := decimal?_eq_none.mp hdecimal
    exact Or.inl (.number hinteger hdouble)
  | some n => exact Or.inr ⟨_, .number hdecimal⟩

theorem exists_becomes_object (s : String) :
    Unreadable .object (.string s) ∨ ∃ w, Becomes (.string s) .object w := by
  by_cases h : ∃ fields, Json.parse s = .ok (.object fields)
  · obtain ⟨fields, h⟩ := h
    exact Or.inr ⟨_, .fields h⟩
  · exact Or.inl (.object fun fields hparse => h ⟨fields, hparse⟩)

/-- Of the types that a port can have, only two leave open which type a value of it has. -/
theorem portType?_of_conforms (h : Conforms v s) (hany : s ≠ .any) (hfile : s ≠ .file)
    (hnull : v ≠ .null) : v.portType? = some s := by
  cases hsource : v.portType? with
  | none => exact absurd (portType?_eq_none.mp hsource) hnull
  | some source =>
    rcases (conforms_iff hsource).mp h with hs | rfl | ⟨hs, -⟩
    · exact absurd hs hany
    · rfl
    · exact absurd hs hfile

/-- A value of a compatible type is taken, unless it is a text that does not spell what is asked
for. -/
theorem taken_or_unreadable (hany : s ≠ .any) (h : Conforms v s)
    (hcompatible : s.compatible t = true) :
    (∃ taken, convert v t = .ok taken) ∨ s = .string ∧ Unreadable t v := by
  rw [exists_convert_eq_ok]
  by_cases hnull : v = .null
  · exact Or.inl (Or.inl (hnull ▸ conforms_null t))
  rcases PortType.compatible_iff.mp hcompatible with
    rfl | hs | rfl | ⟨rfl, rfl⟩ | ⟨rfl, rfl⟩ | ⟨rfl, rfl⟩ | ⟨rfl, rfl⟩ | ⟨hfile, rfl⟩
  · exact Or.inl (Or.inl h)
  · exact absurd hs hany
  · exact Or.inl (Or.inl (conforms_any v))
  -- a text for a number
  · obtain ⟨text, rfl⟩ := h.string.resolve_left hnull
    exact (exists_becomes_number text).symm.imp Or.inr fun hunreadable => ⟨rfl, hunreadable⟩
  -- a number or an object for a text
  · obtain ⟨n, rfl⟩ := h.number.resolve_left hnull
    exact Or.inl (Or.inr ⟨_, .digits n⟩)
  · obtain ⟨fields, rfl⟩ := h.object.resolve_left hnull
    exact Or.inl (Or.inr ⟨_, .document fields⟩)
  -- a text for an object
  · obtain ⟨text, rfl⟩ := h.string.resolve_left hnull
    exact (exists_becomes_object text).symm.imp Or.inr fun hunreadable => ⟨rfl, hunreadable⟩
  -- one value for a list
  · have hsource := portType?_of_conforms h hany hfile hnull
    by_cases harray : s = .array
    · exact Or.inl (Or.inl (harray ▸ h))
    · exact Or.inl (Or.inr ⟨_, .list hsource harray⟩)

/-- The types alone decide that a value of a type that is not compatible is rejected. -/
theorem convert_of_not_compatible (hsource : v.portType? = some s) (hfile : t ≠ .file)
    (hcompatible : s.compatible t = false) : convert v t = .error ⟨s, t, .noRule⟩ := by
  cases v <;> cases hsource <;> cases t <;>
    simp_all [convert, Json.portType?, PortType.compatible]

end Conversion

namespace Graph

/-- The ports at the two ends of an edge. -/
structure Connects (g : Graph) (e : Edge) (output : Port) (consumer : Node) (input : Port) :
    Prop where
  output : ∃ source, g.node? e.source = some source ∧
    source.output? e.label.sourcePort = some output
  target : g.node? e.target = some consumer
  input : consumer.input? e.label.targetPort = some input

theorem connects_of_definition {d : Definition} {g : Graph} (h : ofDefinition d = .ok g) {e : Edge}
    (he : e ∈ g.edges) : ∃ output consumer input,
      g.Connects e output consumer input ∧ output.type.compatible input.type = true := by
  obtain ⟨ns, es, -, -, hes, -, -, harrange⟩ := ofDefinition_eq_ok.mp h
  unfold arrange at harrange
  simp only at harrange
  split_ifs at harrange
  obtain rfl := Except.ok.inj harrange
  obtain ⟨l, -, source, consumer, output, input, hsource, hconsumer, houtput, hinput, hcompatible,
    rfl⟩ := exists_of_mem_right hes he
  exact ⟨output, consumer, input, ⟨⟨source, hsource, houtput⟩, hconsumer, hinput⟩, hcompatible⟩

end Graph

theorem NodeRun.deliver_eq_ok {node : Node} {r : NodeRun} {port : Port} {name : String} {v : Json}
    (hport : node.input? name = some port) : (NodeRun.deliver node r name v).2 = .ok () ↔
      ∃ taken, Conversion.convert v port.type = .ok taken := by
  unfold NodeRun.deliver
  rw [hport]
  dsimp only [Option.map_some, Option.getD_some]
  cases Conversion.convert v port.type <;> simp

namespace Conversion

theorem taken_iff {v : Json} {s t : PortType} (hany : s ≠ .any) (h : Conforms v s)
    (hcompatible : s.compatible t = true) :
    (∃ taken, convert v t = .ok taken) ↔ ¬ (s = .string ∧ Unreadable t v) :=
  ⟨fun htaken hunreadable => hunreadable.2.not_taken htaken,
    (taken_or_unreadable hany h hcompatible).resolve_right⟩

/-- What the check of an edge says of the values to come. Of a compatible type, other than `any`, a
value is taken unless it is a text that does not spell what is asked for; of one that is not
compatible, none is. So a value of the type of its output fails to pass along an edge only as an
unreadable text. -/
theorem compatibilityForesees :
    (∀ {s t v}, s ≠ .any → Conforms v s → s.compatible t = true →
      ((∃ taken, convert v t = .ok taken) ↔ ¬ (s = .string ∧ Unreadable t v))) ∧
    (∀ {s t v}, s ≠ .any → s ≠ .file → t ≠ .file → Conforms v s → v ≠ .null →
      s.compatible t = false → convert v t = .error ⟨s, t, .noRule⟩) ∧
    ∀ {d g}, Graph.ofDefinition d = .ok g → ∀ e ∈ g.edges, ∃ output consumer input,
      g.Connects e output consumer input ∧
        (output.type ≠ .any → ∀ v, Conforms v output.type → ∀ r,
          ((NodeRun.deliver consumer r e.label.targetPort v).2 = .ok () ↔
            ¬ (output.type = .string ∧ Unreadable input.type v))) := by
  refine ⟨taken_iff, fun hany hfile htarget h hnull hcompatible => ?_, fun hg e he => ?_⟩
  · exact convert_of_not_compatible (portType?_of_conforms h hany hfile hnull) htarget hcompatible
  · obtain ⟨output, consumer, input, hends, hcompatible⟩ := Graph.connects_of_definition hg he
    refine ⟨output, consumer, input, hends, fun hany v h r => ?_⟩
    rw [NodeRun.deliver_eq_ok hends.input, taken_iff hany h hcompatible]

/-- A text on its way into an object. -/
def hookedText : Definition :=
  ⟨[⟨"in", "data-input", []⟩, ⟨"ask", "ai-text", []⟩,
    ⟨"hook", "automation-zapier", [("webhookUrl", .string "http://localhost")]⟩],
   [⟨⟨"in", "value"⟩, ⟨"ask", "prompt"⟩⟩, ⟨⟨"ask", "text"⟩, ⟨"hook", "data"⟩⟩]⟩

/-- A number is taken for a text, a truth value is not, and of the texts for an object only those
are taken that spell one. -/
theorem hookedText_compatibilityForesees :
    (∃ taken, convert (.ofNat 7) .string = .ok taken) ∧
    convert (.bool true) .string = .error ⟨.boolean, .string, .noRule⟩ ∧
    ∃ g, Graph.ofDefinition hookedText = .ok g ∧ ∃ e ∈ g.edges, ∃ output consumer input,
      g.Connects e output consumer input ∧ output.type = .string ∧ input.type = .object ∧
        ∀ r, (NodeRun.deliver consumer r e.label.targetPort (.string "\x7b\x7d")).2 = .ok () ∧
          (NodeRun.deliver consumer r e.label.targetPort (.string "[]")).2 ≠ .ok () := by
  have hdigits : ¬ (PortType.number = .string ∧ Unreadable .string (.ofNat 7)) := by simp
  refine ⟨(compatibilityForesees.1 (by decide) (by simp [Conforms, Json.portType?, Json.ofNat])
      (by decide)).mpr hdigits,
    compatibilityForesees.2.1 (by decide) (by decide) (by decide)
      (by simp [Conforms, Json.portType?]) (by simp) (by decide), ?_⟩
  obtain ⟨g, hg, hedge, houtput, hinput⟩ := exists_ok_of_check (x := Graph.ofDefinition hookedText)
    (P := fun g => ⟨"ask", "hook", ⟨"text", "data", false⟩⟩ ∈ g.edges ∧
      ((g.node? "ask").bind fun n => n.output? "text").map Port.type = some .string ∧
      ((g.node? "hook").bind fun n => n.input? "data").map Port.type = some .object)
    (by decide +kernel)
  obtain ⟨output, consumer, input, hends, htaken⟩ := compatibilityForesees.2.2 hg _ hedge
  obtain ⟨source, hsource, hleaves⟩ := hends.output
  have hstring : output.type = .string := by simpa [hsource, hleaves] using houtput
  have hobject : input.type = .object := by simpa [hends.target, hends.input] using hinput
  rw [hstring, hobject] at htaken
  have hspelled : ¬ Unreadable .object (.string "\x7b\x7d") := by
    have hparse : Json.parse "\x7b\x7d" = .ok (.object []) := by decide +kernel
    intro hunreadable
    cases hunreadable with
    | object h => exact h [] hparse
  have hunspelled : Unreadable .object (.string "[]") := by
    have hparse : Json.parse "[]" = .ok (.array []) := by decide +kernel
    exact .object fun fields h => by simp [hparse] at h
  refine ⟨g, hg, _, hedge, output, consumer, input, hends, hstring, hobject, fun r => ⟨?_, ?_⟩⟩
  · exact (htaken (by decide) _ (by simp [Conforms, Json.portType?]) r).mpr
      fun h => hspelled h.2
  · exact fun h => (htaken (by decide) _ (by simp [Conforms, Json.portType?]) r).mp h
      ⟨rfl, hunspelled⟩

end Conversion

end PortGraph
