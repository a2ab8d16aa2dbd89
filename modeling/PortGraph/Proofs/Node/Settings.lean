import Mathlib.Data.List.Nodup
import PortGraph.Graph.Definition
import PortGraph.Proofs.Json.Records

/-!
What the settings of a node fix: its kind, and ports of which no two on one side share a name.
-/

namespace PortGraph

theorem find?_name_eq_some {ps : List Port} {name : String} {p : Port}
    (hunique : ∀ p ∈ ps, ∀ q ∈ ps, p.name = q.name → p = q) :
    (ps.find? fun q => q.name == name) = some p ↔ p ∈ ps ∧ p.name = name := by
  constructor
  · intro hp
    exact ⟨List.mem_of_find?_eq_some hp, by simpa using List.find?_some hp⟩
  · rintro ⟨hp, rfl⟩
    have hfound : (ps.find? fun q => q.name == p.name).isSome := by
      rw [List.find?_isSome]
      exact ⟨p, hp, beq_self_eq_true p.name⟩
    obtain ⟨q, hq⟩ := Option.isSome_iff_exists.mp hfound
    have hname : q.name = p.name := by simpa using List.find?_some hq
    rw [hq, hunique q (List.mem_of_find?_eq_some hq) p hp hname]

namespace NodeSettings

theorem kind_of_reader {kind : NodeKind} {r : Reading} {source : Source} {s : NodeSettings}
    (h : reader kind r source = .ok s) : s.kind = kind := by
  cases kind <;>
    · obtain ⟨_, rfl, -⟩ := Record.map_of_reader h
      rfl

theorem parse_eq_ok {kind : NodeKind} {properties : Properties} {s : NodeSettings} :
    parse kind properties = .ok s ↔
      Reader.readJson (reader kind) (.object properties) = .ok s ∧ s.complaints = [] := by
  unfold parse
  cases hread : Reader.readJson (reader kind) (.object properties) with
  | error m => simp
  | ok s' =>
    simp only [Except.ok.injEq]
    constructor
    · intro h
      split at h
      · obtain rfl := Except.ok.inj h
        exact ⟨rfl, ‹_›⟩
      · simp at h
    · rintro ⟨rfl, hnone⟩
      rw [hnone]

theorem kind_of_parse {kind : NodeKind} {properties : Properties} {s : NodeSettings}
    (h : parse kind properties = .ok s) : s.kind = kind :=
  kind_of_reader (parse_eq_ok.mp h).1

/-- No two inputs of a node have one name. -/
theorem input_unique (s : NodeSettings) {p q : Port} (hp : p ∈ s.inputs) (hq : q ∈ s.inputs)
    (h : p.name = q.name) : p = q := by
  cases s with
  | merge s =>
    obtain ⟨i, -, rfl⟩ := List.mem_map.mp hp
    obtain ⟨j, -, rfl⟩ := List.mem_map.mp hq
    exact congrArg (Port.mk · .any) h
  | _ =>
    refine List.inj_on_of_nodup_map ?_ hp hq h
    simp [inputs, ports, PortName.condition, PortName.trueValue, PortName.falseValue,
      PortName.collection, PortName.result]

/-- No two outputs of a node have one name. -/
theorem output_unique (s : NodeSettings) {p q : Port} (hp : p ∈ s.outputs) (hq : q ∈ s.outputs)
    (h : p.name = q.name) : p = q := by
  refine List.inj_on_of_nodup_map ?_ hp hq h
  cases s <;> simp [outputs, ports, PortName.item, PortName.index, PortName.results]

end NodeSettings

theorem Node.build_eq_ok {id : NodeId} {kind : NodeKind} {properties : Properties} {node : Node} :
    Node.build id kind properties = .ok node ↔ ∃ s, NodeSettings.parse kind properties = .ok s ∧
      node = ⟨id, s, properties, s.inputs, s.outputs⟩ := by
  unfold Node.build
  cases NodeSettings.parse kind properties <;> simp [Except.map, eq_comm]

end PortGraph
