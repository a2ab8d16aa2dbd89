import PortGraph.Node.Basic
import PortGraph.Proofs.Json.Recalled
import PortGraph.Proofs.Node.Settings

/-!
Settings and their properties. Settings that were read from properties are written with every
default filled in, and those properties give the same settings again: writing them down is a normal
form of what was given.
-/

namespace PortGraph

open Reader

namespace Record

variable {α β γ δ : Type} {ns : List Number} {r : Reading} {get : String → Option Source}

/-- What holds of the default and of what is read holds of the field. -/
theorem of_fieldOr {name : String} {read : Reader α} {default a : α} {P : α → Prop}
    (h : (fieldOr name read default).build r get = .ok a) (hdefault : P default)
    (hread : ∀ v, get name = some v → read r v = .ok a → P a) : P a := by
  rcases build_fieldOr.mp h with ⟨-, rfl⟩ | ⟨v, hv, ha⟩
  · exact hdefault
  · exact hread v hv ha

theorem of_pair {mk : α → β → γ} {rec : Record α} {rec' : Record β} {c : γ}
    (h : (mk <$> rec <*> rec').build r get = .ok c) :
    ∃ a b, rec.build r get = .ok a ∧ rec'.build r get = .ok b ∧ mk a b = c := by
  obtain ⟨g, b, hg, hb, rfl⟩ := build_seq.mp h
  obtain ⟨a, ha, rfl⟩ := build_map.mp hg
  exact ⟨a, b, ha, hb, rfl⟩

theorem recalls_pair {mk : α → β → γ} {name name' : String} {read : Reader α} {read' : Reader β}
    {default : α} {default' : β} {v v' : Json} {a : α} {b : β} (h : Reader.Recalls ns read v a)
    (h' : Reader.Recalls ns read' v' b) :
    Recalls ns (mk <$> fieldOr name read default <*> fieldOr name' read' default')
      [(name, v), (name', v')] (mk a b) :=
  ((recalls_fieldOr name default h).map mk).seq (recalls_fieldOr name' default' h')

theorem recalls_triple {mk : α → β → γ → δ} {name name' name'' : String} {read : Reader α}
    {read' : Reader β} {read'' : Reader γ} {default : α} {default' : β} {default'' : γ}
    {v v' v'' : Json} {a : α} {b : β} {c : γ} (h : Reader.Recalls ns read v a)
    (h' : Reader.Recalls ns read' v' b) (h'' : Reader.Recalls ns read'' v'' c) :
    Recalls ns (mk <$> fieldOr name read default <*> fieldOr name' read' default'
        <*> fieldOr name'' read'' default'')
      [(name, v), (name', v'), (name'', v'')] (mk a b c) :=
  (recalls_pair h h').seq (recalls_fieldOr name'' default'' h'')

end Record

theorem Reader.natural_lt {bits n : ℕ} {kind : String} {r : Reading} {s : Source}
    (h : natural bits kind r s = .ok n) : n < Nat.pow 2 bits := by
  unfold natural at h
  split at h
  · split_ifs at h with hrange
    obtain rfl := Except.ok.inj h
    omega
  · exact absurd h unfit_ne_ok

/-! ### Names of choices -/

theorem MergeStrategy.recalls (ns : List Number) (s : MergeStrategy) :
    Recalls ns reader (.string s.name) s :=
  ⟨fun _ => by cases s <;> rfl, Json.drawn_leaf trivial rfl⟩

theorem Transformation.recalls (ns : List Number) (t : Transformation) :
    Recalls ns reader (.string t.name) t :=
  ⟨fun _ => by cases t <;> rfl, Json.drawn_leaf trivial rfl⟩

theorem Operator.recalls (ns : List Number) (o : Operator) :
    Recalls ns reader (.string o.name) o :=
  ⟨fun _ => by cases o <;> rfl, Json.drawn_leaf trivial rfl⟩

theorem Json.ofText?_eq (s : Option String) : Json.ofText? s = .ofOption (s.map .string) := by
  cases s <;> rfl

theorem Reader.recalls_text? (ns : List Number) (s : Option String) :
    Recalls ns (optional text) (.ofText? s) s := by
  rw [Json.ofText?_eq]
  exact recalls_optional s recalls_text fun _ => rfl

namespace NodeSettings

variable {ns : List Number}

/-! ### Settings that were read -/

/-- What reading leaves of settings beyond their types: numbers that fit their words, and a default
value drawn from the document. -/
def Held (ns : List Number) : NodeSettings → Prop
  | .text s => s.maxTokens < Nat.pow 2 32
  | .email s => s.port < Nat.pow 2 16
  | .loop s => s.maxIterations < Nat.pow 2 32
  | .merge s => s.inputCount < Nat.pow 2 64
  | .input s => s.defaultValue.Drawn ns
  | _ => True

theorem held_of_reader {kind : NodeKind} {r : Reading} {source : Source} {s : NodeSettings}
    (h : reader kind r source = .ok s) : s.Held source.numbers := by
  cases kind with
  | text =>
    obtain ⟨s, rfl, _, _, hs, -⟩ := Record.map_of_reader h
    obtain ⟨front, _, hfront, -, rfl⟩ := Record.build_seq.mp hs
    obtain ⟨_, _, -, htokens, rfl⟩ := Record.of_pair hfront
    exact Record.of_fieldOr (P := (· < Nat.pow 2 32)) htokens (by decide) fun _ _ => natural_lt
  | email =>
    obtain ⟨s, rfl, _, _, hs, -⟩ := Record.map_of_reader h
    obtain ⟨front, _, hfront, -, rfl⟩ := Record.build_seq.mp hs
    obtain ⟨_, _, -, hport, rfl⟩ := Record.of_pair hfront
    exact Record.of_fieldOr (P := (· < Nat.pow 2 16)) hport (by decide) fun _ _ => natural_lt
  | loop =>
    obtain ⟨s, rfl, _, _, hs, -⟩ := Record.map_of_reader h
    obtain ⟨_, _, hiterations, -, rfl⟩ := Record.of_pair hs
    exact Record.of_fieldOr (P := (· < Nat.pow 2 32)) hiterations (by decide) fun _ _ => natural_lt
  | merge =>
    obtain ⟨s, rfl, _, _, hs, -⟩ := Record.map_of_reader h
    obtain ⟨_, _, -, hcount, rfl⟩ := Record.of_pair hs
    exact Record.of_fieldOr (P := (· < Nat.pow 2 64)) hcount (by decide) fun _ _ => natural_lt
  | input =>
    obtain ⟨s, rfl, _, _, hs, hparts⟩ := Record.map_of_reader h
    obtain ⟨_, _, hvalue, -, rfl⟩ := Record.of_pair hs
    refine Record.of_fieldOr (P := Json.Drawn source.numbers) hvalue
      (Json.drawn_leaf trivial rfl) fun v hv hread => ?_
    have hadmitted := (any_admitted hread).mono (hparts _ v hv)
    exact ⟨hadmitted.tabled, fun i hi => Or.inr (hadmitted.numbers hi)⟩
  | _ =>
    obtain ⟨_, rfl, -⟩ := Record.map_of_reader h
    trivial

/-! ### Settings that are written -/

theorem recalls_toProperties {s : NodeSettings} (h : s.Held ns) :
    Recalls ns (reader s.kind) (.object s.toProperties) s := by
  cases s with
  | text s =>
    exact ((Record.recalls_triple (recalls_text s.model) (recalls_natural _ h (by decide))
      (recalls_double s.temperature)).map text).reader (by simp) _
  | image s =>
    exact ((Record.recalls_pair (recalls_text s.provider) (recalls_texts s.features)).map
      image).reader (by simp) _
  | speech s =>
    exact ((Record.recalls_pair (recalls_text s.language) (recalls_text s.provider)).map
      speech).reader (by simp) _
  | translate s =>
    exact ((Record.recalls_pair (recalls_text s.targetLanguage) (recalls_text s.provider)).map
      translate).reader (by simp) _
  | sentiment s =>
    exact ((Record.recalls_pair (recalls_text s.provider) (recalls_bool s.includeOpinions)).map
      sentiment).reader (by simp) _
  | email s =>
    exact ((Record.recalls_triple (recalls_text s.smtpServer) (recalls_natural _ h (by decide))
      (recalls_bool s.enableSsl)).map email).reader (by simp) _
  | chat s =>
    exact ((Record.recalls_pair (recalls_text s.botToken) (recalls_text s.username)).map
      chat).reader (by simp) _
  | webhook s =>
    exact ((Record.recalls_pair (recalls_text s.webhookUrl) (recalls_text s.method)).map
      webhook).reader (by simp) _
  | flow s =>
    exact ((Record.recalls_pair (recalls_text s.flowUrl) (recalls_text s.triggerName)).map
      flow).reader (by simp) _
  | condition s =>
    exact (((Record.recalls_fieldOr _ _ (recalls_bool s.errorAsFalse)).map
      ConditionSettings.mk).map condition).reader (by simp) _
  | loop s =>
    exact ((Record.recalls_pair (recalls_natural _ h (by decide)) (recalls_bool s.parallel)).map
      loop).reader (by simp) _
  | merge s =>
    exact ((Record.recalls_pair (s.strategy.recalls ns) (recalls_natural _ h (by decide))).map
      merge).reader (by simp) _
  | input s =>
    exact ((Record.recalls_pair (recalls_any h) (recalls_text? ns s.path)).map
      input).reader (by simp) _
  | output s =>
    exact (((Record.recalls_fieldOr _ _ (recalls_text s.format)).map
      OutputSettings.mk).map output).reader (by simp) _
  | transform s =>
    have hoperator : Recalls ns (optional Operator.reader) (.ofText? (s.operator.map Operator.name))
        s.operator := by
      rw [Json.ofText?_eq, Option.map_map]
      exact recalls_optional s.operator (Operator.recalls ns) fun _ => rfl
    have hoperand : Recalls ns (Reader.optional Reader.double)
        (.ofOption (s.operand.map fun x => .number (.double x))) s.operand :=
      recalls_optional s.operand recalls_double fun _ => rfl
    exact ((((Record.recalls_triple (s.transformation.recalls ns) (recalls_text s.jsonPath)
      (recalls_text? ns s.template)).seq (Record.recalls_fieldOr _ _ hoperator)).seq
      (Record.recalls_fieldOr _ _ hoperand)).map transform).reader (by simp) _

/-! ### The normal form -/

theorem toJson_eq (s : NodeSettings) : s.toJson =
    .object [("properties", .object s.toProperties), ("type", .string s.kind.tag)] := by
  have hkeys : "properties" < "type" := by decide
  simp [toJson, Json.record, Table.ofEntries, Table.insert, hkeys]

theorem drawn_toJson {s : NodeSettings} (h : s.Held ns) : s.toJson.Drawn ns :=
  Json.drawn_record (by
    simpa using ⟨Json.drawn_leaf trivial rfl, (recalls_toProperties h).drawn⟩)

/-- Accepted properties are accepted again as they are written, with the same settings and ports;
and when each double is read back as printed, so is the document that they are written in. -/
theorem propertiesNormalize {kind : NodeKind} {properties : Properties} {s : NodeSettings}
    (h : parse kind properties = .ok s) :
    s.toJson = .object [("properties", .object s.toProperties), ("type", .string kind.tag)] ∧
      parse kind s.toProperties = .ok s ∧
      (∀ id, ∃ node node', Node.build id kind properties = .ok node ∧
        Node.build id kind s.toProperties = .ok node' ∧ node.settings = s ∧ node'.settings = s ∧
          node'.inputs = node.inputs ∧ node'.outputs = node.outputs) ∧
      (Number.Ranged (Json.object properties).numbers → s.toJson.depth ≤ depthLimit →
        (Json.parse s.toJson.compact = .ok s.toJson ↔
          ∀ x, .double x ∈ s.toJson.numbers → x.ReadsBack)) := by
  obtain ⟨hread, hvalid⟩ := parse_eq_ok.mp h
  obtain rfl := kind_of_parse h
  have hheld := held_of_reader hread
  rw [Source.numbers_ofJson] at hheld
  have hagain : parse s.kind s.toProperties = .ok s :=
    parse_eq_ok.mpr ⟨(recalls_toProperties hheld).back 0, hvalid⟩
  refine ⟨toJson_eq s, hagain, fun id => ?_, fun hranged hdepth => ?_⟩
  · exact ⟨_, _, Node.build_eq_ok.mpr ⟨s, h, rfl⟩, Node.build_eq_ok.mpr ⟨s, hagain, rfl⟩,
      rfl, rfl, rfl, rfl⟩
  · have hregular := (drawn_toJson hheld).regular hranged
    rw [Json.parse_compact hregular.tabled hdepth, hregular.ranged.reread_iff]

/-- Properties of an input, one of them unknown and none of them the path. -/
def sparse : Properties :=
  [("defaultValue", .object [("k", .array [.number (.integer 1)])]), ("unknown", .null)]

/-- What they are read as. -/
def ofSparse : NodeSettings := .input ⟨.object [("k", .array [.number (.integer 1)])], none⟩

theorem sparse_propertiesNormalize :
    parse .input sparse = .ok ofSparse ∧
      ofSparse.toJson = .object [("properties", .object
        [("defaultValue", .object [("k", .array [.number (.integer 1)])]), ("path", .null)]),
        ("type", .string "data-input")] ∧
      parse .input ofSparse.toProperties = .ok ofSparse ∧
      (Number.Ranged (Json.object sparse).numbers ∧ ofSparse.toJson.depth ≤ depthLimit ∧
        Json.parse ofSparse.toJson.compact = .ok ofSparse.toJson) := by
  have hparse : parse .input sparse = .ok ofSparse := by decide +kernel
  have hranged : Number.Ranged (Json.object sparse).numbers := by
    simp [Number.Ranged, Number.InRange, sparse, Json.numbers, Json.itemNumbers, Json.fieldNumbers]
  have hdepth : ofSparse.toJson.depth ≤ depthLimit := by decide +kernel
  obtain ⟨hjson, hagain, -, htext⟩ := propertiesNormalize hparse
  have hproperties : ofSparse.toProperties =
      [("defaultValue", .object [("k", .array [.number (.integer 1)])]), ("path", .null)] := by
    decide +kernel
  have hnumbers : ∀ x, .double x ∉ ofSparse.toJson.numbers := by
    rw [hjson, hproperties]
    simp [Json.numbers, Json.itemNumbers, Json.fieldNumbers]
  refine ⟨hparse, hproperties ▸ hjson, hagain, hranged, hdepth, (htext hranged hdepth).mpr ?_⟩
  exact fun x hx => absurd hx (hnumbers x)

end NodeSettings

end PortGraph
