import PortGraph.Proofs.Node.Settings
import PortGraph.Proofs.Work.Templates
import PortGraph.Work.Builtin

/-!
What a node that was built can be relied on for when it runs. Its settings are those of its kind, and
they have all that the work of the kind needs; what may still fail is what comes in, a template whose
tokens are no paths, or a result too large for a double.
-/

namespace PortGraph

namespace NodeSettings

@[simp] theorem when_eq_nil {fault : Prop} [Decidable fault] {c : Complaint} :
    when fault c = [] ↔ ¬ fault := by
  unfold when
  split_ifs with h <;> simp [h]

theorem pathFaults_eq_nil {expression : String} :
    pathFaults expression = [] ↔ ∃ path, Path.parse expression = .ok path := by
  unfold pathFaults
  cases Path.parse expression <;> simp

end NodeSettings

/-- A transformation has all that it works with. -/
inductive TransformSettings.Complete (s : TransformSettings) : Prop
  | identity (h : s.transformation = .identity)
  | jsonPath {path : Path} (h : s.transformation = .jsonPath)
      (hpath : Path.parse s.jsonPath = .ok path)
  | template {template : String} (h : s.transformation = .template)
      (htemplate : s.template = some template)
  | arithmetic {op : Operator} {x : Binary64} (h : s.transformation = .arithmetic)
      (hop : s.operator = some op) (hx : s.operand = some x)
      (hzero : op = .divide → x.isZero = false)

theorem TransformSettings.complete_of_complaints {s : TransformSettings}
    (h : NodeSettings.transformComplaints s = []) : s.Complete := by
  unfold NodeSettings.transformComplaints at h
  split at h
  · exact .identity ‹_›
  · obtain ⟨path, hpath⟩ := NodeSettings.pathFaults_eq_nil.mp h
    exact .jsonPath ‹_› hpath
  · obtain ⟨template, htemplate⟩ := Option.ne_none_iff_exists'.mp (NodeSettings.when_eq_nil.mp h)
    exact .template ‹_› htemplate
  · obtain ⟨hop, hx⟩ := List.append_eq_nil_iff.mp h
    obtain ⟨op, hop⟩ := Option.ne_none_iff_exists'.mp (NodeSettings.when_eq_nil.mp hop)
    cases hoperand : s.operand with
    | none => simp [hoperand] at hx
    | some x =>
      refine .arithmetic ‹_› hop hoperand fun hdivide => ?_
      simpa [hoperand, hop, hdivide] using hx

/-! ### What may fail -/

namespace Template

/-- A template fails at its first token that is no path. -/
theorem render_eq_error {template : String} {v : Json} {e : Path.Error} :
    render template v = .error e ↔ ∃ before expression after,
      pieces template.toList = before ++ .token expression :: after ∧
        (∀ piece ∈ before, piece.Readable) ∧
          Path.parse (String.ofList expression) = .error e := by
  have hrender : render template v = .error e ↔
      (pieces template.toList).mapM (Piece.render v) = .error e := by
    unfold render
    cases (pieces template.toList).mapM (Piece.render v) <;> simp [Except.map]
  rw [hrender, mapM_eq_error]
  constructor
  · rintro ⟨before, piece, after, hpieces, hbefore, hpiece⟩
    have hreadable : ∀ piece ∈ before, piece.Readable := fun piece hp =>
      (hbefore piece hp).elim fun _ hok => Piece.readable_of_render hok
    cases piece with
    | literal cs => simp [Piece.render] at hpiece
    | token expression =>
      refine ⟨before, expression, after, hpieces, hreadable, ?_⟩
      cases hparse : Path.parse (String.ofList expression) with
      | ok path => simp [Piece.render, hparse, Except.map] at hpiece
      | error e' => simpa [Piece.render, hparse, Except.map] using hpiece
  · rintro ⟨before, expression, after, hpieces, hbefore, hparse⟩
    refine ⟨before, .token expression, after, hpieces, fun piece hp => ?_, ?_⟩
    · exact ⟨_, (hbefore piece hp).render⟩
    · simp [Piece.render, hparse, Except.map]

end Template

namespace Transform

/-- The value is neither a number nor the text of one; the reason says which. -/
inductive NoNumber : Json → String → Prop
  | text {s : String} (h : Binary64.ofText? (Text.trim s.toList) = none) :
      NoNumber (.string s) s!"'{s}' is not a number"
  | other {v : Json} (hnumber : ∀ n, v ≠ .number n) (htext : ∀ s, v ≠ .string s) :
      NoNumber v s!"arithmetic needs a number, got {v.compact}"

theorem operand_eq_error {v : Json} {e : NodeError} : operand v = .error e ↔
    ∃ reason, NoNumber v reason ∧ e = .invalidInput "input" reason := by
  unfold operand
  constructor
  · intro h
    split at h
    · simp at h
    · split at h
      · simp at h
      · exact ⟨_, .text ‹_›, (Except.error.inj h).symm⟩
    · exact ⟨_, .other (by simpa using ‹_›) (by simpa using ‹_›), (Except.error.inj h).symm⟩
  · rintro ⟨reason, hreason, rfl⟩
    cases hreason with
    | text h => simp [h]
    | other hnumber htext =>
      split
      · exact absurd rfl (hnumber _)
      · exact absurd rfl (htext _)
      · rfl

/-- What arithmetic says of a result that is too large. -/
def overflow (negative : Bool) : NodeError :=
  .failed (if negative then "arithmetic produced -inf" else "arithmetic produced inf")

/-- Only a quotient by zero is undefined. -/
theorem operation_ne_undefined {op : Operator} {x : Binary64}
    (h : op = .divide → x.isZero = false) (y : Binary64) : operation op y x ≠ .undefined := by
  have hrounded : ∀ negative num den, Binary64.rounded negative num den ≠ .undefined := by
    intro negative num den
    unfold Binary64.rounded
    split <;> simp
  have hadd : ∀ z, Binary64.add y z ≠ .undefined := by
    intro z
    unfold Binary64.add
    dsimp only
    split_ifs
    · simp
    · exact hrounded _ _ _
    · exact hrounded _ _ _
  cases op with
  | add => exact hadd x
  | subtract => exact hadd x.neg
  | multiply => exact hrounded _ _ _
  | divide =>
    simp only [operation, Binary64.div, h rfl, Bool.false_eq_true, if_false]
    exact hrounded _ _ _

theorem arithmetic_eq_error {op : Operator} {x : Binary64} (h : op = .divide → x.isZero = false)
    {v : Json} {e : NodeError} : arithmetic op x v = .error e ↔
      (∃ reason, NoNumber v reason ∧ e = .invalidInput "input" reason) ∨
        ∃ n negative, operand v = .ok n ∧ operation op n.toDouble x = .infinite negative ∧
          e = overflow negative := by
  unfold arithmetic
  rw [← operand_eq_error]
  cases hn : operand v with
  | error e' => simp [bind, Except.bind]
  | ok n =>
    rw [ok_bind]
    cases hresult : operation op n.toDouble x with
    | finite r =>
      constructor
      · intro herror
        dsimp only at herror
        split at herror
        · split_ifs at herror <;> simp [pure, Except.pure] at herror
        · simp [pure, Except.pure] at herror
      · rintro (herror | ⟨_, negative, ⟨⟩, hinfinite, -⟩)
        · simp at herror
        · rw [hresult] at hinfinite
          cases hinfinite
    | infinite negative =>
      constructor
      · intro herror
        exact Or.inr ⟨n, negative, rfl, hresult, (Except.error.inj herror).symm⟩
      · rintro (herror | ⟨_, negative', ⟨⟩, hinfinite, rfl⟩)
        · simp at herror
        · rw [hresult] at hinfinite
          cases hinfinite
          rfl
    | undefined => exact absurd hresult (operation_ne_undefined h _)

/-- The failures that are left to a transformation whose settings are complete. -/
inductive Fails (s : TransformSettings) (v : Json) : NodeError → Prop
  /-- A token of the template is no path, and those before it are. -/
  | token {template : String} {before after : List Template.Piece} {expression : List Char}
      {e : Path.Error} (h : s.transformation = .template) (htemplate : s.template = some template)
      (hpieces : Template.pieces template.toList = before ++ .token expression :: after)
      (hbefore : ∀ piece ∈ before, piece.Readable)
      (hparse : Path.parse (String.ofList expression) = .error e) :
      Fails s v (.failed s!"template token: {e.message}")
  | input {reason : String} (h : s.transformation = .arithmetic) (hinput : NoNumber v reason) :
      Fails s v (.invalidInput "input" reason)
  | overflow {op : Operator} {x : Binary64} {n : Number} {negative : Bool}
      (h : s.transformation = .arithmetic) (hop : s.operator = some op) (hx : s.operand = some x)
      (hn : operand v = .ok n) (hresult : operation op n.toDouble x = .infinite negative) :
      Fails s v (overflow negative)

theorem apply_eq_error {s : TransformSettings} (hs : s.Complete) {v : Json} {e : NodeError} :
    apply s v = .error e ↔ Fails s v e := by
  unfold apply
  cases hs with
  | identity h =>
    rw [h]
    exact ⟨fun herror => by simp at herror, fun hfails => by cases hfails <;> simp_all⟩
  | jsonPath h hpath =>
    rw [h]
    dsimp only
    rw [hpath]
    exact ⟨fun herror => by simp at herror, fun hfails => by cases hfails <;> simp_all⟩
  | @template template h htemplate =>
    rw [h]
    dsimp only
    rw [htemplate, Option.getD_some]
    constructor
    · intro herror
      cases hrender : Template.render template v with
      | ok text => simp [hrender] at herror
      | error e' =>
        obtain ⟨before, expression, after, hpieces, hbefore, hparse⟩ :=
          Template.render_eq_error.mp hrender
        rw [hrender] at herror
        obtain rfl := Except.error.inj herror
        exact .token h htemplate hpieces hbefore hparse
    · intro hfails
      cases hfails with
      | token _ htemplate' hpieces hbefore hparse =>
        obtain rfl := Option.some.inj (htemplate.symm.trans htemplate')
        rw [Template.render_eq_error.mpr ⟨_, _, _, hpieces, hbefore, hparse⟩]
      | input h' _ => simp [h] at h'
      | overflow h' _ _ _ _ => simp [h] at h'
  | @arithmetic op x h hop hx hzero =>
    rw [h]
    dsimp only
    rw [hop, hx]
    dsimp only
    rw [arithmetic_eq_error hzero]
    constructor
    · rintro (⟨reason, hreason, rfl⟩ | ⟨n, negative, hn, hresult, rfl⟩)
      · exact .input h hreason
      · exact .overflow h hop hx hn hresult
    · intro hfails
      cases hfails with
      | token h' _ _ _ _ => simp [h] at h'
      | input _ hinput => exact Or.inl ⟨_, hinput, rfl⟩
      | @overflow op' x' n negative _ hop' hx' hn hresult =>
        obtain rfl := Option.some.inj (hop.symm.trans hop')
        obtain rfl := Option.some.inj (hx.symm.trans hx')
        exact Or.inr ⟨n, negative, hn, hresult, rfl⟩

end Transform

/-! ### Work on a node of the right kind -/

/-- An input is to blame. -/
def NodeError.OfInput (e : NodeError) : Prop := ∃ port reason, e = .invalidInput port reason

theorem failsOnly_invalidInput {α : Type} (port reason : String) :
    FailsOnly NodeError.OfInput (.error (.invalidInput port reason) : Except NodeError α) :=
  .error ⟨port, reason, rfl⟩

namespace PortValues

theorem failsOnly_text (inputs : PortValues) (port : String) :
    FailsOnly NodeError.OfInput (inputs.text port) := by
  unfold text
  split
  · exact .ok _
  · exact failsOnly_invalidInput _ _
  · exact failsOnly_invalidInput _ _

theorem failsOnly_objectOrEmpty (inputs : PortValues) (port : String) :
    FailsOnly NodeError.OfInput (inputs.objectOrEmpty port) := by
  unfold objectOrEmpty
  split
  · exact .ok _
  · exact .ok _
  · exact failsOnly_invalidInput _ _

theorem failsOnly_truth (inputs : PortValues) (port : String) :
    FailsOnly NodeError.OfInput (inputs.truth port) := by
  unfold truth
  split
  · exact .ok _
  · exact .ok _
  · exact failsOnly_invalidInput _ _

theorem failsOnly_file (inputs : PortValues) (port : String) :
    FailsOnly NodeError.OfInput (inputs.file port) := by
  have htext : FailsOnly NodeError.OfInput (inputs.fileText port) := by
    unfold fileText
    split
    · exact .ok _
    · split
      · exact .ok _
      · exact failsOnly_invalidInput _ _
    · exact failsOnly_invalidInput _ _
    · exact failsOnly_invalidInput _ _
  refine htext.bind fun s => ?_
  cases Base64.decode (String.ofList (Text.trim s.toList)) with
  | ok bytes => exact .ok _
  | error e => exact failsOnly_invalidInput _ _

end PortValues

theorem Merge.failsOnly_merge (s : MergeSettings) (inputs : PortValues) :
    FailsOnly NodeError.OfInput (Merge.merge s inputs) := by
  have hfields : ∀ e, FailsOnly NodeError.OfInput (Merge.fields e) := by
    intro e
    unfold Merge.fields
    split
    · exact .ok _
    · exact failsOnly_invalidInput _ _
  unfold Merge.merge
  split
  · exact .ok _
  · split
    · exact .ok _
    · exact (FailsOnly.mapM hfields _).map
    · exact .ok _

namespace Worker

variable {node : Node} {w : Worker}

/-- Of the built-in workers only one that transforms can fail for another reason than an input. -/
theorem failsOnly_begin (hw : builtin node.kind = some w) (inputs : PortValues) (input : Json)
    (hinput : node.kind ≠ .input) (htransform : node.kind ≠ .transform) :
    FailsOnly NodeError.OfInput (w.begin node inputs input) := by
  unfold Node.kind at hw hinput htransform
  cases hsettings : node.settings <;> rw [hsettings] at hw hinput htransform <;> cases hw
  case text =>
    simp only [asking, beginText, hsettings]
    exact (inputs.failsOnly_text _).bind fun _ => .ok _
  case image =>
    simp only [asking, beginImage, hsettings]
    exact (inputs.failsOnly_file _).bind fun _ => .ok _
  case speech =>
    simp only [asking, beginSpeech, hsettings]
    exact (inputs.failsOnly_file _).bind fun _ => .ok _
  case translate =>
    simp only [asking, beginTranslate, hsettings]
    exact (inputs.failsOnly_text _).bind fun _ => .ok _
  case sentiment =>
    simp only [asking, beginSentiment, hsettings]
    exact (inputs.failsOnly_text _).bind fun _ => .ok _
  case email =>
    simp only [asking, beginEmail, hsettings]
    exact (inputs.failsOnly_text _).bind fun _ => (inputs.failsOnly_text _).bind fun _ =>
      (inputs.failsOnly_text _).bind fun _ => .ok _
  case chat =>
    simp only [asking, beginChat, hsettings]
    exact (inputs.failsOnly_text _).bind fun _ => (inputs.failsOnly_text _).bind fun _ => .ok _
  case webhook =>
    simp only [asking, beginWebhook, hsettings]
    exact (inputs.failsOnly_objectOrEmpty _).bind fun _ => .ok _
  case flow =>
    simp only [asking, beginFlow, hsettings]
    exact (inputs.failsOnly_objectOrEmpty _).bind fun _ => .ok _
  case condition =>
    simp only [computing, beginCondition, hsettings]
    exact (inputs.failsOnly_truth _).bind fun _ => .ok _
  case merge s =>
    simp only [computing, beginMerge, hsettings]
    exact (Merge.failsOnly_merge s inputs).map
  case input => exact absurd rfl hinput
  case output =>
    simp only [computing, beginOutput, hsettings]
    exact .ok _
  case transform => exact absurd rfl htransform

/-- A transformation never says that its settings were made for another kind. -/
theorem ne_wrongKind_of_fails {s : TransformSettings} {v : Json} {e : NodeError}
    (h : Transform.Fails s v e) (node : Node) (expected : NodeKind) : e ≠ wrongKind node expected := by
  -- a wrong kind is told of a node, and no reason of a transformation starts so
  have hhead : ∀ {reason : String}, reason.toList.head? ≠ some 'n' →
      NodeError.failed reason ≠ wrongKind node expected := by
    intro reason hreason heq
    rw [NodeError.failed.inj heq] at hreason
    exact hreason (by simp [toString])
  cases h with
  | token _ _ _ _ _ => exact hhead (by simp [toString])
  | input _ _ => simp [wrongKind]
  | @overflow _ _ _ negative _ _ _ _ _ => exact hhead (by cases negative <;> decide)

theorem entered_ok {s : InputSettings}
    (h : ∀ expression, s.path = some expression → ∃ path, Path.parse expression = .ok path)
    (input : Json) : ∃ v, entered s input = .ok v := by
  unfold entered
  cases hpath : s.path with
  | none => exact ⟨_, rfl⟩
  | some expression =>
    obtain ⟨path, hparse⟩ := h expression hpath
    dsimp only
    rw [hparse]
    exact ⟨_, rfl⟩

theorem path_of_complaints {s : InputSettings} (h : (NodeSettings.input s).complaints = []) :
    ∀ expression, s.path = some expression → ∃ path, Path.parse expression = .ok path := by
  intro expression hpath
  rw [NodeSettings.complaints, hpath] at h
  exact NodeSettings.pathFaults_eq_nil.mp h

/-- The work on an input finishes. -/
theorem begin_input {s : InputSettings} (hsettings : node.settings = .input s)
    (h : ∀ expression, s.path = some expression → ∃ path, Path.parse expression = .ok path)
    (input : Json) : ∃ v, beginInput node input = .ok (.finish (single "value" v)) := by
  obtain ⟨v, hv⟩ := entered_ok h input
  refine ⟨v, ?_⟩
  rw [beginInput, hsettings]
  dsimp only
  rw [hv]
  rfl

theorem begin_transform {s : TransformSettings} (hsettings : node.settings = .transform s)
    (inputs : PortValues) : beginTransform node inputs =
      (Transform.apply s (inputs.value "input")).map fun v => .finish (single "output" v) := by
  rw [beginTransform, hsettings]

/-- What was asked of a service is not taken for a wrong kind either. -/
theorem settle_ne_wrongKind (outputs : Json → PortValues) (reply : Reply) (node : Node)
    (expected : NodeKind) : settle outputs reply ≠ .error (wrongKind node expected) := by
  cases reply with
  | ok v => simp [settle]
  | error fault =>
    unfold settle NodeError.ofFault wrongKind
    dsimp only
    split_ifs <;> simp

/-- A node that was built runs as its settings say. The work on an input always finishes, a
transformation fails just as `Transform.Fails` tells, the work of any other kind fails only of an
input, and no worker of the node's kind ever finds settings of another kind. -/
theorem builtNodesRun {id : NodeId} {kind : NodeKind} {properties : Properties} {node : Node}
    (h : Node.build id kind properties = .ok node) {w : Worker} (hw : builtin kind = some w)
    (inputs : PortValues) (input : Json) :
    (∀ expected, w.begin node inputs input ≠ .error (wrongKind node expected) ∧
      ∀ outputs reply, settle outputs reply ≠ .error (wrongKind node expected)) ∧
    (kind = .input → ∃ s v, node.settings = .input s ∧
      (∀ expression, s.path = some expression → ∃ path, Path.parse expression = .ok path) ∧
        w.begin node inputs input = .ok (.finish (single "value" v))) ∧
    (kind = .transform → ∃ s, node.settings = .transform s ∧ s.Complete ∧
      (∀ e, w.begin node inputs input = .error e ↔ Transform.Fails s (inputs.value "input") e) ∧
        ∀ a, w.begin node inputs input = .ok a → ∃ v, a = .finish (single "output" v)) ∧
    (kind ≠ .transform → FailsOnly NodeError.OfInput (w.begin node inputs input)) := by
  obtain ⟨s, hparse, rfl⟩ := Node.build_eq_ok.mp h
  obtain ⟨-, hvalid⟩ := NodeSettings.parse_eq_ok.mp hparse
  obtain rfl := NodeSettings.kind_of_parse hparse
  generalize hnode : (⟨id, s, properties, s.inputs, s.outputs⟩ : Node) = node
  have hsettings : node.settings = s := by rw [← hnode]
  have hinput : s.kind = .input → ∃ s v, node.settings = .input s ∧
      (∀ expression, s.path = some expression → ∃ path, Path.parse expression = .ok path) ∧
        w.begin node inputs input = .ok (.finish (single "value" v)) := by
    intro hkind
    cases s <;> cases hkind
    cases hw
    have hpath := path_of_complaints hvalid
    obtain ⟨v, hv⟩ := begin_input hsettings hpath input
    exact ⟨_, v, hsettings, hpath, hv⟩
  have htransform : s.kind = .transform → ∃ s, node.settings = .transform s ∧ s.Complete ∧
      (∀ e, w.begin node inputs input = .error e ↔ Transform.Fails s (inputs.value "input") e) ∧
        ∀ a, w.begin node inputs input = .ok a → ∃ v, a = .finish (single "output" v) := by
    intro hkind
    cases s <;> cases hkind
    cases hw
    have hcomplete := TransformSettings.complete_of_complaints hvalid
    refine ⟨_, hsettings, hcomplete, ?_⟩
    simp only [computing, begin_transform hsettings, ← Transform.apply_eq_error hcomplete]
    cases Transform.apply _ (inputs.value "input") <;> simp [Except.map, eq_comm]
  have hother : s.kind ≠ .transform → FailsOnly NodeError.OfInput (w.begin node inputs input) := by
    intro hkind
    by_cases hentry : s.kind = .input
    · obtain ⟨_, v, -, -, hv⟩ := hinput hentry
      rw [hv]
      exact .ok _
    · have hnodeKind : node.kind = s.kind := congrArg NodeSettings.kind hsettings
      rw [← hnodeKind] at hw hkind hentry
      exact failsOnly_begin hw inputs input hentry hkind
  refine ⟨fun expected => ⟨fun hwrong => ?_, fun outputs reply =>
    settle_ne_wrongKind outputs reply node expected⟩, hinput, htransform, hother⟩
  by_cases hkind : s.kind = .transform
  · obtain ⟨_, -, -, hfails, -⟩ := htransform hkind
    exact ne_wrongKind_of_fails ((hfails _).mp hwrong) node expected rfl
  · obtain ⟨port, reason, heq⟩ := hother hkind _ hwrong
    simp [wrongKind] at heq

/-- The properties of a node that halves its input. -/
def halving : Properties :=
  [("operand", .number (.integer 2)), ("operator", .string "divide"),
    ("transformation", .string "arithmetic")]

def halvingSettings : TransformSettings :=
  { transformation := .arithmetic, operator := some .divide,
    operand := some ⟨false, 4503599627370496, -51⟩ }

def halvingNode : Node :=
  ⟨"half", .transform halvingSettings, halving, [⟨"input", .any⟩], [⟨"output", .any⟩]⟩

/-- The properties of a node that takes a member of the execution input. -/
def narrowing : Properties := [("path", .string "$.a")]

def narrowingNode : Node :=
  ⟨"in", .input { path := some "$.a" }, narrowing, [], [⟨"value", .any⟩]⟩

theorem halving_builtNodesRun :
    (Node.build "half" .transform halving = .ok halvingNode ∧
      builtin .transform = some (computing fun node inputs _ => beginTransform node inputs)) ∧
    Transform.Fails halvingSettings (.string "x") (.invalidInput "input" "'x' is not a number") ∧
    beginTransform halvingNode [("input", .string "x")] =
      .error (.invalidInput "input" "'x' is not a number") ∧
    (Node.build "in" .input narrowing = .ok narrowingNode ∧
      builtin .input = some (computing fun node _ input => beginInput node input)) ∧
    (NodeKind.input ≠ .transform ∧
      FailsOnly NodeError.OfInput (beginInput narrowingNode .null)) ∧
    ∃ v, beginInput narrowingNode .null = .ok (.finish (single "value" v)) := by
  have hhalving : Node.build "half" .transform halving = .ok halvingNode := by decide +kernel
  have hnarrowing : Node.build "in" .input narrowing = .ok narrowingNode := by decide +kernel
  have hfails : Transform.Fails halvingSettings (.string "x")
      (.invalidInput "input" "'x' is not a number") :=
    .input rfl (.text (s := "x") (by decide +kernel))
  obtain ⟨-, -, htransform, -⟩ := builtNodesRun hhalving rfl [("input", .string "x")] .null
  obtain ⟨s, hsettings, -, hiff, -⟩ := htransform rfl
  obtain rfl : halvingSettings = s := NodeSettings.transform.inj hsettings
  obtain ⟨-, hinput, -, hother⟩ := builtNodesRun hnarrowing rfl [] .null
  obtain ⟨_, v, -, -, hv⟩ := hinput rfl
  exact ⟨⟨hhalving, rfl⟩, hfails, (hiff _).mpr hfails, ⟨hnarrowing, rfl⟩,
    ⟨by decide, hother (by decide)⟩, v, hv⟩

end Worker

end PortGraph
