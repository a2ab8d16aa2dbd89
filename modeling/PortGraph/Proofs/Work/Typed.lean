import PortGraph.Execution.Loop
import PortGraph.Proofs.Port.Conversion
import PortGraph.Proofs.Results
import PortGraph.Proofs.Tables
import PortGraph.Work.Builtin

/-!
Inputs whose values have the types of their ports. A value that was converted for a port has the type
of the port, so the workers that are built in never find a value of another type than they need.
-/

namespace PortGraph

open Conversion

/-! ### Errors of a value of another type -/

/-- The input has a value of another type than is expected of it. -/
def NodeError.Mismatch (e : NodeError) : Prop :=
  ∃ port rest, e = .invalidInput port ("expected a" ++ rest)

/-- Whatever a computation fails of, it is not the type of a value. -/
def Untroubled {α : Type} (x : Except NodeError α) : Prop := ∀ e, x = .error e → ¬ e.Mismatch

namespace Untroubled

variable {α β : Type} {x : Except NodeError α}

theorem ok (a : α) : Untroubled (.ok a) := by
  intro e h
  simp at h

theorem failed (reason : String) : Untroubled (.error (.failed reason) : Except NodeError α) := by
  intro e h
  rw [← Except.error.inj h]
  rintro ⟨port, rest, heq⟩
  simp at heq

/-- Inputs are rejected for other reasons too. -/
theorem invalidInput {port reason : String} (h : reason.toList.head? ≠ some 'e') :
    Untroubled (.error (.invalidInput port reason) : Except NodeError α) := by
  intro e he
  rw [← Except.error.inj he]
  rintro ⟨port', rest, heq⟩
  obtain ⟨-, rfl⟩ := NodeError.invalidInput.inj heq
  simp at h

theorem bind {f : α → Except NodeError β} (hx : Untroubled x) (hf : ∀ a, Untroubled (f a)) :
    Untroubled (x >>= f) :=
  FailsOnly.bind hx hf

theorem map {f : α → β} (hx : Untroubled x) : Untroubled (x.map f) := FailsOnly.map hx

theorem mapM {f : α → Except NodeError β} (hf : ∀ a, Untroubled (f a)) (l : List α) :
    Untroubled (l.mapM f) :=
  FailsOnly.mapM hf l

end Untroubled

/-! ### Reading the inputs -/

namespace PortValues

variable {inputs : PortValues} {q : String}

theorem untroubled_text (h : Conforms (inputs.value q) .string) :
    Untroubled (inputs.text q) := by
  unfold text
  rcases h.string with hnull | ⟨s, hs⟩
  · rw [hnull]
    exact .invalidInput (by simp)
  · rw [hs]
    exact .ok s

theorem untroubled_fileText (h : Conforms (inputs.value q) .file) :
    Untroubled (inputs.fileText q) := by
  unfold fileText
  rcases h.file with hnull | ⟨s, hs⟩ | ⟨fields, hfields⟩
  · rw [hnull]
    exact .invalidInput (by simp)
  · rw [hs]
    exact .ok s
  · rw [hfields]
    dsimp only
    split
    · exact .ok _
    · exact .invalidInput (by simp)

theorem untroubled_file (h : Conforms (inputs.value q) .file) : Untroubled (inputs.file q) := by
  refine (untroubled_fileText h).bind fun s => ?_
  cases Base64.decode (String.ofList (Text.trim s.toList)) with
  | ok bytes => exact .ok bytes
  | error fault => exact .invalidInput (by simp [toString])

theorem objectOrEmpty_ok (h : Conforms (inputs.value q) .object) :
    ∃ v, inputs.objectOrEmpty q = .ok v := by
  unfold objectOrEmpty
  rcases h.object with hnull | ⟨fields, hfields⟩
  · exact ⟨_, by rw [hnull]⟩
  · exact ⟨_, by rw [hfields]⟩

theorem truth_ok (h : Conforms (inputs.value q) .boolean) : ∃ holds, inputs.truth q = .ok holds := by
  unfold truth
  rcases h.boolean with hnull | ⟨b, hb⟩
  · exact ⟨_, by rw [hnull]⟩
  · exact ⟨_, by rw [hb]⟩

end PortValues

/-- What a loop goes through is there, or nothing is. -/
theorem Looping.untroubled_itemsOf {inputs : PortValues}
    (h : Conforms (inputs.value PortName.collection) .array) :
    Untroubled (Looping.itemsOf inputs) := by
  unfold Looping.itemsOf
  rcases h.array with hnull | ⟨items, hitems⟩
  · rw [hnull]
    exact .invalidInput (by simp)
  · rw [hitems]
    exact .ok items

/-! ### Inputs of a node -/

/-- Each value stands at an input of the node and has the type of it. -/
def Node.WellTyped (node : Node) (inputs : PortValues) : Prop :=
  ∀ q v, inputs.find? q = some v → ∃ port, node.input? q = some port ∧ Conforms v port.type

namespace Node.WellTyped

variable {node : Node} {inputs : PortValues}

theorem value (h : node.WellTyped inputs) {q : String} {port : Port}
    (hport : node.input? q = some port) : Conforms (inputs.value q) port.type := by
  unfold PortValues.value
  cases hfind : inputs.find? q with
  | none => trivial
  | some v =>
    obtain ⟨port', hport', hv⟩ := h q v hfind
    obtain rfl := Option.some.inj (hport.symm.trans hport')
    exact hv

/-- A value that was converted for an input keeps the inputs well typed. -/
theorem insert (h : node.WellTyped inputs) {q : String} {port : Port}
    (hport : node.input? q = some port) {v w : Json} {applied : Option (PortType × PortType)}
    (hconvert : convert v port.type = .ok (w, applied)) : node.WellTyped (inputs.insert q w) := by
  intro q' v' hfind
  rw [Table.find?_insert] at hfind
  split_ifs at hfind with heq
  · obtain rfl := Option.some.inj hfind
    subst heq
    exact ⟨port, hport, conforms_of_convert hconvert⟩
  · exact h q' v' hfind

end Node.WellTyped

/-! ### Workers -/

namespace Worker

variable {node : Node} {inputs : PortValues}

theorem untroubled_merge (s : MergeSettings) (inputs : PortValues) :
    Untroubled (Merge.merge s inputs) := by
  have hfields : ∀ e, Untroubled (Merge.fields e) := by
    intro e
    unfold Merge.fields
    split
    · exact .ok _
    · exact .invalidInput (by simp)
  unfold Merge.merge
  split
  · exact .ok _
  · split
    · exact .ok _
    · exact (Untroubled.mapM hfields _).map
    · exact .ok _

theorem untroubled_operand (v : Json) : Untroubled (Transform.operand v) := by
  unfold Transform.operand
  split
  · exact .ok _
  · split
    · exact .ok _
    · exact .invalidInput (by simp [toString])
  · exact .invalidInput (by simp [toString])

theorem untroubled_arithmetic (op : Operator) (x : Binary64) (v : Json) :
    Untroubled (Transform.arithmetic op x v) := by
  refine (untroubled_operand v).bind fun n => ?_
  split
  · split
    · split_ifs <;> exact .ok _
    · exact .ok _
  · exact .failed _
  · exact .failed _

theorem untroubled_transform (s : TransformSettings) (v : Json) :
    Untroubled (Transform.apply s v) := by
  unfold Transform.apply
  split
  · exact .ok _
  · split
    · exact .ok _
    · exact .failed _
  · split
    · exact .ok _
    · exact .failed _
  · split
    · exact untroubled_arithmetic _ _ _
    · exact .failed _

theorem untroubled_entered (s : InputSettings) (input : Json) : Untroubled (entered s input) := by
  unfold entered
  cases s.path with
  | none => exact .ok _
  | some expression =>
    dsimp only
    cases Path.parse expression with
    | error e => exact .failed _
    | ok path => exact .ok _

section Begin

variable (hports : node.inputs = node.settings.inputs) (htyped : node.WellTyped inputs)
include hports htyped

/-- A worker that is built in finds at each input what it needs, or nothing. -/
theorem untroubled_begin {w : Worker} (hw : builtin node.kind = some w) (input : Json) :
    Untroubled (w.begin node inputs input) := by
  -- what stands at an input that the settings have
  have hvalue : ∀ {q : String} {t : PortType}, (node.settings.inputs.find? fun p => p.name == q) =
      some ⟨q, t⟩ → Conforms (inputs.value q) t := by
    intro q t hport
    rw [← hports] at hport
    exact htyped.value hport
  have text : ∀ {q : String}, (node.settings.inputs.find? fun p => p.name == q) =
      some ⟨q, .string⟩ → Untroubled (inputs.text q) :=
    fun hport => PortValues.untroubled_text (hvalue hport)
  have object : ∀ {q : String}, (node.settings.inputs.find? fun p => p.name == q) =
      some ⟨q, .object⟩ → Untroubled (inputs.objectOrEmpty q) := by
    intro q hport
    obtain ⟨v, hv⟩ := PortValues.objectOrEmpty_ok (hvalue hport)
    rw [hv]
    exact .ok v
  unfold Node.kind at hw
  cases hsettings : node.settings <;> rw [hsettings] at hw hvalue text object <;> cases hw
  case text =>
    simp only [asking, beginText, hsettings]
    exact (text rfl).bind fun _ => .ok _
  case image =>
    simp only [asking, beginImage, hsettings]
    exact (PortValues.untroubled_file (hvalue rfl)).bind fun _ => .ok _
  case speech =>
    simp only [asking, beginSpeech, hsettings]
    exact (PortValues.untroubled_file (hvalue rfl)).bind fun _ => .ok _
  case translate =>
    simp only [asking, beginTranslate, hsettings]
    exact (text rfl).bind fun _ => .ok _
  case sentiment =>
    simp only [asking, beginSentiment, hsettings]
    exact (text rfl).bind fun _ => .ok _
  case email =>
    simp only [asking, beginEmail, hsettings]
    exact (text rfl).bind fun _ => (text rfl).bind fun _ => (text rfl).bind fun _ => .ok _
  case chat =>
    simp only [asking, beginChat, hsettings]
    exact (text rfl).bind fun _ => (text rfl).bind fun _ => .ok _
  case webhook =>
    simp only [asking, beginWebhook, hsettings]
    exact (object rfl).bind fun _ => .ok _
  case flow =>
    simp only [asking, beginFlow, hsettings]
    exact (object rfl).bind fun _ => .ok _
  case condition =>
    obtain ⟨holds, htruth⟩ := PortValues.truth_ok (hvalue (q := PortName.condition) rfl)
    simp only [computing, beginCondition, hsettings, htruth]
    exact .ok _
  case merge s =>
    simp only [computing, beginMerge, hsettings]
    exact (untroubled_merge s inputs).map
  case input s =>
    simp only [computing, beginInput, hsettings]
    exact (untroubled_entered s input).map
  case output =>
    simp only [computing, beginOutput, hsettings]
    exact .ok _
  case transform s =>
    simp only [computing, beginTransform, hsettings]
    exact (untroubled_transform s _).map

end Begin

end Worker

end PortGraph
