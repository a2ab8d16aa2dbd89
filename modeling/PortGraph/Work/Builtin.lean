import PortGraph.Work.Basic
import PortGraph.Work.Merge
import PortGraph.Work.Transform

/-!
The workers of the built-in kinds. Those that ask for a service repeat what failed in passing;
the others fail at once.
-/

namespace PortGraph.Worker

/-- The settings were made for another kind. -/
def wrongKind (node : Node) (expected : NodeKind) : NodeError :=
  .failed s!"node {node.id} is a {node.kind.tag} node, expected {expected.tag}"

def beginText (node : Node) (inputs : PortValues) : Except NodeError Action :=
  match node.settings with
  | .text s => do
      let prompt ← inputs.text "prompt"
      return .ask (.processText ⟨prompt, s.model, s.maxTokens, s.temperature⟩) (single "text")
  | _ => .error (wrongKind node .text)

def beginImage (node : Node) (inputs : PortValues) : Except NodeError Action :=
  match node.settings with
  | .image s => do
      let bytes ← inputs.file "image"
      return .ask (.analyzeImage bytes s.provider s.features) (single "analysis")
  | _ => .error (wrongKind node .image)

def beginSpeech (node : Node) (inputs : PortValues) : Except NodeError Action :=
  match node.settings with
  | .speech s => do
      let bytes ← inputs.file "audio"
      return .ask (.transcribe bytes s.language s.provider) (single "text")
  | _ => .error (wrongKind node .speech)

def beginTranslate (node : Node) (inputs : PortValues) : Except NodeError Action :=
  match node.settings with
  | .translate s => do
      let text ← inputs.text "text"
      return .ask (.translate text s.targetLanguage s.provider) (single "translated")
  | _ => .error (wrongKind node .translate)

def withoutOpinions : Json → Json
  | .object fields => .object (Table.erase fields "opinions")
  | v => v

def beginSentiment (node : Node) (inputs : PortValues) : Except NodeError Action :=
  match node.settings with
  | .sentiment s => do
      let text ← inputs.text "text"
      return .ask (.sentiment text s.provider) fun v =>
        single "sentiment" (if s.includeOpinions then v else withoutOpinions v)
  | _ => .error (wrongKind node .sentiment)

def beginEmail (node : Node) (inputs : PortValues) : Except NodeError Action :=
  match node.settings with
  | .email s => do
      let recipient ← inputs.text "to"
      let subject ← inputs.text "subject"
      let body ← inputs.text "body"
      return .ask (.sendEmail ⟨recipient, subject, body, s.smtpServer, s.port, s.enableSsl⟩)
        (single "status")
  | _ => .error (wrongKind node .email)

def beginChat (node : Node) (inputs : PortValues) : Except NodeError Action :=
  match node.settings with
  | .chat s => do
      let channel ← inputs.text "channel"
      let message ← inputs.text "message"
      return .ask (.postMessage channel message s.botToken s.username) (single "messageId")
  | _ => .error (wrongKind node .chat)

/-- The letters a to z in upper case, all else as it is. -/
def upperCase (s : String) : String := String.ofList (s.toList.map Char.toUpper)

def beginWebhook (node : Node) (inputs : PortValues) : Except NodeError Action :=
  match node.settings with
  | .webhook s => do
      let body ← inputs.objectOrEmpty "data"
      return .ask (.callWebhook s.webhookUrl (upperCase s.method) body) (single "response")
  | _ => .error (wrongKind node .webhook)

def beginFlow (node : Node) (inputs : PortValues) : Except NodeError Action :=
  match node.settings with
  | .flow s => do
      let trigger ← inputs.objectOrEmpty "trigger"
      let body :=
        if s.triggerName.isEmpty then trigger
        else .record [("triggerName", .string s.triggerName), ("data", trigger)]
      return .ask (.callWebhook s.flowUrl "POST" body) (single "result")
  | _ => .error (wrongKind node .flow)

/-- The value at the port of the branch taken. -/
def beginCondition (node : Node) (inputs : PortValues) : Except NodeError Action :=
  match node.settings with
  | .condition _ => do
      let holds ← inputs.truth PortName.condition
      let port := if holds then PortName.trueValue else PortName.falseValue
      return .finish (single "result" (inputs.value port))
  | _ => .error (wrongKind node .condition)

def beginMerge (node : Node) (inputs : PortValues) : Except NodeError Action :=
  match node.settings with
  | .merge s => (Merge.merge s inputs).map fun v => .finish (single "merged" v)
  | _ => .error (wrongKind node .merge)

/-- The execution input, or what the path selects in it, or the default in place of null. -/
def entered (s : InputSettings) (input : Json) : Except NodeError Json := do
  let selected ← match s.path with
    | none => .ok input
    | some expression =>
        match Path.parse expression with
        | .ok path => .ok (.ofOption (path.select? input))
        | .error e => .error (.failed e.message)
  return if selected.isNull then s.defaultValue else selected

def beginInput (node : Node) (input : Json) : Except NodeError Action :=
  match node.settings with
  | .input s => (entered s input).map fun v => .finish (single "value" v)
  | _ => .error (wrongKind node .input)

/-- An output has no ports: its value is read from its input. -/
def beginOutput (node : Node) : Except NodeError Action :=
  match node.settings with
  | .output _ => .ok (.finish [])
  | _ => .error (wrongKind node .output)

def beginTransform (node : Node) (inputs : PortValues) : Except NodeError Action :=
  match node.settings with
  | .transform s =>
      (Transform.apply s (inputs.value "input")).map fun v => .finish (single "output" v)
  | _ => .error (wrongKind node .transform)

/-- An email that could not be sent in passing is reported as not sent. -/
def unsent (e : NodeError) : Option PortValues :=
  if e.isTransient then some (single "status" (.bool false)) else none

def asking (begin : Node → PortValues → Except NodeError Action) : Worker :=
  ⟨fun node inputs _ => begin node inputs, some .external, fun _ => none⟩

def computing (begin : Node → PortValues → Json → Except NodeError Action) : Worker :=
  ⟨begin, none, fun _ => none⟩

def builtin : Registry
  | .text => some (asking beginText)
  | .image => some (asking beginImage)
  | .speech => some (asking beginSpeech)
  | .translate => some (asking beginTranslate)
  | .sentiment => some (asking beginSentiment)
  | .email => some { asking beginEmail with fallback := unsent }
  | .chat => some (asking beginChat)
  | .webhook => some (asking beginWebhook)
  | .flow => some (asking beginFlow)
  | .condition => some (computing fun node inputs _ => beginCondition node inputs)
  | .loop => none
  | .merge => some (computing fun node inputs _ => beginMerge node inputs)
  | .input => some (computing fun node _ input => beginInput node input)
  | .output => some (computing fun node _ _ => beginOutput node)
  | .transform => some (computing fun node inputs _ => beginTransform node inputs)

/-- The built-in workers of the given kinds only. -/
def only (kinds : List NodeKind) : Registry := fun k => if kinds.contains k then builtin k else none

end PortGraph.Worker
