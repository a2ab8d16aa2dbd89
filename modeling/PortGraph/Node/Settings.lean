import PortGraph.Json.Basic
import PortGraph.Node.Kind

/-!
What can be set on a node, kind by kind, with the values that hold when nothing is set.
-/

namespace PortGraph

structure TextSettings where
  model : String := "gpt-3.5-turbo"
  maxTokens : Nat := 150
  temperature : Binary64 := ⟨false, 6305039478318694, -53⟩
deriving DecidableEq

structure ImageSettings where
  provider : String := "azure"
  features : List String := ["description", "tags", "objects"]
deriving DecidableEq

structure SpeechSettings where
  language : String := "en-US"
  provider : String := "azure"
deriving DecidableEq

structure TranslateSettings where
  targetLanguage : String := "es"
  provider : String := "google"
deriving DecidableEq

structure SentimentSettings where
  provider : String := "azure"
  includeOpinions : Bool := true
deriving DecidableEq

structure EmailSettings where
  smtpServer : String := "smtp.gmail.com"
  port : Nat := 587
  enableSsl : Bool := true
deriving DecidableEq

structure ChatSettings where
  botToken : String := ""
  username : String := "Workflow Bot"
deriving DecidableEq

structure WebhookSettings where
  webhookUrl : String := ""
  method : String := "POST"
deriving DecidableEq

structure FlowSettings where
  flowUrl : String := ""
  triggerName : String := ""
deriving DecidableEq

structure ConditionSettings where
  /-- Whether a failure behind the condition counts as one that does not hold. -/
  errorAsFalse : Bool := false
deriving DecidableEq

structure LoopSettings where
  maxIterations : Nat := 100
  parallel : Bool := false
deriving DecidableEq

/-- How inputs are merged. -/
inductive MergeStrategy
  | concat
  | overlay
  | zip
deriving DecidableEq, Repr

structure MergeSettings where
  strategy : MergeStrategy := .concat
  inputCount : Nat := 2
deriving DecidableEq

structure InputSettings where
  defaultValue : Json := .string ""
  /-- Narrows the execution input. -/
  path : Option String := none
deriving DecidableEq

structure OutputSettings where
  format : String := "json"
deriving DecidableEq

inductive Transformation
  | identity
  | jsonPath
  | template
  | arithmetic
deriving DecidableEq, Repr

inductive Operator
  | add
  | subtract
  | multiply
  | divide
deriving DecidableEq, Repr

structure TransformSettings where
  transformation : Transformation := .identity
  jsonPath : String := "$"
  template : Option String := none
  operator : Option Operator := none
  operand : Option Binary64 := none
deriving DecidableEq

inductive NodeSettings
  | text (s : TextSettings)
  | image (s : ImageSettings)
  | speech (s : SpeechSettings)
  | translate (s : TranslateSettings)
  | sentiment (s : SentimentSettings)
  | email (s : EmailSettings)
  | chat (s : ChatSettings)
  | webhook (s : WebhookSettings)
  | flow (s : FlowSettings)
  | condition (s : ConditionSettings)
  | loop (s : LoopSettings)
  | merge (s : MergeSettings)
  | input (s : InputSettings)
  | output (s : OutputSettings)
  | transform (s : TransformSettings)
deriving DecidableEq

def NodeSettings.kind : NodeSettings → NodeKind
  | .text _ => .text
  | .image _ => .image
  | .speech _ => .speech
  | .translate _ => .translate
  | .sentiment _ => .sentiment
  | .email _ => .email
  | .chat _ => .chat
  | .webhook _ => .webhook
  | .flow _ => .flow
  | .condition _ => .condition
  | .loop _ => .loop
  | .merge _ => .merge
  | .input _ => .input
  | .output _ => .output
  | .transform _ => .transform

end PortGraph
