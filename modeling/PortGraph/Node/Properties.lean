import PortGraph.Node.Settings

/-!
Settings as properties of a stored node: how each kind's properties are read, and how its settings
are written. Properties that a kind does not know are passed over.
-/

namespace PortGraph

abbrev Properties := Table Json

private def number (n : Nat) : Json := .ofNat n

private def double (x : Binary64) : Json := .number (.double x)

def TextSettings.record : Record TextSettings :=
  let d : TextSettings := {}
  TextSettings.mk <$> .fieldOr "model" Reader.text d.model
    <*> .fieldOr "maxTokens" Reader.nat32 d.maxTokens
    <*> .fieldOr "temperature" Reader.double d.temperature

def TextSettings.toProperties (s : TextSettings) : Properties :=
  .ofEntries [("model", .string s.model), ("maxTokens", number s.maxTokens),
    ("temperature", double s.temperature)]

def ImageSettings.record : Record ImageSettings :=
  let d : ImageSettings := {}
  ImageSettings.mk <$> .fieldOr "provider" Reader.text d.provider
    <*> .fieldOr "features" (Reader.list Reader.text) d.features

def ImageSettings.toProperties (s : ImageSettings) : Properties :=
  .ofEntries [("provider", .string s.provider), ("features", .ofTexts s.features)]

def SpeechSettings.record : Record SpeechSettings :=
  let d : SpeechSettings := {}
  SpeechSettings.mk <$> .fieldOr "language" Reader.text d.language
    <*> .fieldOr "provider" Reader.text d.provider

def SpeechSettings.toProperties (s : SpeechSettings) : Properties :=
  .ofEntries [("language", .string s.language), ("provider", .string s.provider)]

def TranslateSettings.record : Record TranslateSettings :=
  let d : TranslateSettings := {}
  TranslateSettings.mk <$> .fieldOr "targetLanguage" Reader.text d.targetLanguage
    <*> .fieldOr "provider" Reader.text d.provider

def TranslateSettings.toProperties (s : TranslateSettings) : Properties :=
  .ofEntries [("targetLanguage", .string s.targetLanguage), ("provider", .string s.provider)]

def SentimentSettings.record : Record SentimentSettings :=
  let d : SentimentSettings := {}
  SentimentSettings.mk <$> .fieldOr "provider" Reader.text d.provider
    <*> .fieldOr "includeOpinions" Reader.bool d.includeOpinions

def SentimentSettings.toProperties (s : SentimentSettings) : Properties :=
  .ofEntries [("provider", .string s.provider), ("includeOpinions", .bool s.includeOpinions)]

def EmailSettings.record : Record EmailSettings :=
  let d : EmailSettings := {}
  EmailSettings.mk <$> .fieldOr "smtpServer" Reader.text d.smtpServer
    <*> .fieldOr "port" Reader.nat16 d.port
    <*> .fieldOr "enableSsl" Reader.bool d.enableSsl

def EmailSettings.toProperties (s : EmailSettings) : Properties :=
  .ofEntries [("smtpServer", .string s.smtpServer), ("port", number s.port),
    ("enableSsl", .bool s.enableSsl)]

def ChatSettings.record : Record ChatSettings :=
  let d : ChatSettings := {}
  ChatSettings.mk <$> .fieldOr "botToken" Reader.text d.botToken
    <*> .fieldOr "username" Reader.text d.username

def ChatSettings.toProperties (s : ChatSettings) : Properties :=
  .ofEntries [("botToken", .string s.botToken), ("username", .string s.username)]

def WebhookSettings.record : Record WebhookSettings :=
  let d : WebhookSettings := {}
  WebhookSettings.mk <$> .fieldOr "webhookUrl" Reader.text d.webhookUrl
    <*> .fieldOr "method" Reader.text d.method

def WebhookSettings.toProperties (s : WebhookSettings) : Properties :=
  .ofEntries [("webhookUrl", .string s.webhookUrl), ("method", .string s.method)]

def FlowSettings.record : Record FlowSettings :=
  let d : FlowSettings := {}
  FlowSettings.mk <$> .fieldOr "flowUrl" Reader.text d.flowUrl
    <*> .fieldOr "triggerName" Reader.text d.triggerName

def FlowSettings.toProperties (s : FlowSettings) : Properties :=
  .ofEntries [("flowUrl", .string s.flowUrl), ("triggerName", .string s.triggerName)]

def ConditionSettings.record : Record ConditionSettings :=
  let d : ConditionSettings := {}
  ConditionSettings.mk <$> .fieldOr "errorAsFalse" Reader.bool d.errorAsFalse

def ConditionSettings.toProperties (s : ConditionSettings) : Properties :=
  .ofEntries [("errorAsFalse", .bool s.errorAsFalse)]

def LoopSettings.record : Record LoopSettings :=
  let d : LoopSettings := {}
  LoopSettings.mk <$> .fieldOr "maxIterations" Reader.nat32 d.maxIterations
    <*> .fieldOr "parallel" Reader.bool d.parallel

def LoopSettings.toProperties (s : LoopSettings) : Properties :=
  .ofEntries [("maxIterations", number s.maxIterations), ("parallel", .bool s.parallel)]

namespace MergeStrategy

def name : MergeStrategy → String
  | .concat => "concat"
  | .overlay => "overlay"
  | .zip => "zip"

def reader : Reader MergeStrategy :=
  Reader.choice ([concat, overlay, zip].map fun s => (s.name, s))

end MergeStrategy

def MergeSettings.record : Record MergeSettings :=
  let d : MergeSettings := {}
  MergeSettings.mk <$> .fieldOr "mergeStrategy" MergeStrategy.reader d.strategy
    <*> .fieldOr "inputCount" Reader.count d.inputCount

def MergeSettings.toProperties (s : MergeSettings) : Properties :=
  .ofEntries [("mergeStrategy", .string s.strategy.name), ("inputCount", number s.inputCount)]

def InputSettings.record : Record InputSettings :=
  let d : InputSettings := {}
  InputSettings.mk <$> .fieldOr "defaultValue" Reader.any d.defaultValue
    <*> .fieldOr "path" (Reader.optional Reader.text) d.path

def InputSettings.toProperties (s : InputSettings) : Properties :=
  .ofEntries [("defaultValue", s.defaultValue), ("path", .ofText? s.path)]

def OutputSettings.record : Record OutputSettings :=
  let d : OutputSettings := {}
  OutputSettings.mk <$> .fieldOr "format" Reader.text d.format

def OutputSettings.toProperties (s : OutputSettings) : Properties :=
  .ofEntries [("format", .string s.format)]

namespace Transformation

def name : Transformation → String
  | .identity => "identity"
  | .jsonPath => "jsonPath"
  | .template => "template"
  | .arithmetic => "arithmetic"

def reader : Reader Transformation :=
  Reader.choice ([identity, jsonPath, template, arithmetic].map fun t => (t.name, t))

end Transformation

namespace Operator

def name : Operator → String
  | .add => "add"
  | .subtract => "subtract"
  | .multiply => "multiply"
  | .divide => "divide"

def reader : Reader Operator :=
  Reader.choice ([add, subtract, multiply, divide].map fun o => (o.name, o))

end Operator

def TransformSettings.record : Record TransformSettings :=
  let d : TransformSettings := {}
  TransformSettings.mk <$> .fieldOr "transformation" Transformation.reader d.transformation
    <*> .fieldOr "jsonPath" Reader.text d.jsonPath
    <*> .fieldOr "template" (Reader.optional Reader.text) d.template
    <*> .fieldOr "operator" (Reader.optional Operator.reader) d.operator
    <*> .fieldOr "operand" (Reader.optional Reader.double) d.operand

def TransformSettings.toProperties (s : TransformSettings) : Properties :=
  .ofEntries [("transformation", .string s.transformation.name), ("jsonPath", .string s.jsonPath),
    ("template", .ofText? s.template), ("operator", .ofText? (s.operator.map Operator.name)),
    ("operand", .ofOption (s.operand.map double))]

namespace NodeSettings

/-- How the properties of a kind are read. -/
def reader : NodeKind → Reader NodeSettings
  | .text => Record.reader "struct TextConfig" (.text <$> TextSettings.record)
  | .image => Record.reader "struct ImageConfig" (.image <$> ImageSettings.record)
  | .speech => Record.reader "struct SpeechConfig" (.speech <$> SpeechSettings.record)
  | .translate => Record.reader "struct TranslateConfig" (.translate <$> TranslateSettings.record)
  | .sentiment => Record.reader "struct SentimentConfig" (.sentiment <$> SentimentSettings.record)
  | .email => Record.reader "struct EmailConfig" (.email <$> EmailSettings.record)
  | .chat => Record.reader "struct SlackConfig" (.chat <$> ChatSettings.record)
  | .webhook => Record.reader "struct WebhookConfig" (.webhook <$> WebhookSettings.record)
  | .flow => Record.reader "struct FlowConfig" (.flow <$> FlowSettings.record)
  | .condition => Record.reader "struct ConditionConfig" (.condition <$> ConditionSettings.record)
  | .loop => Record.reader "struct LoopConfig" (.loop <$> LoopSettings.record)
  | .merge => Record.reader "struct MergeConfig" (.merge <$> MergeSettings.record)
  | .input => Record.reader "struct InputConfig" (.input <$> InputSettings.record)
  | .output => Record.reader "struct OutputConfig" (.output <$> OutputSettings.record)
  | .transform => Record.reader "struct TransformConfig" (.transform <$> TransformSettings.record)

def toProperties : NodeSettings → Properties
  | .text s => s.toProperties
  | .image s => s.toProperties
  | .speech s => s.toProperties
  | .translate s => s.toProperties
  | .sentiment s => s.toProperties
  | .email s => s.toProperties
  | .chat s => s.toProperties
  | .webhook s => s.toProperties
  | .flow s => s.toProperties
  | .condition s => s.toProperties
  | .loop s => s.toProperties
  | .merge s => s.toProperties
  | .input s => s.toProperties
  | .output s => s.toProperties
  | .transform s => s.toProperties

/-- Settings with their kind beside them. -/
def wireReader : Reader NodeSettings :=
  Reader.adjacent "NodeConfig" "type" "properties" (NodeKind.all.map fun k => (k.tag, reader k))

def toJson (s : NodeSettings) : Json :=
  .record [("type", .string s.kind.tag), ("properties", .object s.toProperties)]

end NodeSettings

end PortGraph
