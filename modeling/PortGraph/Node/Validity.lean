import PortGraph.Json.Path
import PortGraph.Node.Properties

/-!
What settings must satisfy beyond their form. All complaints about a node are collected, in the
order of its properties.
-/

namespace PortGraph

/-- A complaint about the settings of a node. -/
inductive Complaint
  | form (mismatch : Mismatch)
  | empty (name : String)
  | maxTokens (n : Nat)
  | temperature (x : Binary64)
  | noFeatures
  | mailPort
  | method (name : String)
  | maxIterations
  | inputCount (n : Nat)
  | path (error : Path.Error)
  | noTemplate
  | noOperator
  | noOperand
  | zeroDivisor
deriving DecidableEq, Repr

/-- The most inputs that can be merged. -/
def maxMergeInputs : Nat := 16

def Complaint.message : Complaint → String
  | .form m => m.message
  | .empty name => s!"{name} must not be empty"
  | .maxTokens n => s!"maxTokens must be between 1 and 4096, got {Text.Decimal.naturalText n}"
  | .temperature x => s!"temperature must be between 0 and 2, got {x.plainText}"
  | .noFeatures => "features must name at least one analysis"
  | .mailPort => "port must be between 1 and 65535"
  | .method name => s!"unsupported HTTP method '{name}'"
  | .maxIterations => "maxIterations must be at least 1"
  | .inputCount n =>
      let most := Text.Decimal.naturalText maxMergeInputs
      s!"inputCount must be between 2 and {most}, got {Text.Decimal.naturalText n}"
  | .path e => e.message
  | .noTemplate => "template transformation needs a template"
  | .noOperator => "arithmetic transformation needs an operator"
  | .noOperand => "arithmetic transformation needs an operand"
  | .zeroDivisor => "operand must not be zero for divide"

def httpMethods : List String := ["GET", "POST", "PUT", "PATCH", "DELETE"]

namespace NodeSettings

def when (fault : Prop) [Decidable fault] (c : Complaint) : List Complaint :=
  if fault then [c] else []

/-- A text of blanks counts as empty. -/
def needed (name value : String) : List Complaint :=
  when (Text.trim value.toList = []) (.empty name)

def pathFaults (expression : String) : List Complaint :=
  match Path.parse expression with
  | .ok _ => []
  | .error e => [.path e]

def transformComplaints (s : TransformSettings) : List Complaint :=
  match s.transformation with
  | .identity => []
  | .jsonPath => pathFaults s.jsonPath
  | .template => when (s.template = none) .noTemplate
  | .arithmetic =>
      when (s.operator = none) .noOperator ++
        match s.operand with
        | none => [.noOperand]
        | some x => when (x.isZero = true ∧ s.operator = some .divide) .zeroDivisor

/-- Temperatures go from zero to two. -/
def maxTemperature : Binary64 := ⟨false, Nat.pow 2 52, -51⟩

def complaints : NodeSettings → List Complaint
  | .text s =>
      needed "model" s.model ++
        when (s.maxTokens < 1 ∨ 4096 < s.maxTokens) (.maxTokens s.maxTokens) ++
        when (¬ ((Binary64.zero false).le s.temperature = true ∧
          s.temperature.le maxTemperature = true)) (.temperature s.temperature)
  | .image s => needed "provider" s.provider ++ when (s.features = []) .noFeatures
  | .speech s => needed "language" s.language ++ needed "provider" s.provider
  | .translate s => needed "targetLanguage" s.targetLanguage ++ needed "provider" s.provider
  | .sentiment s => needed "provider" s.provider
  | .email s => needed "smtpServer" s.smtpServer ++ when (s.port = 0) .mailPort
  | .chat s => needed "username" s.username
  | .webhook s =>
      needed "webhookUrl" s.webhookUrl ++ when (s.method.toUpper ∉ httpMethods) (.method s.method)
  | .flow s => needed "flowUrl" s.flowUrl
  | .condition _ | .output _ => []
  | .loop s => when (s.maxIterations = 0) .maxIterations
  | .merge s =>
      when (s.inputCount < 2 ∨ maxMergeInputs < s.inputCount) (.inputCount s.inputCount)
  | .input s =>
      match s.path with
      | none => []
      | some expression => pathFaults expression
  | .transform s => transformComplaints s

/-- The settings that the properties of a node of a kind give. -/
def parse (kind : NodeKind) (properties : Properties) : Except (List Complaint) NodeSettings :=
  match Reader.readJson (reader kind) (.object properties) with
  | .error m => .error [.form m]
  | .ok s =>
      match s.complaints with
      | [] => .ok s
      | cs => .error cs

end NodeSettings

end PortGraph
