import PortGraph.Wire.Choice

/-!
The kinds of nodes, their tags in stored graphs and the families they belong to.
-/

namespace PortGraph

inductive NodeCategory
  /-- Asks an AI provider. -/
  | ai
  /-- Sends a message or calls a webhook. -/
  | automation
  /-- Shapes control flow. -/
  | logic
  /-- Moves values in and out of the graph. -/
  | data
deriving DecidableEq, Repr

namespace NodeCategory

def name : NodeCategory → String
  | .ai => "ai"
  | .automation => "automation"
  | .logic => "logic"
  | .data => "data"

def reader : Reader NodeCategory :=
  Reader.choice ([ai, automation, logic, data].map fun c => (c.name, c))

end NodeCategory

inductive NodeKind
  | text
  | image
  | speech
  | translate
  | sentiment
  | email
  | chat
  | webhook
  | flow
  | condition
  | loop
  | merge
  | input
  | output
  | transform
deriving DecidableEq, Repr

namespace NodeKind

def tag : NodeKind → String
  | .text => "ai-text"
  | .image => "ai-image"
  | .speech => "ai-speech"
  | .translate => "ai-translate"
  | .sentiment => "ai-sentiment"
  | .email => "automation-email"
  | .chat => "automation-slack"
  | .webhook => "automation-zapier"
  | .flow => "automation-powerautomate"
  | .condition => "logic-condition"
  | .loop => "logic-loop"
  | .merge => "logic-merge"
  | .input => "data-input"
  | .output => "data-output"
  | .transform => "data-transform"

def all : List NodeKind :=
  [.text, .image, .speech, .translate, .sentiment, .email, .chat, .webhook, .flow, .condition,
   .loop, .merge, .input, .output, .transform]

def ofTag? (tag : String) : Option NodeKind := all.find? fun k => k.tag == tag

def category : NodeKind → NodeCategory
  | .text | .image | .speech | .translate | .sentiment => .ai
  | .email | .chat | .webhook | .flow => .automation
  | .condition | .loop | .merge => .logic
  | .input | .output | .transform => .data

def reader : Reader NodeKind := Reader.choice (all.map fun k => (k.tag, k))

end NodeKind

end PortGraph
