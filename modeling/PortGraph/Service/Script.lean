import PortGraph.Service.Response

/-!
Scripts for services: outcomes listed for each method, taken in order of the calls or looked up by
what is asked. Where a script says nothing the simulated reply stands.
-/

namespace PortGraph

/-- The services by name. -/
inductive Method
  | processText
  | analyzeImage
  | translate
  | sentiment
  | transcribe
  | sendEmail
  | postMessage
  | callWebhook
deriving DecidableEq, Repr

namespace Method

def name : Method → String
  | .processText => "process_text"
  | .analyzeImage => "analyze_image"
  | .translate => "translate"
  | .sentiment => "sentiment"
  | .transcribe => "transcribe"
  | .sendEmail => "send_email"
  | .postMessage => "send_slack"
  | .callWebhook => "http_post"

/-- A reply as the method gives it: a text, a truth value, or any value. -/
def shaped : Method → Json → Json
  | .processText, v | .translate, v | .transcribe, v | .postMessage, v =>
      .string (v.asText?.getD "")
  | .sendEmail, v => .bool (v.asBool?.getD false)
  | .analyzeImage, v | .sentiment, v | .callWebhook, v => v

end Method

namespace Request

def method : Request → Method
  | .processText _ => .processText
  | .analyzeImage .. => .analyzeImage
  | .translate .. => .translate
  | .sentiment .. => .sentiment
  | .transcribe .. => .transcribe
  | .sendEmail _ => .sendEmail
  | .postMessage .. => .postMessage
  | .callWebhook .. => .callWebhook

/-- What a script finds a request by. -/
def key : Request → String
  | .processText r => r.input
  | .analyzeImage bytes _ _ | .transcribe bytes _ _ => Text.Decimal.naturalText bytes.length
  | .translate text _ _ | .sentiment text _ => text
  | .sendEmail r => r.subject
  | .postMessage _ message _ _ => message
  | .callWebhook url _ _ => url

end Request

/-- One line of a script. -/
structure Scripted where
  cancels : Bool
  delay : Nat
  /-- The reply, if the script gives one. -/
  reply : Option Reply

namespace Scripted

def ofJson (v : Json) : Scripted where
  cancels := (v.field? "cancel").bind Json.asBool? == some true
  delay := match v.field? "delayMs" with
    | some (.number (.integer n)) => n.toNat
    | _ => 0
  reply :=
    match (v.field? "transient").bind Json.asText?, (v.field? "rejected").bind Json.asText? with
    | some message, _ => some (.error ⟨true, message⟩)
    | none, some message => some (.error ⟨false, message⟩)
    | none, none => (v.field? "ok").map .ok

def nothing : Scripted := ⟨false, 0, none⟩

def response (o : Scripted) (r : Request) : Response :=
  ⟨o.cancels, o.delay, ((o.reply.map fun reply => reply.map r.method.shaped).getD
    (.ok (Simulated.reply r)))⟩

end Scripted

/-- A script: by method an array of outcomes, one for each call, or an object of outcomes by key. -/
abbrev Script := Json

namespace Script

def outcome? (script : Script) (earlier : List Request) (r : Request) : Option Json := do
  match ← script.field? r.method.name with
  | .array outcomes => outcomes[(earlier.filter fun e => e.method = r.method).length]?
  | outcomes => outcomes.field? r.key

def services (script : Script) : Services := fun earlier r =>
  (((script.outcome? earlier r).map Scripted.ofJson).getD .nothing).response r

end Script

end PortGraph
