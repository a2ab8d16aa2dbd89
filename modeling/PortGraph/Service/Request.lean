import PortGraph.Wire.Record

/-!
What nodes ask of the outside world. A request names the capability and what it is given; it is
answered with a value, or refused with a fault that may pass or will not.
-/

namespace PortGraph

structure TextRequest where
  input : String
  model : String
  maxTokens : Nat
  temperature : Binary64
deriving DecidableEq

namespace TextRequest

def reader : Reader TextRequest :=
  Record.reader "struct TextRequest"
    (TextRequest.mk <$> .field "input" Reader.text <*> .field "model" Reader.text
      <*> .field "maxTokens" Reader.nat32 <*> .field "temperature" Reader.double)

def toJson (r : TextRequest) : Json :=
  .record [("input", .string r.input), ("model", .string r.model),
    ("maxTokens", .ofNat r.maxTokens),
    ("temperature", .number (.double r.temperature))]

end TextRequest

structure EmailRequest where
  recipient : String
  subject : String
  body : String
  smtpServer : String
  port : Nat
  enableSsl : Bool
deriving DecidableEq

namespace EmailRequest

def reader : Reader EmailRequest :=
  Record.reader "struct EmailRequest"
    (EmailRequest.mk <$> .field "to" Reader.text <*> .field "subject" Reader.text
      <*> .field "body" Reader.text <*> .field "smtpServer" Reader.text
      <*> .field "port" Reader.nat16 <*> .field "enableSsl" Reader.bool)

def toJson (r : EmailRequest) : Json :=
  .record [("to", .string r.recipient), ("subject", .string r.subject), ("body", .string r.body),
    ("smtpServer", .string r.smtpServer), ("port", .ofNat r.port), ("enableSsl", .bool r.enableSsl)]

end EmailRequest

inductive Request
  | processText (r : TextRequest)
  | analyzeImage (bytes : List UInt8) (provider : String) (features : List String)
  | translate (text targetLanguage provider : String)
  | sentiment (text provider : String)
  | transcribe (bytes : List UInt8) (language provider : String)
  | sendEmail (r : EmailRequest)
  | postMessage (channel message botToken username : String)
  | callWebhook (url method : String) (body : Json)
deriving DecidableEq

/-- A failed request. A transient failure may succeed later; a rejection stands. -/
structure ServiceFault where
  transient : Bool
  message : String
deriving DecidableEq, Repr

namespace ServiceFault

def describe (f : ServiceFault) : String :=
  if f.transient then s!"transient service failure: {f.message}"
  else s!"service rejected request: {f.message}"

def reader : Reader ServiceFault :=
  Record.reader "struct ServiceError"
    (ServiceFault.mk <$> .field "transient" Reader.bool <*> .field "message" Reader.text)

def toJson (f : ServiceFault) : Json :=
  .record [("transient", .bool f.transient), ("message", .string f.message)]

end ServiceFault

/-- The answer to a request. Text and yes-or-no answers are values like any other. -/
abbrev Reply := Except ServiceFault Json

end PortGraph
