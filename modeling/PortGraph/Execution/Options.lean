import PortGraph.Wire.Record

/-!
What can be chosen for an execution. What is not chosen falls back to the settings of the engine.
-/

namespace PortGraph

structure EngineSettings where
  concurrency : Nat := 8
  /-- No deadline when unset. -/
  deadlineMs : Option Nat := none
  verbose : Bool := false
deriving DecidableEq, Repr

namespace EngineSettings

def default : EngineSettings := {}

def reader : Reader EngineSettings :=
  Record.reader "struct EngineSettings"
    (EngineSettings.mk <$> .fieldOr "default_concurrency" Reader.count default.concurrency
      <*> .fieldOr "default_deadline_ms" (Reader.optional Reader.nat64) default.deadlineMs
      <*> .fieldOr "verbose" Reader.bool default.verbose)

def toJson (s : EngineSettings) : Json :=
  .record [("default_concurrency", .ofNat s.concurrency),
    ("default_deadline_ms", .ofOption (s.deadlineMs.map .ofNat)), ("verbose", .bool s.verbose)]

end EngineSettings

structure ExecuteOptions where
  /-- How many workers may be busy at once. -/
  concurrency : Option Nat := none
  deadlineMs : Option Nat := none
  /-- Whether the log shows the values of ports. -/
  verbose : Option Bool := none
deriving DecidableEq, Repr

namespace ExecuteOptions

def reader : Reader ExecuteOptions :=
  Record.reader "struct ExecuteOptions"
    (ExecuteOptions.mk <$> .fieldOr "concurrency" (Reader.optional Reader.count) none
      <*> .fieldOr "deadlineMs" (Reader.optional Reader.nat64) none
      <*> .fieldOr "verbose" (Reader.optional Reader.bool) none)

def toJson (o : ExecuteOptions) : Json :=
  .record [("concurrency", .ofOption (o.concurrency.map .ofNat)),
    ("deadlineMs", .ofOption (o.deadlineMs.map .ofNat)),
    ("verbose", .ofOption (o.verbose.map .bool))]

/-- The settings that hold for an execution. -/
def applyTo (o : ExecuteOptions) (s : EngineSettings) : EngineSettings where
  concurrency := o.concurrency.getD s.concurrency
  deadlineMs := o.deadlineMs.orElse fun _ => s.deadlineMs
  verbose := o.verbose.getD s.verbose

end ExecuteOptions

end PortGraph
