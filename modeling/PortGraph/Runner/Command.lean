import PortGraph.Execution.Engine
import PortGraph.Runner.Config

/-!
The command line `<graph> [<input> | -]`: loads the configuration, reads the graph and the input,
runs the graph with simulated services and prints the record. What the host provides is abstract, so
the same command runs on files or in memory.
-/

namespace PortGraph.Runner

/-- What the command needs from outside. -/
structure Host (m : Type → Type) where
  /-- The content of a file, if it can be read as text. -/
  fileText : String → m (Option String)
  /-- All of the standard input, if it is text. -/
  inputText : m (Option String)
  environment : List (String × String)
  /-- The time, and random bits for a new identifier. -/
  now : m Timestamp
  random : m Nat

/-- The names along a path; a single point leads nowhere. -/
def pathNames (path : String) : List String :=
  (path.splitOn "/").filter fun name => name ≠ "" && name ≠ "."

/-- The content of the file at a path from the directory that holds the files. -/
def contentAt? (files : List (String × String)) (path : String) : Option String :=
  if path.startsWith "/" || path.endsWith "/" then none
  else (files.find? fun f => pathNames f.1 == pathNames path).map (·.2)

/-- A host whose files, input and environment are given, at the epoch. -/
def Host.held (files : List (String × String)) (input : String)
    (environment : List (String × String)) : Host Id where
  fileText := contentAt? files
  inputText := some input
  environment := environment
  now := Timestamp.epoch
  random := 0

/-- Why a command was not carried out. -/
inductive Refusal
  | usage
  | config
  | read (path : String)
  | engine (e : EngineError)
deriving DecidableEq

def Refusal.message : Refusal → String
  | .usage => "usage: <graph.json> [input.json | -]"
  | .config => "failed to load configuration"
  | .read path => s!"failed to read {path}"
  | .engine e => s!"workflow rejected: {e.message}"

inductive ExitCode
  | completed
  | incomplete
  | refused
deriving DecidableEq, Repr

def ExitCode.toNat : ExitCode → Nat
  | .completed => 0
  | .incomplete => 1
  | .refused => 2

/-- A finished command: the record and how it is printed. -/
structure Report where
  record : ExecutionRecord
  pretty : Bool
deriving DecidableEq

namespace Report

def text (r : Report) : String :=
  if r.pretty then r.record.toJson.indented else r.record.toJson.compact

def exitCode (r : Report) : ExitCode :=
  if r.record.result.verdict.status.isSuccess then .completed else .incomplete

end Report

namespace Command

variable {m : Type → Type} [Monad m]

/-- The variable that names the configuration file. -/
def configVariable : String := "FLOWMILL_CONFIG"

/-- The first of some files that is there. -/
def firstFile (h : Host m) : List String → m (Option File)
  | [] => return none
  | name :: rest => do
      match ← h.fileText name with
      | some content => return some ⟨name, content⟩
      | none => firstFile h rest

/-- The configuration, from a file if one is named; its ending may be left out. -/
def loadConfig (h : Host m) (file : Option String) : m (Option Config) := do
  match file with
  | none => return Config.load none h.environment
  | some name =>
      let endings := Format.all.map fun f => name ++ "." ++ f.ending
      match ← firstFile h (name :: endings) with
      | none => return none
      | some file => return Config.load (some file) h.environment

/-- The definition and the input, in this order. -/
def readSources (h : Host m) (graph : String) (input : Option String) :
    m (Except Refusal (String × String)) := do
  match ← h.fileText graph with
  | none => return .error (.read graph)
  | some definition =>
      match input with
      | none => return .ok (definition, "")
      | some path =>
          let text ← if path = "-" then h.inputText else h.fileText path
          match text with
          | none => return .error (.read path)
          | some text => return .ok (definition, text)

/-- A new identifier. -/
def newIdent {family : Family} (now : Timestamp) (random : Nat) : Ident family :=
  ⟨Ulid.ofNat (now.millisSince .epoch * Nat.pow 2 80 + random % Nat.pow 2 80)⟩

def execute (h : Host m) (config : Config) (definition input : String) :
    m (Except Refusal Report) := do
  let startedAt ← h.now
  match Engine.execute definition input config.engine { start := startedAt } with
  | .error e => return .error (.engine e)
  | .ok run =>
      let workflow := newIdent startedAt (← h.random)
      let execution := newIdent startedAt (← h.random)
      let result : ExecutionResult :=
        ⟨execution, run.verdict, run.log, run.elapsedMs, startedAt⟩
      return .ok ⟨⟨workflow, result⟩, config.pretty⟩

/-- Carries out a command; the first thing that is wrong stops it. -/
def run (h : Host m) (arguments : List String) : m (Except Refusal Report) := do
  let start (graph : String) (input : Option String) : m (Except Refusal Report) := do
    match ← loadConfig h (h.environment.lookup configVariable) with
    | none => return .error .config
    | some config =>
        match ← readSources h graph input with
        | .error e => return .error e
        | .ok (definition, text) => execute h config definition text
  match arguments with
  | [graph] => start graph none
  | [graph, input] => start graph (some input)
  | _ => return .error .usage

end Command

end PortGraph.Runner
