import PortGraph.Ident.Ulid
import PortGraph.Text.Parts
import PortGraph.Wire.Reader

/-!
Identifiers of workflows and executions. An identifier is written as its family's prefix, an
underscore and a ULID; the prefix may be left out when it is read, but not replaced.
-/

namespace PortGraph

inductive Family
  | workflow
  | execution
deriving DecidableEq, Repr

def Family.marker : Family → String
  | .workflow => "wf"
  | .execution => "exec"

/-- The name of the identifiers of a family. -/
def Family.title : Family → String
  | .workflow => "WorkflowId"
  | .execution => "ExecutionId"

structure Ident (family : Family) where
  ulid : Ulid
deriving DecidableEq

namespace Ident

variable {family : Family}

inductive Fault
  | foreign (expected found : String)
  | ulid (fault : Ulid.Fault)
deriving DecidableEq, Repr

def Fault.reason : Fault → String
  | .foreign expected found => s!"expected prefix {expected}_, found {found}_"
  | .ulid fault => fault.message

def Fault.message (family : Family) (fault : Fault) : String :=
  s!"invalid {family.title}: {fault.reason}"

def text (id : Ident family) : String :=
  family.marker ++ "_" ++ String.ofList id.ulid.write

def ofUlidText (text : String) : Except Fault (Ident family) :=
  match Ulid.parse text with
  | .ok u => .ok ⟨u⟩
  | .error e => .error (.ulid e)

def parse (text : String) : Except Fault (Ident family) :=
  match Text.splitAt? ['_'] text.toList with
  | none => ofUlidText text
  | some (found, rest) =>
      if found = family.marker.toList then ofUlidText (String.ofList rest)
      else .error (.foreign family.marker (String.ofList found))

def reader : Reader (Ident family) := Reader.parsed parse (Fault.message family)

end Ident

abbrev WorkflowId := Ident .workflow

abbrev ExecutionId := Ident .execution

end PortGraph
