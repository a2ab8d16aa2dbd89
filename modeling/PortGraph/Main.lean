import Std.Time.DateTime.Timestamp
import PortGraph.Runner.Command

/-!
The command line program: files, the standard streams, the environment and the clock.
-/

namespace PortGraph.Program

open PortGraph.Runner

/-- Bytes as text, if they can be read and are text. -/
def textOf (read : IO ByteArray) : IO (Option String) := do
  try
    return String.fromUTF8? (← read)
  catch _ => return none

/-- Reads a stream to its end. -/
partial def readAll (stream : IO.FS.Stream) (read : ByteArray) : IO ByteArray := do
  let chunk ← stream.read 65536
  if chunk.isEmpty then return read else readAll stream (read ++ chunk)

/-- A `name=value` line of the environment. -/
def assignment? (line : List Char) : Option (String × String) :=
  match line.dropWhile (· != '=') with
  | _ :: value => some (String.ofList (line.takeWhile (· != '=')), String.ofList value)
  | [] => none

/-- The environment, where the system lists it. -/
def environment : IO (List (String × String)) := do
  let text ← textOf (IO.FS.readBinFile "/proc/self/environ")
  return (((text.getD "").splitOn "\x00").map String.toList).filterMap assignment?

def now : IO Timestamp := do
  let t ← Std.Time.Timestamp.now
  let nanos := t.toNanosecondsSinceUnixEpoch.val
  return ⟨Int.fdiv nanos 1000000000, (Int.fmod nanos 1000000000).toNat⟩

def random : IO Nat := do
  let bytes ← IO.getRandomBytes 10
  return bytes.toList.foldl (fun n b => 256 * n + b.toNat) 0

def host : IO (Host IO) := do
  return {
    fileText := fun path => textOf (IO.FS.readBinFile path)
    inputText := do textOf (readAll (← IO.getStdin) .empty)
    environment := ← environment
    now
    random }

end PortGraph.Program

def main (arguments : List String) : IO UInt32 := do
  let report ← PortGraph.Runner.Command.run (← PortGraph.Program.host) arguments
  match report with
  | .ok r =>
      IO.println r.text
      return r.exitCode.toNat.toUInt32
  | .error e =>
      IO.eprintln e.message
      return PortGraph.Runner.ExitCode.refused.toNat.toUInt32
