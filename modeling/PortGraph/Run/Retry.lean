import PortGraph.Run.Failure

/-!
When a failed attempt is repeated. Delays grow by a factor from one attempt to the next and are
spread by a share in either direction; durations are nanoseconds and saturate.
-/

namespace PortGraph

structure RetryPolicy where
  /-- All attempts, the first included. -/
  maxAttempts : Nat
  /-- Nanoseconds before the second attempt. -/
  baseDelay : Nat
  factor : Nat
  /-- The spread of a delay, in percent of it. -/
  jitter : Nat
deriving DecidableEq, Repr

namespace RetryPolicy

def nanosPerMilli : Nat := 1000000

/-- The policy for requests to services. -/
def external : RetryPolicy := ⟨3, 200 * nanosPerMilli, 2, 20⟩

/-- The longest duration. -/
def maxDuration : Nat := (Nat.pow 2 64 - 1) * 1000000000 + 999999999

def maxPower : Nat := Nat.pow 2 32 - 1

/-- A power that stops at `maxPower`. From two upwards 32 factors are enough to reach it. -/
def power (factor exponent : Nat) : Nat :=
  if 2 ≤ factor ∧ 32 ≤ exponent then maxPower
  else if factor ≤ 1 then (if exponent = 0 then 1 else factor)
  else min maxPower (Nat.pow factor exponent)

/-- Whether another attempt may follow the given one, counted from one. -/
def allowsAfter (p : RetryPolicy) (attempt : Nat) : Bool := attempt < p.maxAttempts

/-- The delay after an attempt, without spread. -/
def nominalDelay (p : RetryPolicy) (attempt : Nat) : Nat :=
  min maxDuration (p.baseDelay * power p.factor (attempt - 1))

/-- The delay after an attempt. `draw` picks a place in the spread, from 0 at the lower end to 1000
at the upper. -/
def delay (p : RetryPolicy) (attempt draw : Nat) : Nat :=
  let share := 1000 * (100 - p.jitter) + 2 * p.jitter * min draw 1000
  p.nominalDelay attempt * share / 100000

end RetryPolicy

/-- One attempt of a node. -/
structure Attempt where
  /-- Counted from one. -/
  attempt : Nat
  /-- Milliseconds from the start of the node to the end of the attempt. -/
  elapsedMs : Nat
  error : Option String
deriving DecidableEq, Repr

namespace Attempt

def reader : Reader Attempt :=
  Record.reader "struct Attempt"
    (Attempt.mk <$> .field "attempt" Reader.nat32 <*> .field "elapsedMs" Reader.nat64
      <*> .fieldOr "error" (Reader.optional Reader.text) none)

def toJson (a : Attempt) : Json :=
  .record ([("attempt", .ofNat a.attempt), ("elapsedMs", .ofNat a.elapsedMs)] ++
    (a.error.map fun e => ("error", .string e)).toList)

end Attempt

end PortGraph
