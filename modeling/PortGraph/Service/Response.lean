import PortGraph.Service.Simulated

/-!
How services respond: they may cancel the execution, take their time, and then reply. Services
answer each request in view of the earlier ones, so a service that counts is a function too.
-/

namespace PortGraph

structure Response where
  /-- Whether the execution is cancelled when the request arrives. -/
  cancels : Bool
  /-- Milliseconds until the reply. -/
  delay : Nat
  reply : Reply

/-- The response to a request after the given earlier ones, oldest first. -/
abbrev Services := List Request → Request → Response

namespace Services

/-- Replies at once with what is made up for the request. -/
def simulated : Services := fun _ r => ⟨false, 0, .ok (Simulated.reply r)⟩

end Services

end PortGraph
