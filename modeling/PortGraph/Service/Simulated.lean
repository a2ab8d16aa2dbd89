import PortGraph.Service.Request

/-!
Answers made up on the spot, for trying a graph without credentials. Every request succeeds, and the
answer mentions what was asked.
-/

namespace PortGraph.Simulated

def reply : Request → Json
  | .processText r => .string s!"AI processing simulated for: {r.input}"
  | .analyzeImage bytes provider features =>
      .record [("description", .string "Image analysis simulated"), ("provider", .string provider),
        ("features", .ofTexts features), ("bytes", .ofNat bytes.length)]
  | .translate text target _ => .string s!"Translation simulated: '{text}' to {target}"
  | .sentiment _ provider =>
      .record [("sentiment", .string "neutral"),
        ("score", .number (.double ⟨false, Nat.pow 2 52, -53⟩)), ("provider", .string provider)]
  | .transcribe bytes language _ =>
      let count := Text.Decimal.naturalText bytes.length
      .string s!"Audio transcription simulated ({count} bytes, {language})"
  | .sendEmail _ => .bool true
  | .postMessage channel _ _ _ =>
      .string ("simulated-" ++ String.ofList (channel.toList.dropWhile (· == '#')))
  | .callWebhook url method body =>
      .record [("status", .string "simulated"), ("url", .string url), ("method", .string method),
        ("echo", body)]

end PortGraph.Simulated
