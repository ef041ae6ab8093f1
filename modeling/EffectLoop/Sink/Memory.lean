import EffectLoop.Json.Basic

/-!
# Recording sinks

A sink that keeps every event it is given, oldest first, and answers null.
-/

namespace EffectLoop

/-- The events received so far, oldest first. -/
structure MemorySink where
  events : List Json := []
deriving Inhabited

namespace MemorySink

/-- Keep an event; the answer is null. -/
def dispatch (sink : MemorySink) (event : Json) : MemorySink × Json :=
  (⟨sink.events ++ [event]⟩, .null)

/-- The events whose `type` is this string. -/
def eventsOfType (sink : MemorySink) (type : String) : List Json :=
  sink.events.filter fun event => event.field "type" == .str type

end MemorySink

end EffectLoop
