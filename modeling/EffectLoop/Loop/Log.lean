import EffectLoop.Json.Basic
import EffectLoop.Task.Basic

/-!
# Log records and the journal

A record tells what happened and in the span of which task: spans nest, outermost first. The journal
holds the records together with what user code logged and what its sinks were handed, in the order in
which they came about.
-/

namespace EffectLoop

inductive Level
  | debug
  | info
  | warn
  | error
deriving DecidableEq, Inhabited

/-- The word for a level. -/
def Level.text : Level → String
  | .debug => "DEBUG"
  | .info => "INFO"
  | .warn => "WARN"
  | .error => "ERROR"

/-- Which part of the program speaks. -/
inductive Source
  | scheduler
  | registry
  | host
  | order
deriving DecidableEq, Inhabited

/-- A named detail of a record. A quoted one is plain text, any other is shown as it prints. -/
structure LogField where
  key : String
  text : String
  quoted : Bool := false
deriving DecidableEq, Inhabited

/-- The span of a task: who runs it, its number and its name. -/
structure Span where
  scheduler : String
  id : TaskId
  name : String
deriving DecidableEq, Inhabited

/-- One record. -/
structure LogRecord where
  level : Level
  source : Source
  message : String
  fields : List LogField := []
  /-- The spans around it, outermost first. -/
  spans : List Span := []
deriving Inhabited

/-- One entry of the journal. -/
inductive Entry
  /-- User code logged a value. -/
  | log (v : Json)
  /-- A sink was handed an event. -/
  | dispatched (event : Json) (sink : String)
  | record (r : LogRecord)
deriving Inhabited

/-- The span of a task as a value. -/
def Span.report (s : Span) : Json :=
  .object [("scheduler", .str s.scheduler), ("task", .str s.id.text), ("task_name", .str s.name)]

/-- A record as a value, with the innermost span. -/
def LogRecord.report (r : LogRecord) : Json :=
  .object [("trace", .str r.level.text), ("message", .str r.message),
    ("fields", .object (r.fields.map fun f => (f.key, .str f.text))),
    ("span", (r.spans.getLast?.map Span.report).getD .null)]

/-- An entry as a value. -/
def Entry.report : Entry → Json
  | .log v => .object [("log", v)]
  | .dispatched event sink => .object [("dispatch", event), ("sink", .str sink)]
  | .record r => r.report

end EffectLoop
