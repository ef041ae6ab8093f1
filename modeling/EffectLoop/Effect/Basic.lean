import EffectLoop.Effect.Error
import EffectLoop.Effect.Target

/-!
# Effects

An effect describes an action and performs nothing. The creators (`put?`, `call`, `fork`, `join?`,
`custom?`) check their arguments; the constructors do not. An effect travels as its tag and payload,
in which a target shows its name and a task its number (`Effect.wire`).
-/

namespace EffectLoop

/-- A handle for the eye: its number, its name and whether the task is settled. -/
def TaskHandle.outline (h : TaskHandle) (settled : Bool) : String :=
  "TaskHandle \x7b id: TaskId(" ++ toString h.id.val ++ "), name: " ++ Json.outlineQuote h.name
    ++ ", settled: " ++ (if settled then "true" else "false") ++ " \x7d"

/-- What an effect resolves with: a value, or the handle of a task. -/
inductive Output
  | value (v : Json)
  | task (h : TaskHandle)
deriving Inhabited

namespace Output

protected def beq : Output → Output → Bool
  | .value a, .value b => a == b
  | .task a, .task b => a == b
  | _, _ => false

instance : BEq Output := ⟨Output.beq⟩

/-- An output as it travels. -/
def wire : Output → Json
  | .value v => v
  | .task h => h.wire

/-- An output as a value that tells handles from values. -/
def report : Output → Json
  | .value v => .object [("value", v)]
  | .task h => .object [("task", .nat h.id.val)]

/-- The value, if this is one. -/
def asValue? : Output → Option Json
  | .value v => some v
  | .task _ => none

/-- The value; a handle will not do. -/
def intoValue : Output → Except EffectError Json
  | .value v => .ok v
  | .task h => .error (.invalidArgument ("expected a value, but received a handle to " ++ h.id.text))

/-- The handle; a value will not do. -/
def intoTask : Output → Except EffectError TaskHandle
  | .task h => .ok h
  | .value v => .error (.invalidArgument ("expected a task handle, but received " ++ v.compact))

end Output

/-- What a coroutine is resumed with: the outcome of the effect it yielded. -/
abbrev Resume := Except EffectError Output

/-- An answer as a value. -/
def Resume.report : Resume → Json
  | .ok o => o.report
  | .error e => e.report

/-- A description of an action. -/
inductive Effect
  | put (event : Json)
  | call (target : Target) (args : List Json)
  | fork (target : Target) (args : List Json)
  | join (task : TaskHandle)
  | custom (tag : String) (payload : Json)
deriving Inhabited

namespace Effect

protected def beq : Effect → Effect → Bool
  | .put a, .put b => a == b
  | .call t a, .call t' a' => t == t' && a == a'
  | .fork t a, .fork t' a' => t == t' && a == a'
  | .join a, .join b => a == b
  | .custom t p, .custom t' p' => t == t' && p == p'
  | _, _ => false

instance : BEq Effect := ⟨Effect.beq⟩

def kind : Effect → EffectKind
  | .put _ => .put
  | .call _ _ => .call
  | .fork _ _ => .fork
  | .join _ => .join
  | .custom tag _ => .custom tag

/-- What an effect carries, as it travels. -/
def payload : Effect → Json
  | .put event => .object [("event", event)]
  | .call target args | .fork target args =>
    .object [("target", .str target.name), ("args", .arr args)]
  | .join task => .object [("task", task.wire)]
  | .custom _ payload => payload

/-- An effect as it travels. -/
def wire (e : Effect) : Json := .object [("kind", .str e.kind.tag), ("payload", e.payload)]

/-- The target of a call or fork. -/
def target? : Effect → Option Target
  | .call target _ | .fork target _ => some target
  | _ => none

/-! ## Creators -/

/-- Hand `event` to the sink; an event is an object. -/
def put? (event : Json) : Except EffectError Effect :=
  if event.isObject then .ok (.put event)
  else .error (.invalidArgument
    ("put only supports dispatching plain objects, but received " ++ event.compact))

/-- Wait for the task a handle names. -/
def join? : Output → Except EffectError Effect
  | .task h => .ok (.join h)
  | .value v => .error (.invalidArgument ("join expects a task handle, but received " ++ v.compact))

/-- An effect of one's own: its tag is not empty and not reserved, its payload is an object. -/
def custom? (tag : String) (payload : Json) : Except EffectError Effect :=
  if tag = "" then .error (.invalidArgument "custom effect kind must not be empty")
  else if tag ∈ reservedTags then
    .error (.invalidArgument ("`" ++ tag ++ "` is a reserved effect kind"))
  else if payload.isObject then .ok (.custom tag payload)
  else .error (.invalidArgument
    ("custom effect payload must be an object, but received " ++ payload.compact))

end Effect

/-- What a coroutine hands out when it suspends: an effect to be processed, or an output that comes
straight back. -/
inductive Yielded
  | effect (e : Effect)
  | pass (o : Output)
deriving Inhabited

/-- What one resume of a coroutine comes to. -/
inductive Step
  | yield (y : Yielded)
  | done (outcome : Outcome)
deriving Inhabited

end EffectLoop
