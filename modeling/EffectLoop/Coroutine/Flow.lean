import EffectLoop.Coroutine.Code

/-!
# Flows

A flow is code with a result or an error, written with `do`: an error leaves it unless it is caught.
`put`, `call`, `fork` and `join` suspend on the effect and take its outcome as the value or the
handle they need.
-/

namespace EffectLoop

/-- Code that goes on with a result or an error. -/
structure Flow (α : Type) where
  run : (Except EffectError α → Code) → Code

namespace Flow

variable {α β : Type}

instance : Monad Flow where
  pure a := ⟨fun k => k (.ok a)⟩
  bind x f := ⟨fun k => x.run fun
    | .ok a => (f a).run k
    | .error e => k (.error e)⟩

instance : MonadExceptOf EffectError Flow where
  throw e := ⟨fun k => k (.error e)⟩
  tryCatch x f := ⟨fun k => x.run fun
    | .ok a => k (.ok a)
    | .error e => (f e).run k⟩

/-- A result that is already known. -/
def ofExcept (r : Except EffectError α) : Flow α := ⟨fun k => k r⟩

/-- Ask the world. -/
def request (q : Request) : Flow q.Reply := ⟨fun k => .ask q fun r => k (.ok r)⟩

/-- The error or result as a result. -/
def attempt (x : Flow α) : Flow (Except EffectError α) := ⟨fun k => x.run fun r => k (.ok r)⟩

/-- Wait. -/
def wait (w : Wait) : Flow Output := ⟨fun k => .wait w k⟩

/-- Wait some milliseconds from now. -/
def sleep (ms : Nat) : Flow Unit := do
  let now ← request .now
  let _ ← wait (.sleep (now + ms))

/-! ## Suspension points -/

/-- Yield, and take what the next resume brings. -/
def suspend (y : Yielded) : Flow Output := ⟨fun k => .suspend y k⟩

def perform (e : Effect) : Flow Output := suspend (.effect e)

/-- Yield an output that comes straight back. -/
def pass (o : Output) : Flow Output := suspend (.pass o)

/-- Hand an event to the sink. -/
def put (event : Json) : Flow Json := do
  let e ← ofExcept (Effect.put? event)
  ofExcept (← perform e).intoValue

/-- Invoke a target and wait for its outcome. -/
def call (target : Target) (args : List Json) : Flow Json := do
  ofExcept (← perform (.call target args)).intoValue

/-- Invoke a target without waiting. -/
def fork (target : Target) (args : List Json) : Flow TaskHandle := do
  ofExcept (← perform (.fork target args)).intoTask

/-- Wait for a task. -/
def join (h : TaskHandle) : Flow Json := do
  ofExcept (← perform (.join h)).intoValue

/-- The code of a flow that ends in a value. -/
def code (x : Flow Json) : Code := x.run fun r => .done (r.map .value)

end Flow

end EffectLoop
