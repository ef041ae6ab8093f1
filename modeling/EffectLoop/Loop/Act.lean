import EffectLoop.Effect.Basic
import EffectLoop.Loop.Log
import EffectLoop.Task.Active

/-!
# What user code does without waiting

An `Act` is a stretch of user code between two waits: it looks at the world and changes it by requests,
invokes targets, hands events to sinks, starts work, and ends with a value or a panic. It is a tree of
requests and what follows each reply, so it runs one request at a time and every moment between two of
them is a state of the loop.

`Co` are coroutines at rest and `Fu` are computations at rest.
-/

namespace EffectLoop

/-- The name of a driver for as long as the loop runs. -/
structure DriverKey where
  val : Nat
deriving DecidableEq, Inhabited

/-- The name of a sink. -/
structure SinkId where
  name : String
deriving DecidableEq, Inhabited

/-- What a computation can wait for. -/
inductive Wait
  /-- The clock to reach a time. -/
  | sleep (deadline : Nat)
  /-- A round of the loop: until everything runnable has run. -/
  | turn
  /-- A gate to be opened. -/
  | gate (name : String)
  /-- A task to be settled. -/
  | task (h : TaskHandle)
  /-- A nested driver to be over. -/
  | nested (key : DriverKey)
  | never
deriving Inhabited

/-- A look at the world or a change of it. -/
inductive Request
  | now
  /-- What a wait would resolve with at this moment, if it would. -/
  | peek (w : Wait)
  | log (v : Json)
  | noteDispatch (event : Json) (sink : SinkId)
  | record (level : Level) (source : Source) (message : String) (fields : List LogField)
  /-- Open a gate; the first opening fixes the value. -/
  | openGate (name : String) (v : Json)
  | publish (key : String) (o : Output)
  | fetch (key : String)
  | outcome (h : TaskHandle)
  | snapshot (s : SchedulerId)
  | terminate (s : SchedulerId) (id : TaskId)
  /-- Keep an event with a sink; the reply counts the events kept. -/
  | keep (sink : SinkId) (event : Json)

/-- What a request is answered with. -/
abbrev Request.Reply : Request → Type
  | .now => Nat
  | .peek _ => Option Resume
  | .log _ => Unit
  | .noteDispatch _ _ => Unit
  | .record _ _ _ _ => Unit
  | .openGate _ _ => Unit
  | .publish _ _ => Unit
  | .fetch _ => Option Output
  | .outcome _ => Option Outcome
  | .snapshot _ => List TaskEntry
  | .terminate _ _ => Bool
  | .keep _ _ => Nat

/-- What invoking a target gives: a computation, or a coroutine to be driven. -/
inductive Invoked (Co Fu : Type)
  | pending (fu : Fu)
  | coroutine (co : Co)

/-- User code up to its next wait. -/
inductive Act (Co Fu α : Type)
  | ret (a : α)
  | panic
  | ask (q : Request) (k : q.Reply → Act Co Fu α)
  | invoke (target : Target) (args : List Json) (k : Invoked Co Fu → Act Co Fu α)
  | dispatch (sink : SinkId) (event : Json) (k : Json → Act Co Fu α)
  /-- Start a coroutine in a task of its own. -/
  | start (s : SchedulerId) (name : String) (co : Co) (k : TaskHandle → Act Co Fu α)
  /-- Start a computation in a task of its own. -/
  | spawn (s : SchedulerId) (name : String) (fu : Fu) (k : TaskHandle → Act Co Fu α)
  /-- Enter a coroutine as a task to be driven from here. -/
  | nest (s : SchedulerId) (name : String) (co : Co) (k : DriverKey → Act Co Fu α)

namespace Act

variable {Co Fu α β : Type}

/-- What follows on the value of an act. -/
def bind : Act Co Fu α → (α → Act Co Fu β) → Act Co Fu β
  | .ret a, f => f a
  | .panic, _ => .panic
  | .ask q k, f => .ask q fun r => (k r).bind f
  | .invoke t args k, f => .invoke t args fun i => (k i).bind f
  | .dispatch sink event k, f => .dispatch sink event fun j => (k j).bind f
  | .start s name co k, f => .start s name co fun h => (k h).bind f
  | .spawn s name fu k, f => .spawn s name fu fun h => (k h).bind f
  | .nest s name co k, f => .nest s name co fun key => (k key).bind f

instance : Monad (Act Co Fu) where
  pure := .ret
  bind := bind

/-- Ask, and end with the reply. -/
def request (q : Request) : Act Co Fu q.Reply := .ask q .ret

end Act

end EffectLoop
