import EffectLoop.Loop.Act

/-!
# The host boundary

A host stands before a next stage that takes events. It starts coroutines on its scheduler and ends
tasks early; events and termination tokens go on to the next stage, unchanged, one call each.
-/

namespace EffectLoop

/-- Anything that is handed to a host. -/
inductive WorkItem (Co : Type)
  | event (v : Json)
  | coroutine (co : Co)
  | terminate (token : TerminationToken)

/-- A work item for the eye. -/
def WorkItem.outline {Co : Type} : WorkItem Co → String
  | .event v => "Event(" ++ v.outline ++ ")"
  | .coroutine _ => "Coroutine(..)"
  | .terminate token =>
    "Terminate(TerminationToken \x7b id: TaskId(" ++ toString token.id.val ++ ") \x7d)"

/-- What a host answers. -/
inductive Dispatched
  /-- What the next stage answered. -/
  | forwarded (v : Json)
  | started (task : TaskHandle) (terminate : TerminationToken)

/-- The task that was started, if one was. -/
def Dispatched.task? : Dispatched → Option TaskHandle
  | .started task _ => some task
  | .forwarded _ => none

/-- A scheduler behind a boundary, and the stage that gets everything else. -/
structure Host where
  scheduler : SchedulerId
  next : SinkId
deriving Inhabited

/-- Take in a work item. -/
def Host.handle {Co Fu : Type} (host : Host) : WorkItem Co → Act Co Fu Dispatched
  | .event v => .dispatch host.next v fun answer => .ret (.forwarded answer)
  | .coroutine co => .start host.scheduler "coroutine" co fun task =>
    .ask (.record .debug .host "Started coroutine at host boundary"
      [⟨"task", task.id.text, false⟩]) fun _ => .ret (.started task task.token)
  | .terminate token => .ask (.terminate host.scheduler token.id) fun _ =>
    .dispatch host.next token.wire fun answer => .ret (.forwarded answer)

end EffectLoop
