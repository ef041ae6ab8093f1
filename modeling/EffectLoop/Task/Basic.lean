import EffectLoop.Effect.Kind
import EffectLoop.Json.Basic

/-!
# Tasks

A scheduler numbers its tasks from one. A `TaskHandle` names one task of one scheduler: two handles
are equal when they name the same task, so equal numbers of different schedulers do not suffice. A
`TerminationToken` carries the number alone.
-/

namespace EffectLoop

/-- The number of a task within its scheduler. -/
structure TaskId where
  val : Nat
deriving DecidableEq, Inhabited

/-- Tasks are spoken of as `task-N`. -/
def TaskId.text (id : TaskId) : String := "task-" ++ toString id.val

/-- Which of the schedulers side by side. -/
structure SchedulerId where
  val : Nat
deriving DecidableEq, Inhabited

/-- Where a task stands. Only the first three are ever kept for an active task. -/
inductive TaskState
  | created
  | running
  | suspended (kind : EffectKind)
  | done
  | failed
deriving DecidableEq, Inhabited

namespace TaskState

def text : TaskState → String
  | .created => "created"
  | .running => "running"
  | .suspended kind => "suspended on " ++ kind.tag
  | .done => "done"
  | .failed => "failed"

/-- Whether a task in this state is over. -/
def isTerminal : TaskState → Bool
  | .done | .failed => true
  | _ => false

end TaskState

/-- The early-termination signal for a task. -/
structure TerminationToken where
  id : TaskId
deriving DecidableEq, Inhabited

/-- A task's number as it travels: `{"id": n}`. -/
def TaskId.wire (id : TaskId) : Json := .object [("id", .nat id.val)]

/-- A token as it travels: kind and payload, like an effect. -/
def TerminationToken.wire (token : TerminationToken) : Json :=
  .object [("kind", .str terminateTag), ("payload", token.id.wire)]

/-- A name for one task, by which it can be joined and its outcome read. -/
structure TaskHandle where
  scheduler : SchedulerId
  id : TaskId
  name : String
deriving Inhabited

namespace TaskHandle

/-- Two handles are equal when they name one task. -/
protected def beq (a b : TaskHandle) : Bool := a.scheduler == b.scheduler && a.id == b.id

instance : BEq TaskHandle := ⟨TaskHandle.beq⟩

/-- A handle as it travels shows the number only. -/
def wire (h : TaskHandle) : Json := h.id.wire

/-- The token that ends this task early. -/
def token (h : TaskHandle) : TerminationToken := ⟨h.id⟩

end TaskHandle

end EffectLoop
