import EffectLoop.Effect.Error

/-!
# Active tasks

The tasks of one scheduler that have no outcome yet, and the outcomes of those that have. A task is
registered under the next number; settling or terminating it removes its entry and fixes its outcome,
and only the first such act has an effect. `SettleGuard` is the duty to settle a task: it is
discharged by an outcome, or dropped, which abandons the task if it is still active.
-/

namespace EffectLoop

/-- An active task as others see it. -/
structure TaskEntry where
  id : TaskId
  name : String
  state : TaskState
deriving DecidableEq, Inhabited

/-- The tasks of one scheduler: the last number given out, the active ones by number, and the
outcomes of the settled ones. -/
structure ActiveTasks where
  lastId : Nat := 0
  entries : List TaskEntry := []
  settlements : List (TaskId × Outcome) := []
deriving Inhabited

namespace ActiveTasks

/-- The number the next task will get. -/
def nextId (tasks : ActiveTasks) : TaskId := ⟨tasks.lastId + 1⟩

/-- Enter a task under the next number. -/
def register (tasks : ActiveTasks) (name : String) : ActiveTasks :=
  { tasks with
    lastId := tasks.lastId + 1
    entries := tasks.entries ++ [⟨tasks.nextId, name, .created⟩] }

def contains (tasks : ActiveTasks) (id : TaskId) : Bool := tasks.entries.any (·.id == id)

/-- The state of an active task. -/
def state? (tasks : ActiveTasks) (id : TaskId) : Option TaskState :=
  (tasks.entries.find? (·.id == id)).map TaskEntry.state

def size (tasks : ActiveTasks) : Nat := tasks.entries.length

/-- The active tasks by increasing number. -/
def snapshot (tasks : ActiveTasks) : List TaskEntry := tasks.entries

/-- The outcome of a settled task. -/
def outcome? (tasks : ActiveTasks) (id : TaskId) : Option Outcome :=
  (tasks.settlements.find? (·.1 == id)).map Prod.snd

/-- Note a state; a task that is no longer active keeps none. -/
def setState (tasks : ActiveTasks) (id : TaskId) (state : TaskState) : ActiveTasks × Bool :=
  ({ tasks with
      entries := tasks.entries.map fun e => if e.id = id then { e with state } else e },
   tasks.contains id)

/-- Remove an active task and fix its outcome; false if it was not active. -/
def settle (tasks : ActiveTasks) (id : TaskId) (outcome : Outcome) : ActiveTasks × Bool :=
  if tasks.contains id then
    ({ tasks with
        entries := tasks.entries.filter (·.id ≠ id)
        settlements := tasks.settlements ++ [(id, outcome)] }, true)
  else (tasks, false)

/-- End an active task early. -/
def terminate (tasks : ActiveTasks) (id : TaskId) : ActiveTasks × Bool :=
  tasks.settle id (.error (.terminated id))

end ActiveTasks

/-- The duty to settle a task, held by whatever drives it. -/
structure SettleGuard where
  id : TaskId
deriving DecidableEq, Inhabited

namespace SettleGuard

/-- Discharge the duty with the driver's outcome. -/
def settle (guard : SettleGuard) (outcome : Outcome) (tasks : ActiveTasks) : ActiveTasks × Bool :=
  tasks.settle guard.id outcome

/-- Give the duty up undischarged. -/
def drop (guard : SettleGuard) (tasks : ActiveTasks) : ActiveTasks × Bool :=
  tasks.settle guard.id (.error (.abandoned guard.id))

end SettleGuard

end EffectLoop
