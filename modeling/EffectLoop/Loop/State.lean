import EffectLoop.Loop.Driver
import EffectLoop.Sink.Memory

/-!
# The state of the loop

Everything that user code, tasks and the program around the loop can see or change: the clock, the
active tasks of every scheduler, gates, the board of published outputs, what sinks have kept, the
journal, the drivers, and who is to be polled next. The operations here are the atoms of a step.
-/

namespace EffectLoop

/-- The state of the loop. -/
structure EventLoop (Co Fu : Type) where
  /-- Milliseconds since the start. -/
  now : Nat := 0
  tasks : Assoc SchedulerId ActiveTasks := []
  /-- The opened gates and their values. -/
  gates : Assoc String Json := []
  board : Assoc String Output := []
  sinks : Assoc String MemorySink := []
  /-- Oldest first. -/
  journal : List Entry := []
  /-- The drivers that are not over, oldest first. -/
  drivers : List (Driver Co Fu) := []
  lastKey : Nat := 0
  /-- The homes to be polled, first in first out. -/
  queue : List DriverKey := []
  /-- The homes to be queued once the queue is empty. -/
  deferred : List DriverKey := []
  /-- The waits under way and the homes they wake, in the order in which they began. -/
  waiting : List (Wait × DriverKey) := []
  /-- The homes a panic ended. -/
  crashed : List DriverKey := []
  focus : Focus Co Fu := .idle

/-- Whether a wait is for a given task. -/
def Wait.isFor (s : SchedulerId) (id : TaskId) : Wait → Bool
  | .task h => h.scheduler == s && h.id == id
  | _ => false

/-- Whether a wait is for a gate. -/
def Wait.isAt (gate : String) : Wait → Bool
  | .gate g => g == gate
  | _ => false

/-- Whether a wait ends at a time. -/
def Wait.endsAt (time : Nat) : Wait → Bool
  | .sleep deadline => deadline == time
  | _ => false

/-- The time a wait ends at, if it is for a time. -/
def Wait.deadline? : Wait → Option Nat
  | .sleep deadline => some deadline
  | _ => none

namespace EventLoop

variable {Co Fu : Type}

/-! ## Tasks, drivers, the journal -/

/-- The active tasks of a scheduler. -/
def activeTasks (l : EventLoop Co Fu) (s : SchedulerId) : ActiveTasks := (l.tasks.find? s).getD {}

def setTasks (l : EventLoop Co Fu) (s : SchedulerId) (tasks : ActiveTasks) : EventLoop Co Fu :=
  { l with tasks := l.tasks.insert s tasks }

/-- The outcome of the task a handle names. -/
def outcome? (l : EventLoop Co Fu) (h : TaskHandle) : Option Outcome :=
  (l.activeTasks h.scheduler).outcome? h.id

def driver? (l : EventLoop Co Fu) (key : DriverKey) : Option (Driver Co Fu) :=
  l.drivers.find? (·.key == key)

def modifyDriver (l : EventLoop Co Fu) (key : DriverKey) (f : Driver Co Fu → Driver Co Fu) :
    EventLoop Co Fu :=
  { l with drivers := l.drivers.map fun d => if d.key = key then f d else d }

def note (l : EventLoop Co Fu) (e : Entry) : EventLoop Co Fu :=
  { l with journal := l.journal ++ [e] }

/-- Enter a record made within `spans`. -/
def record (l : EventLoop Co Fu) (spans : List Span) (level : Level) (source : Source)
    (message : String) (fields : List LogField) : EventLoop Co Fu :=
  l.note (.record { level, source, message, fields, spans })

/-- The spans in which a driver, or the program around the loop, speaks. -/
def spansOf (l : EventLoop Co Fu) (current : Option DriverKey) : List Span :=
  ((current.bind l.driver?).map Driver.spans).getD []

/-! ## Waking -/

/-- Queue homes in order, each at most once. -/
def enqueue (queue : List DriverKey) (homes : List DriverKey) : List DriverKey :=
  homes.foldl (fun queue home => if home ∈ queue then queue else queue ++ [home]) queue

/-- End the waits that satisfy `ready`: their homes are queued in the order in which they began. -/
def wake (l : EventLoop Co Fu) (ready : Wait → Bool) : EventLoop Co Fu :=
  { l with
    queue := enqueue l.queue ((l.waiting.filter fun w => ready w.1).map Prod.snd)
    waiting := l.waiting.filter fun w => !ready w.1 }

/-- Queue the deferred homes. -/
def flush (l : EventLoop Co Fu) : EventLoop Co Fu :=
  { l with queue := enqueue l.queue l.deferred, deferred := [] }

/-- The earliest time a wait ends at. -/
def nextDeadline? (l : EventLoop Co Fu) : Option Nat :=
  (l.waiting.filterMap fun w => w.1.deadline?).min?

/-- Let the clock reach a time and end the waits for it. -/
def jump (l : EventLoop Co Fu) (time : Nat) : EventLoop Co Fu :=
  { l with now := time }.wake (Wait.endsAt time)

/-- What a wait resolves with at this moment, if it does. -/
def peek (l : EventLoop Co Fu) : Wait → Option Resume
  | .sleep deadline => if deadline ≤ l.now then some (.ok (.value .null)) else none
  | .gate name => (l.gates.find? name).map fun v => .ok (.value v)
  | .task h => (l.outcome? h).map fun o => o.map .value
  | .turn | .nested _ | .never => none

/-- Open a gate; one already open keeps its value. -/
def openGate (l : EventLoop Co Fu) (name : String) (v : Json) : EventLoop Co Fu :=
  if (l.gates.find? name).isSome then l
  else { l with gates := l.gates.insert name v }.wake (Wait.isAt name)

/-! ## Registering and settling -/

/-- Enter a task under a scheduler. -/
def register (l : EventLoop Co Fu) (s : SchedulerId) (name : String) : EventLoop Co Fu × TaskHandle :=
  let tasks := l.activeTasks s
  (l.setTasks s (tasks.register name), ⟨s, tasks.nextId, name⟩)

/-- Note the state of a task that is still active. -/
def setState (l : EventLoop Co Fu) (h : TaskHandle) (state : TaskState) : EventLoop Co Fu :=
  l.setTasks h.scheduler ((l.activeTasks h.scheduler).setState h.id state).1

/-- Discharge a driver's duty by `act`; says whether the task was still active. Those who wait for
the task wake. -/
def settle (l : EventLoop Co Fu) (d : Driver Co Fu) (act : ActiveTasks → ActiveTasks × Bool) :
    EventLoop Co Fu × Bool :=
  let (tasks, active) := act (l.activeTasks d.task.scheduler)
  if active then ((l.setTasks d.task.scheduler tasks).wake (Wait.isFor d.task.scheduler d.task.id), true)
  else
    (l.record d.spans .debug .registry "settlement dropped, task no longer registered"
      [⟨"task", d.task.id.text, false⟩], false)

/-- End a task early, as user code within `spans` asks. -/
def terminate (l : EventLoop Co Fu) (spans : List Span) (s : SchedulerId) (id : TaskId) :
    EventLoop Co Fu × Bool :=
  let (tasks, active) := (l.activeTasks s).terminate id
  if active then
    (((l.setTasks s tasks).wake (Wait.isFor s id)).record spans .info .scheduler
      "Task terminated" [⟨"task", id.text, false⟩], true)
  else (l, false)

/-- Take a driver away without an outcome. -/
def abandon (l : EventLoop Co Fu) (d : Driver Co Fu) : EventLoop Co Fu :=
  let (l, active) := l.settle d d.guard.drop
  let l := { l with drivers := l.drivers.filter (·.key ≠ d.key) }
  if active then
    l.record d.spans .warn .registry "Task abandoned by its driver" [⟨"task", d.task.id.text, false⟩]
  else l

/-- The drivers nested below some keys, at any depth: a nested driver is younger than its owner, so
one pass from the oldest finds them all. -/
def nestedBelow (keys : List DriverKey) : List (Driver Co Fu) → List (Driver Co Fu)
  | [] => []
  | d :: rest =>
    match d.owner with
    | .driver key => if key ∈ keys then d :: nestedBelow (d.key :: keys) rest else nestedBelow keys rest
    | _ => nestedBelow keys rest

/-- Take away the drivers nested in a coroutine that is over, youngest first. -/
def dropNested (l : EventLoop Co Fu) (key : DriverKey) : EventLoop Co Fu :=
  (nestedBelow [key] l.drivers).reverse.foldl abandon l

/-- Take away a driver and those nested in it, youngest first. -/
def cancel (l : EventLoop Co Fu) (key : DriverKey) : EventLoop Co Fu :=
  let l := l.dropNested key
  match l.driver? key with
  | some d => l.abandon d
  | none => l

/-- Forget the waits of a home that is gone. -/
def forget (l : EventLoop Co Fu) (home : DriverKey) : EventLoop Co Fu :=
  { l with
    queue := l.queue.filter (· ≠ home)
    deferred := l.deferred.filter (· ≠ home)
    waiting := l.waiting.filter (·.2 ≠ home) }

/-- A panic in a home ends every driver that lives there, youngest first. -/
def crash (l : EventLoop Co Fu) (home : DriverKey) : EventLoop Co Fu :=
  let l := (l.drivers.filter (·.home = home)).reverse.foldl abandon l
  { l.forget home with crashed := l.crashed ++ [home] }

/-! ## Starting work -/

/-- Enter a task and a driver for it. -/
def enter (l : EventLoop Co Fu) (spec : SchedulerSpec) (current : Option DriverKey) (owner : Owner)
    (s : SchedulerId) (name : String) (job : Job Co) (activity : Activity Fu) :
    EventLoop Co Fu × Driver Co Fu :=
  let (l, task) := l.register s name
  let key : DriverKey := ⟨l.lastKey + 1⟩
  let home := match owner with
    | .driver k => ((l.driver? k).map Driver.home).getD k
    | _ => key
  let d : Driver Co Fu :=
    { key, owner, home, task, guard := ⟨task.id⟩
      spans := l.spansOf current ++ [spec.span task], job, activity }
  ({ l with lastKey := key.val, drivers := l.drivers ++ [d] }, d)

/-- Start a coroutine in a runtime task of its own. -/
def start (l : EventLoop Co Fu) (spec : SchedulerSpec) (current : Option DriverKey) (s : SchedulerId)
    (name : String) (co : Co) : EventLoop Co Fu × TaskHandle :=
  let (l, d) := l.enter spec current .loop s name (.coroutine co 0 .put) .fresh
  ({ l with queue := l.queue ++ [d.key] }, d.task)

/-- Start a plain computation in a runtime task of its own. -/
def spawn (l : EventLoop Co Fu) (spec : SchedulerSpec) (current : Option DriverKey) (s : SchedulerId)
    (name : String) (fu : Fu) : EventLoop Co Fu × TaskHandle :=
  let (l, d) := l.enter spec current .loop s name .plain (.pending (.unbegun fu))
  let l := l.setState d.task .running
  ({ l with queue := l.queue ++ [d.key] }, d.task)

/-- Enter a coroutine to be driven from where it is entered. -/
def nest (l : EventLoop Co Fu) (spec : SchedulerSpec) (current : Option DriverKey) (s : SchedulerId)
    (name : String) (co : Co) : EventLoop Co Fu × Driver Co Fu :=
  l.enter spec current (current.elim .caller .driver) s name (.coroutine co 0 .put) .fresh

end EventLoop

end EffectLoop
