import EffectLoop.Order.Checkout
import EffectLoop.Script.Stepper

/-!
# Programs made of scripts

What the targets, processors and sinks of a session do. A function runs when it is invoked; a future
and a coroutine run later, but may have eager statements that run when they are invoked. Sinks other
than the recording one note every event they are handed.
-/

namespace EffectLoop.Script

/-- The body of a target. -/
inductive Definition
  | function (script : List Stmt)
  | future (eager script : List Stmt)
  | coroutine (eager script : List Stmt)
  | steps (eager : List Stmt) (steps : List StepSpec)
  /-- The checkout flow, for a product and a user. -/
  | order (services : Order.Services)
  | service (services : Order.Services) (service : Order.Service)
deriving Inhabited

/-- Whether a definition makes a plain computation or a coroutine. -/
def Definition.shape : Definition → Shape
  | .function _ | .future _ _ => .function
  | .coroutine _ _ | .steps _ _ | .order _ => .coroutine
  | .service _ s => s.shape

/-- What a sink answers. -/
inductive SinkMode
  | memory
  | echo
  | count
  | const (v : Json)
  /-- Panics on an event of type `BOOM`, else echoes. -/
  | panic
  /-- Starts a target on an event of type `GO`, else echoes. -/
  | start
deriving Inhabited

/-- A host: a scheduler, its sink, and what events are forwarded to. -/
structure HostSpec where
  name : String
  sink : SinkMode := .memory
  next : Option SinkMode := none
  processors : List (EffectKind × List Stmt) := []
  config : SchedulerConfig := {}
deriving Inhabited

namespace HostSpec

/-- The sink that put effects go to. -/
def sinkId (h : HostSpec) : SinkId := ⟨h.name⟩

/-- The sink that events are forwarded to. -/
def nextId (h : HostSpec) : SinkId := if h.next.isSome then ⟨h.name ++ ".next"⟩ else h.sinkId

def nextMode (h : HostSpec) : SinkMode := h.next.getD h.sink

end HostSpec

/-- The hosts and targets of a session. -/
structure World where
  hosts : List HostSpec
  targets : Assoc String (Target × Definition)
deriving Inhabited

namespace World

/-- The place of a host among the hosts. -/
def hostIndex (w : World) (name : String) : SchedulerId :=
  ⟨w.hosts.findIdx fun h => h.name == name⟩

/-- The host of a scheduler. -/
def host (w : World) (s : SchedulerId) : HostSpec := (w.hosts[s.val]?).getD { name := "" }

/-- The target under a key. -/
def target? (w : World) (key : String) : Option Target := (w.targets.find? key).map Prod.fst

/-- The scripts of all processors, host by host. -/
def processorScripts (w : World) : List (List Stmt) :=
  w.hosts.flatMap fun h => h.processors.map Prod.snd

/-- How many processors the hosts before a place bring. -/
def processorsBefore (w : World) (s : SchedulerId) : Nat :=
  (w.hosts.take s.val).foldl (fun n h => n + h.processors.length) 0

/-- How the scheduler of a host is set up. -/
def scheduler (w : World) (s : SchedulerId) : SchedulerSpec :=
  let h := w.host s
  (SchedulerSpec.builder h.sinkId).withProcessors
    (h.processors.zipIdx.map fun (p, i) => (p.1, .own (w.processorsBefore s + i)))
    |>.withConfig h.config

/-- What a sink is named and how it answers. -/
def sinkMode (w : World) (sink : SinkId) : SinkMode :=
  match w.hosts.find? fun h => h.sinkId == sink with
  | some h => h.sink
  | none =>
    match w.hosts.find? fun h => h.nextId == sink with
    | some h => h.nextMode
    | none => .memory

/-- Answer with the event itself. -/
def echo {Co Fu : Type} (event : Json) : Act Co Fu Json := .ret (.object [("echo", event)])

/-- Hand an event to a sink. -/
def dispatch (w : World) (sink : SinkId) (event : Json) : Act Routine Code Json :=
  let kept (answer : Nat → Json) : Act Routine Code Json :=
    .ask (.keep sink event) fun count => .ret (answer count)
  let noted (act : Act Routine Code Json) : Act Routine Code Json :=
    .ask (.noteDispatch event sink) fun _ => act
  match w.sinkMode sink with
  | .memory => kept fun _ => .null
  | .echo => noted (echo event)
  | .count => noted (kept fun count => .nat count)
  | .const v => noted (.ret v)
  | .panic => noted (if event.field "type" == .str "BOOM" then .panic else echo event)
  | .start => noted <|
    if event.field "type" == .str "GO" then
      match w.target? (event.field "target").plain with
      | some target => .invoke target [] fun
        | .coroutine co => .start (w.hostIndex "main") "coroutine" co fun h =>
          .ret (.object [("started", .nat h.id.val)])
        | .pending _ => .panic
      | none => .panic
    else echo event

/-- Run statements when a target is invoked; what they come to does not count. -/
def eagerly (eager : List Stmt) (args : List Json) (made : Invoked Routine Code) :
    Act Routine Code (Invoked Routine Code) :=
  (body eager args).finish.bind fun _ => .ret made

/-- Invoke a definition. -/
def invokeDefinition (args : List Json) : Definition → Act Routine Code (Invoked Routine Code)
  | .function script => (body script args).finish.bind fun r => .ret (.pending (.done r))
  | .future eager script => eagerly eager args (.pending (body script args))
  | .coroutine eager script =>
    eagerly eager args (.coroutine (.block (.ofCode (body script args))))
  | .steps eager steps => eagerly eager args (.coroutine (.stepper { steps, env := { args } }))
  | .order services =>
    .ret (.coroutine (.block (.ofCode
      (Order.orderProduct services (Order.arg args 0).plain (Order.arg args 1).plain).code)))
  | .service services s => .ret (Order.invoke .block services s args)

/-- Invoke a target: a defined one by its key, else one of the services. -/
def invoke (w : World) (target : Target) (args : List Json) :
    Act Routine Code (Invoked Routine Code) :=
  match Order.invoke? .block target args with
  | some invoked => .ret invoked
  | none =>
    match w.targets.find? target.body.label with
    | some (_, definition) => invokeDefinition args definition
    | none => .panic

/-- The code of a processor. -/
def process (w : World) (number : Nat) (s : SchedulerId) (e : Effect) : Code :=
  processor ((w.processorScripts[number]?).getD []) ⟨s, (w.host s).sinkId, e⟩

/-- The program of a session. -/
def program (w : World) : Program Routine Code where
  scheduler := w.scheduler
  resume := Routine.resume
  advance := Routine.advance
  work := Code.await
  invoke := w.invoke
  process := w.process
  dispatch := w.dispatch

end World

end EffectLoop.Script
