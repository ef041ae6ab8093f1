import EffectLoop.Loop.Host
import EffectLoop.Loop.Run
import EffectLoop.Script.Program

/-!
# Sessions

A program around the loop, told what to do one operation at a time: it starts coroutines through its
hosts, lets the loop run or the clock advance, and looks at what came of it.
-/

namespace EffectLoop.Session

open Script

/-- How a coroutine is started. -/
inductive Via
  | host
  | scheduler
  /-- On the scheduler, under a name. -/
  | named (name : String)
deriving Inhabited

/-- Which task an operation is about. -/
inductive Subject
  | variable (x : String)
  | id (n : Nat)
deriving Inhabited

/-- An operation. -/
inductive Op
  | start (host : SchedulerId) (target : Target) (args : List Expr) (bound : Option String) (via : Via)
  | event (host : SchedulerId) (event : Expr)
  | terminate (host : SchedulerId) (subject : Subject) (viaHost : Bool)
  | spawn (host : SchedulerId) (name : String) (target : Target) (args : List Expr)
      (bound : Option String)
  | run (host : SchedulerId) (name : String) (target : Target) (args : List Expr) (timeout : Nat)
  | runDrop (host : SchedulerId) (name : String) (target : Target) (args : List Expr)
  | openGate (name : String) (v : Json)
  | turn (n : Nat)
  | settle
  | advance (ms : Nat)
  | result (x : String)
  | info (x : String)
  | eval (e : Expr)
  | events (host : SchedulerId) (type : Option String) (next : Bool)
  | inspect (host : SchedulerId) (id : Nat)
  | kinds (host : SchedulerId)
deriving Inhabited

/-- A session under way. -/
structure State where
  loop : EventLoop Routine Code := {}
  vars : Assoc String TaskHandle := []

namespace State

/-- The variables as scripts see them. -/
def env (st : State) : Env := { vars := st.vars.map fun v => (v.1, .output (.task v.2)) }

/-- Name a task, for the session and on the board. -/
def bind (st : State) (x : Option String) (h : TaskHandle) : State :=
  match x with
  | none => st
  | some x =>
    { loop := { st.loop with board := st.loop.board.insert x (.task h) }
      vars := st.vars.insert x h }

/-- The number of the task an operation is about. -/
def taskId (st : State) : Subject → TaskId
  | .variable x => ((st.vars.find? x).map TaskHandle.id).getD ⟨0⟩
  | .id n => ⟨n⟩

end State

/-- The host of a scheduler as a boundary. -/
def boundary (w : World) (s : SchedulerId) : Host := ⟨s, (w.host s).nextId⟩

/-- An act on values of expressions. -/
def withArgs {α : Type} (st : State) (args : List Expr) (f : List Json → Act Routine Code α) :
    Act Routine Code α :=
  (Expr.evalItems st.env args).act.bind f

/-- The coroutine of a target; a target of another shape has none. -/
def coroutineOf {α : Type} (target : Target) (args : List Json) (f : Routine → Act Routine Code α) :
    Act Routine Code α :=
  .invoke target args fun
    | .coroutine co => f co
    | .pending _ => .panic

/-- The computation of a target; a target of another shape has none. -/
def computationOf {α : Type} (target : Target) (args : List Json)
    (f : Code → Act Routine Code α) : Act Routine Code α :=
  .invoke target args fun
    | .pending fu => f fu
    | .coroutine _ => .panic

/-- A kind as a value. -/
def reportKind : EffectKind → Json
  | .put => .str "Put"
  | .call => .str "Call"
  | .fork => .str "Fork"
  | .join => .str "Join"
  | .custom tag => .object [("custom", .str tag)]

/-- What a host answered, as a value. -/
def reportDispatched : Dispatched → Json
  | .forwarded v => .object [("forwarded", v)]
  | .started task token =>
    .object [("task", .nat task.id.val), ("name", .str task.name), ("terminate", token.wire),
      ("seen", .nat task.id.val)]

/-- A task that was just started, as a value. -/
def reportStarted (task : TaskHandle) : Json :=
  .object [("task", .nat task.id.val), ("name", .str task.name)]

/-- All about a task. -/
def reportTask (l : EventLoop Routine Code) (h : TaskHandle) : Json :=
  let settled := (l.outcome? h).isSome
  .object [("id", .nat h.id.val), ("display", .str h.id.text), ("name", .str h.name),
    ("settled", .bool settled), ("debug", .str (h.outline settled)), ("wire", h.wire),
    ("token", h.token.wire)]

/-- What became of an awaited coroutine, as a value. -/
def reportAwaited : EventLoop.Awaited → Json
  | .outcome o => o.report
  | .timeout => .str "timeout"
  | .panic => .str "panic"

/-- The events a recording sink keeps; null of any other sink. -/
def keptEvents (w : World) (l : EventLoop Routine Code) (sink : SinkId) (type : Option String) :
    Json :=
  match w.sinkMode sink with
  | .memory =>
    let kept := (l.sinks.find? sink.name).getD {}
    .arr (type.elim kept.events kept.eventsOfType)
  | _ => .null

/-- One look at a task of a scheduler. -/
def reportInspection (tasks : ActiveTasks) (id : TaskId) : Json :=
  .object [("len", .nat tasks.size), ("empty", .bool (tasks.size == 0)),
    ("contains", .bool (tasks.contains id)),
    ("state", ((tasks.state? id).map fun s =>
      .object [("display", .str s.text), ("terminal", .bool s.isTerminal)]).getD .null)]

/-- The kinds a scheduler processes and its settings. -/
def reportKinds (spec : SchedulerSpec) : Json :=
  .object [("kinds", .arr (spec.processors.kinds.map reportKind)),
    ("config", .object [("name", .str spec.config.name),
      ("limit", (spec.config.passThroughLimit.map Json.nat).getD .null)])]

/-- Carry out an act; its value, if it has one, decides how the session goes on. -/
def State.carryOut {α : Type} (w : World) (fuel : Nat) (st : State) (a : Act Routine Code α)
    (f : State → α → State × Json) : State × Json :=
  match st.loop.runAct w.program fuel a with
  | (loop, some v) => f { st with loop } v
  | (loop, none) => ({ st with loop }, .str "panic")

/-- One operation, with its result. -/
def State.step (w : World) (fuel : Nat) (st : State) : Op → State × Json
  | .start s target args bound via =>
    match via with
    | .host =>
      st.carryOut w fuel
        (withArgs st args fun args => coroutineOf target args fun co =>
          (boundary w s).handle (.coroutine co))
        fun st d => (d.task?.elim st (st.bind bound), reportDispatched d)
    | .scheduler =>
      st.carryOut w fuel
        (withArgs st args fun args => coroutineOf target args fun co =>
          .start s "coroutine" co .ret)
        fun st h => (st.bind bound h, reportStarted h)
    | .named name =>
      st.carryOut w fuel
        (withArgs st args fun args => coroutineOf target args fun co => .start s name co .ret)
        fun st h => (st.bind bound h, reportStarted h)
  | .event s event =>
    st.carryOut w fuel ((event.eval st.env).act.bind fun v => (boundary w s).handle (.event v))
      fun st d => (st, reportDispatched d)
  | .terminate s subject viaHost =>
    let id := st.taskId subject
    if viaHost then
      st.carryOut w fuel ((boundary w s).handle (.terminate ⟨id⟩)) fun st d =>
        (st, reportDispatched d)
    else st.carryOut w fuel (Act.request (.terminate s id)) fun st removed => (st, .bool removed)
  | .spawn s name target args bound =>
    st.carryOut w fuel
      (withArgs st args fun args => computationOf target args fun fu => .spawn s name fu .ret)
      fun st h => (st.bind bound h, reportStarted h)
  | .run s name target args timeout =>
    st.carryOut w fuel (withArgs st args fun args => coroutineOf target args .ret) fun st co =>
      let (loop, awaited) := st.loop.runNested w.program fuel s name co timeout
      ({ st with loop }, reportAwaited awaited)
  | .runDrop s name target args =>
    st.carryOut w fuel (withArgs st args fun args => coroutineOf target args .ret) fun st co =>
      let (loop, d) := st.loop.nest (w.scheduler s) none s name co
      ({ st with loop := loop.cancel d.key }, reportEntries (loop.activeTasks s).snapshot)
  | .openGate name v => ({ st with loop := st.loop.openGate name v }, .null)
  | .turn n => ({ st with loop := n.repeat (EventLoop.turn w.program fuel) st.loop }, .null)
  | .settle => ({ st with loop := st.loop.quiesce w.program fuel fuel }, .null)
  | .advance ms =>
    let loop := st.loop.runUntil w.program fuel (st.loop.now + ms) fuel
    ({ st with loop := loop.quiesce w.program fuel fuel }, .nat loop.now)
  | .result x => (st, reportOutcome ((st.vars.find? x).bind st.loop.outcome?))
  | .info x => (st, ((st.vars.find? x).map (reportTask st.loop)).getD .null)
  | .eval e => st.carryOut w fuel (e.eval st.env).act fun st v => (st, v)
  | .events s type next =>
    let h := w.host s
    (st, keptEvents w st.loop (if next then h.nextId else h.sinkId) type)
  | .inspect s id => (st, reportInspection (st.loop.activeTasks s) ⟨id⟩)
  | .kinds s => (st, reportKinds (w.scheduler s))

/-- The active tasks of every host, as a value. -/
def reportActive (w : World) (l : EventLoop Routine Code) : Json :=
  .object (w.hosts.zipIdx.map fun (h, i) => (h.name, reportEntries (l.activeTasks ⟨i⟩).snapshot))

/-- The journal as values; records only if they are asked for. -/
def reportJournal (trace : Bool) (journal : List Entry) : Json :=
  .arr ((journal.filter fun
    | .record _ => trace
    | _ => true).map Entry.report)

/-- Operations in order, each with its result, what was logged, and the active tasks after it. -/
def State.steps (w : World) (fuel : Nat) (trace : Bool) : State → List Op → State × List Json
  | st, [] => (st, [])
  | st, op :: rest =>
    let (st, result) := st.step w fuel op
    let report := Json.object [("result", result), ("log", reportJournal trace st.loop.journal),
      ("active", reportActive w st.loop)]
    let (st, reports) :=
      State.steps w fuel trace { st with loop := { st.loop with journal := [] } } rest
    (st, report :: reports)

/-- A whole session, and what is left when the loop has gone away. -/
def run (w : World) (fuel : Nat) (trace : Bool) (ops : List Op) : Json :=
  let (st, reports) := State.steps w fuel trace {} ops
  let loop := st.loop.shutdown
  let left := (List.range w.hosts.length).foldl (fun n i => n + (loop.activeTasks ⟨i⟩).size) 0
  .object [("steps", .arr reports),
    ("after_shutdown", .object [
      ("results", .object (st.vars.map fun v => (v.1, reportOutcome (loop.outcome? v.2)))),
      ("active", .nat left)])]

end EffectLoop.Session
