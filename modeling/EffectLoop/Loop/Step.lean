import EffectLoop.Loop.State

/-!
# One step of the loop

While a driver is being polled the loop goes from one request of user code to the next. A poll begins
at the home's driver, descends into the drivers nested in it, resumes coroutines, processes what they
yield, and climbs back when a driver has finished or waits. A coroutine is resumed with null first,
then with what it passed through or with the outcome of its effect; an effect without a processor, or
too many pass-through yields in a row, end it.
-/

namespace EffectLoop

namespace EventLoop

variable {Co Fu α : Type}

/-- Answer a request made within `spans`. -/
def reply (l : EventLoop Co Fu) (spans : List Span) : (q : Request) → EventLoop Co Fu × q.Reply
  | .now => (l, l.now)
  | .peek w => (l, l.peek w)
  | .log v => (l.note (.log v), ())
  | .noteDispatch event sink => (l.note (.dispatched event sink.name), ())
  | .record level source message fields => (l.record spans level source message fields, ())
  | .openGate name v => (l.openGate name v, ())
  | .publish key o => ({ l with board := l.board.insert key o }, ())
  | .fetch key => (l, l.board.find? key)
  | .outcome h => (l, l.outcome? h)
  | .snapshot s => (l, (l.activeTasks s).snapshot)
  | .terminate s id => l.terminate spans s id
  | .keep sink event =>
    let (kept, _) := ((l.sinks.find? sink.name).getD {}).dispatch event
    ({ l with sinks := l.sinks.insert sink.name kept }, kept.events.length)

/-- Carry out the first request of an act on behalf of a driver, or of the program around the loop. -/
def perform (p : Program Co Fu) (l : EventLoop Co Fu) (current : Option DriverKey) :
    Act Co Fu α → EventLoop Co Fu × Act Co Fu α
  | .ret a => (l, .ret a)
  | .panic => (l, .panic)
  | .ask q k =>
    let (l, r) := l.reply (l.spansOf current) q
    (l, k r)
  | .invoke target args k => (l, (p.invoke target args).bind k)
  | .dispatch sink event k => (l, (p.dispatch sink event).bind k)
  | .start s name co k =>
    let (l, h) := l.start (p.scheduler s) current s name co
    (l, k h)
  | .spawn s name fu k =>
    let (l, h) := l.spawn (p.scheduler s) current s name fu
    (l, k h)
  | .nest s name co k =>
    let (l, d) := l.nest (p.scheduler s) current s name co
    (l, k d.key)

/-- The text of the failure of a built-in processor given an effect of another kind. -/
def mismatch (b : Builtin) (e : Effect) : EffectError :=
  .plain (b.kind.tag ++ " processor cannot handle a `" ++ e.kind.tag ++ "` effect")

/-- The failure of a coroutine that passed through too often. -/
def exceeded (limit : Nat) : EffectError :=
  .plain ("exceeded " ++ toString limit ++ " consecutive pass-through yields")

/-- The record of a task's outcome. -/
def recordOutcome (l : EventLoop Co Fu) (d : Driver Co Fu) : Outcome → EventLoop Co Fu
  | .ok _ => l.record d.spans .debug .scheduler "Task done" [⟨"task", d.task.id.text, false⟩]
  | .error e =>
    l.record d.spans .warn .scheduler "Task failed"
      [⟨"task", d.task.id.text, false⟩, ⟨"error", e.message, false⟩]

/-- A driver has its outcome: the task is settled, then what its coroutine still holds goes away. -/
def conclude (l : EventLoop Co Fu) (d : Driver Co Fu) (outcome : Outcome) : EventLoop Co Fu :=
  let l := l.recordOutcome d outcome
  let (l, _) := l.settle d (d.guard.settle outcome)
  { l with drivers := l.drivers.filter (·.key ≠ d.key) }.dropNested d.key

/-- Begin a wait: the home is deferred or noted to be woken, unless the poll comes from inside a
coroutine body, which nothing wakes. -/
def wait (l : EventLoop Co Fu) (pollers : List (Poller Co Fu)) (d : Driver Co Fu) (w : Wait) :
    EventLoop Co Fu :=
  if pollers.all Poller.wakes then
    match w with
    | .turn => { l with deferred := l.deferred ++ [d.home] }
    | .nested _ | .never => l
    | w => { l with waiting := l.waiting ++ [(w, d.home)] }
  else l

/-- What a driver does next. -/
def focusOn (l : EventLoop Co Fu) (pollers : List (Poller Co Fu)) (key : DriverKey)
    (doing : Doing Co Fu) : EventLoop Co Fu :=
  { l with focus := .active pollers key doing }

/-- A driver begins to act. -/
def setActivity (l : EventLoop Co Fu) (key : DriverKey) (activity : Activity Fu) :
    EventLoop Co Fu :=
  l.modifyDriver key fun d => { d with activity }

/-- What a driver keeps about its coroutine. -/
def setJob (l : EventLoop Co Fu) (key : DriverKey) (job : Job Co) : EventLoop Co Fu :=
  l.modifyDriver key fun d => { d with job }

/-- The coroutine of `d` has yielded. -/
def stepYield (p : Program Co Fu) (l : EventLoop Co Fu) (pollers : List (Poller Co Fu))
    (d : Driver Co Fu) (passes : Nat) (kind : EffectKind) (co : Co) : Yielded → EventLoop Co Fu
  | .pass o =>
    let l := l.setJob d.key (.coroutine co (passes + 1) kind)
    match (p.scheduler d.task.scheduler).config.passThroughLimit with
    | some limit =>
      if limit < passes + 1 then l.focusOn pollers d.key (.finish (.error (exceeded limit)))
      else l.focusOn pollers d.key (.resume (.ok o))
    | none => l.focusOn pollers d.key (.resume (.ok o))
  | .effect e =>
    let l := l.setJob d.key (.coroutine co 0 e.kind)
    match (p.scheduler d.task.scheduler).processors.get? e.kind with
    | none => l.focusOn pollers d.key (.finish (.error (.unknownKind e.kind.tag)))
    | some processor =>
      ((l.record d.spans .debug .scheduler "Routing effect"
        [⟨"kind", e.kind.tag, false⟩]).setState d.task (.suspended e.kind)).focusOn pollers d.key
          (.process processor e {})

/-- The next doing of a driver that has an effect processed by a built-in processor. -/
def builtinDoing (p : Program Co Fu) (b : Builtin) (e : Effect) (spot : Spot Fu) : Doing Co Fu :=
  match b, e with
  | .put, .put event => .await .turn { spot with frames := .deliver event :: spot.frames }
  | .call, .call target args => .invoke .call target (p.invoke target args) spot
  | .fork, .fork target args => .invoke .fork target (p.invoke target args) spot
  | .join, .join h => .await (.task h) spot
  | b, e => .answer (.error (mismatch b e)) spot

/-- A target has been invoked: a fork starts what it gave, a call works on it in place. -/
def stepInvoked (p : Program Co Fu) (l : EventLoop Co Fu) (pollers : List (Poller Co Fu))
    (d : Driver Co Fu) (b : Builtin) (target : Target) (spot : Spot Fu) :
    Invoked Co Fu → EventLoop Co Fu
  | .pending fu =>
    match b with
    | .fork =>
      let (l, h) := l.spawn (p.scheduler d.task.scheduler) (some d.key) d.task.scheduler target.name fu
      l.focusOn pollers d.key (.answer (.ok (.task h)) spot)
    | _ => l.focusOn pollers d.key (.work (p.work fu) { spot with frames := .call :: spot.frames })
  | .coroutine co =>
    match b with
    | .fork =>
      let (l, h) := l.start (p.scheduler d.task.scheduler) (some d.key) d.task.scheduler target.name co
      l.focusOn pollers d.key (.answer (.ok (.task h)) spot)
    | _ =>
      let (l, nested) :=
        l.nest (p.scheduler d.task.scheduler) (some d.key) d.task.scheduler target.name co
      l.focusOn pollers d.key
        (.await (.nested nested.key) { spot with frames := .call :: spot.frames })

/-- An answer has reached `d` at `spot`: it goes through the frames, joins with the other branch of a
fork, and at last resumes the coroutine or is the outcome. -/
def stepAnswer (p : Program Co Fu) (l : EventLoop Co Fu) (pollers : List (Poller Co Fu))
    (d : Driver Co Fu) (r : Resume) : Spot Fu → EventLoop Co Fu
  | ⟨.code k :: frames, forks⟩ => l.focusOn pollers d.key (.work (p.work (k r)) ⟨frames, forks⟩)
  | ⟨.call :: frames, forks⟩ =>
    l.focusOn pollers d.key (.answer (r.map fun o => .value o.wire) ⟨frames, forks⟩)
  | ⟨.deliver event :: frames, forks⟩ =>
    l.focusOn pollers d.key
      (.dispatch (p.dispatch (p.scheduler d.task.scheduler).sink event) ⟨frames, forks⟩)
  | ⟨[], .left right k frames :: forks⟩ =>
    l.focusOn pollers d.key (.visit right (.right (.finished r) k frames :: forks))
  | ⟨[], .right (.finished r') k frames :: forks⟩ =>
    l.focusOn pollers d.key (.work (p.work (k r' r)) ⟨frames, forks⟩)
  | ⟨[], .right left k frames :: forks⟩ =>
    l.focusOn pollers d.key (.pause (.both left (.finished r) k frames) forks)
  | ⟨[], []⟩ =>
    match d.job, r with
    | .coroutine _ _ kind, .error e =>
      (l.record d.spans .debug .scheduler "Effect failed, delivering into coroutine"
        [⟨"kind", kind.tag, false⟩, ⟨"error", e.message, false⟩]).focusOn pollers d.key (.resume r)
    | .coroutine _ _ _, .ok _ => l.focusOn pollers d.key (.resume r)
    | .plain, r => l.focusOn pollers d.key (.finish (r.map Output.wire))

/-- One step of the driver `d` under `pollers`. -/
def stepDriver (p : Program Co Fu) (l : EventLoop Co Fu) (pollers : List (Poller Co Fu))
    (d : Driver Co Fu) : Doing Co Fu → EventLoop Co Fu
  | .poll =>
    match d.activity with
    | .fresh =>
      (l.record d.spans .debug .scheduler "Task started" []).focusOn pollers d.key
        (.resume (.ok (.value .null)))
    | .pending branch => (l.setActivity d.key .busy).focusOn pollers d.key (.visit branch [])
    | .busy => l.focusOn pollers d.key (.leave none)
  | .resume input =>
    match d.job with
    | .coroutine co passes kind =>
      let co := p.resume co input
      (((l.setState d.task .running).setActivity d.key .busy).setJob d.key
        (.coroutine co passes kind)).focusOn pollers d.key (.advance (p.advance co))
    | .plain => l.focusOn pollers d.key (.leave none)
  | .advance (.ret (.more co)) => l.focusOn pollers d.key (.advance (p.advance co))
  | .advance (.ret (.poll key k)) => l.focusOn (.body d.key k :: pollers) key .poll
  | .advance (.ret (.yield y co)) =>
    match d.job with
    | .coroutine _ passes kind => l.stepYield p pollers d passes kind co y
    | .plain => l.focusOn pollers d.key (.leave none)
  | .advance (.ret (.done outcome _)) => (l.dropNested d.key).focusOn pollers d.key (.finish outcome)
  | .advance .panic => l.focusOn pollers d.key .crash
  | .advance a =>
    let (l, a) := l.perform p (some d.key) a
    l.focusOn pollers d.key (.advance a)
  | .visit (.unbegun fu) forks => l.focusOn pollers d.key (.work (p.work fu) { forks })
  | .visit (.waiting (.nested key) frames) forks =>
    l.focusOn (.waiting d.key ⟨frames, forks⟩ :: pollers) key .poll
  | .visit (.waiting .turn frames) forks =>
    l.focusOn pollers d.key (.answer (.ok (.value .null)) ⟨frames, forks⟩)
  | .visit (.waiting w frames) forks =>
    match l.peek w with
    | some r => l.focusOn pollers d.key (.answer r ⟨frames, forks⟩)
    | none => l.focusOn pollers d.key (.pause (.waiting w frames) forks)
  | .visit (.both left right k frames) forks =>
    l.focusOn pollers d.key (.visit left (.left right k frames :: forks))
  | .visit (.finished r) forks => l.focusOn pollers d.key (.answer r { forks })
  | .work (.ret (.done r)) spot => l.focusOn pollers d.key (.answer r spot)
  | .work (.ret (.wait w k)) spot =>
    l.focusOn pollers d.key (.await w { spot with frames := .code k :: spot.frames })
  | .work (.ret (.delegate b e k)) spot =>
    l.focusOn pollers d.key (.process (.builtin b) e { spot with frames := .code k :: spot.frames })
  | .work (.ret (.both left right k)) spot =>
    l.focusOn pollers d.key
      (.work (p.work left) { forks := .left (.unbegun right) k spot.frames :: spot.forks })
  | .work .panic _ => l.focusOn pollers d.key .crash
  | .work a spot =>
    let (l, a) := l.perform p (some d.key) a
    l.focusOn pollers d.key (.work a spot)
  | .process (.own number) e spot =>
    l.focusOn pollers d.key (.work (p.work (p.process number d.task.scheduler e)) spot)
  | .process (.builtin b) e spot => l.focusOn pollers d.key (builtinDoing p b e spot)
  | .invoke b target (.ret invoked) spot => l.stepInvoked p pollers d b target spot invoked
  | .invoke _ _ .panic _ => l.focusOn pollers d.key .crash
  | .invoke b target a spot =>
    let (l, a) := l.perform p (some d.key) a
    l.focusOn pollers d.key (.invoke b target a spot)
  | .dispatch (.ret v) spot => l.focusOn pollers d.key (.answer (.ok (.value v)) spot)
  | .dispatch .panic _ => l.focusOn pollers d.key .crash
  | .dispatch a spot =>
    let (l, a) := l.perform p (some d.key) a
    l.focusOn pollers d.key (.dispatch a spot)
  | .await (.nested key) spot => l.focusOn (.waiting d.key spot :: pollers) key .poll
  | .await w spot =>
    match l.peek w with
    | some r => l.focusOn pollers d.key (.answer r spot)
    | none =>
      (l.wait pollers d w).focusOn pollers d.key (.pause (.waiting w spot.frames) spot.forks)
  | .answer r spot => l.stepAnswer p pollers d r spot
  | .pause branch (.left right k frames :: forks) =>
    l.focusOn pollers d.key (.visit right (.right branch k frames :: forks))
  | .pause branch (.right left k frames :: forks) =>
    l.focusOn pollers d.key (.pause (.both left branch k frames) forks)
  | .pause branch [] =>
    (l.setActivity d.key (.pending branch)).focusOn pollers d.key (.leave none)
  | .finish outcome =>
    let l := l.conclude d outcome
    l.focusOn pollers d.key (.leave (l.outcome? d.task))
  | .leave _ => l
  | .crash => { l.crash d.home with focus := .idle }

/-- Back from the driver `key` to what polled it. -/
def leave (p : Program Co Fu) (l : EventLoop Co Fu) (key : DriverKey) (outcome : Option Outcome) :
    List (Poller Co Fu) → EventLoop Co Fu
  | [] | .hand :: _ => { l with focus := .idle }
  | .body owner k :: pollers => l.focusOn pollers owner (.advance (p.advance (k outcome)))
  | .waiting owner spot :: pollers =>
    match outcome with
    | some o => l.focusOn pollers owner (.answer (o.map .value) spot)
    | none => l.focusOn pollers owner (.pause (.waiting (.nested key) spot.frames) spot.forks)

/-- One step; none if no poll is under way. -/
def step? (p : Program Co Fu) (l : EventLoop Co Fu) : Option (EventLoop Co Fu) :=
  match l.focus with
  | .idle => none
  | .active pollers key (.leave outcome) => some (l.leave p key outcome pollers)
  | .active pollers key doing =>
    match l.driver? key with
    | some d => some (l.stepDriver p pollers d doing)
    | none => some (l.leave p key none pollers)

end EventLoop

end EffectLoop
