import EffectLoop.Loop.Step

/-!
# Running the loop

How the program around the loop lets it run. Homes are polled first in first out; when the queue is
empty the deferred homes are queued, and when those are gone too the clock jumps to the next time a
wait ends at. User code may run for ever, so every run takes the number of steps it may make.
-/

namespace EffectLoop

namespace EventLoop

variable {Co Fu α : Type}

/-- The first queued home other than `root`, and the queue without it. -/
def takeNext (root : Option DriverKey) : List DriverKey → Option (DriverKey × List DriverKey)
  | [] => none
  | key :: rest =>
    if some key = root then (takeNext root rest).map fun r => (r.1, key :: r.2)
    else some (key, rest)

/-- Finish the poll under way. -/
def runPoll (p : Program Co Fu) : Nat → EventLoop Co Fu → EventLoop Co Fu
  | 0, l => l
  | fuel + 1, l =>
    match l.step? p with
    | some l => runPoll p fuel l
    | none => l

/-- Poll the queued homes, except `root`, until none is queued. -/
def drain (p : Program Co Fu) (root : Option DriverKey) : Nat → EventLoop Co Fu → EventLoop Co Fu
  | 0, l => l
  | fuel + 1, l =>
    match l.step? p with
    | some l => drain p root fuel l
    | none =>
      match takeNext root l.queue with
      | some (key, queue) => drain p root fuel ({ l with queue }.focusOn [] key .poll)
      | none => l

/-- One round: poll until the queue is empty, then queue the deferred homes. -/
def turn (p : Program Co Fu) (fuel : Nat) (l : EventLoop Co Fu) : EventLoop Co Fu :=
  (l.drain p none fuel).flush

/-- Rounds until nothing can run while the clock stands. -/
def quiesce (p : Program Co Fu) (fuel : Nat) : Nat → EventLoop Co Fu → EventLoop Co Fu
  | 0, l => l
  | rounds + 1, l =>
    let l := l.drain p none fuel
    if l.deferred.isEmpty then l else quiesce p fuel rounds l.flush

/-- Let the clock run to `target`, polling whenever a wait ends. -/
def runUntil (p : Program Co Fu) (fuel target : Nat) : Nat → EventLoop Co Fu → EventLoop Co Fu
  | 0, l => l
  | jumps + 1, l =>
    let l := l.quiesce p fuel fuel
    match l.nextDeadline? with
    | some time =>
      if time ≤ target then runUntil p fuel target jumps (l.jump time) else { l with now := target }
    | none => { l with now := target }

/-- Let the loop run, and the clock with it, until a task has an outcome or nothing is left to run. -/
def runToOutcome (p : Program Co Fu) (h : TaskHandle) (fuel : Nat) :
    Nat → EventLoop Co Fu → EventLoop Co Fu
  | 0, l => l
  | rounds + 1, l =>
    let l := l.drain p none fuel
    if (l.outcome? h).isSome then l
    else if !l.deferred.isEmpty then runToOutcome p h fuel rounds l.flush
    else
      match l.nextDeadline? with
      | some time => runToOutcome p h fuel rounds (l.jump time)
      | none => l

/-- Carry out an act of the program around the loop; no value if it panics. -/
def runAct (p : Program Co Fu) : Nat → EventLoop Co Fu → Act Co Fu α → EventLoop Co Fu × Option α
  | 0, l, _ => (l, none)
  | fuel + 1, l, a =>
    match a with
    | .ret v => (l, some v)
    | .panic => (l, none)
    | a =>
      let (l, a) := l.perform p none a
      runAct p fuel l a

/-! ## Awaiting a coroutine from outside -/

/-- What became of a coroutine awaited from outside. -/
inductive Awaited
  | outcome (o : Outcome)
  | timeout
  | panic

/-- Let the loop run until the driver `root` is woken or the clock reaches `deadline`. -/
def runToWake (p : Program Co Fu) (root : DriverKey) (deadline fuel : Nat) :
    Nat → EventLoop Co Fu → EventLoop Co Fu
  | 0, l => l
  | rounds + 1, l =>
    let l := l.drain p (some root) fuel
    let l :=
      if !l.deferred.isEmpty then l.flush
      else if root ∈ l.queue then l
      else l.jump (min (l.nextDeadline?.getD deadline) deadline)
    if root ∈ l.queue || deadline ≤ l.now then { l with queue := l.queue.filter (· ≠ root) }
    else runToWake p root deadline fuel rounds l

/-- Poll the driver `d` from outside until it is over, panics, or the clock has reached `deadline`
after a poll that left it unfinished; then it is taken away. -/
def awaitDriver (p : Program Co Fu) (d : Driver Co Fu) (deadline fuel : Nat) :
    Nat → EventLoop Co Fu → EventLoop Co Fu × Awaited
  | 0, l => (l, .timeout)
  | polls + 1, l =>
    let l := (l.focusOn [] d.key .poll).runPoll p fuel
    if d.key ∈ l.crashed then (l, .panic)
    else if (l.driver? d.key).isNone then
      (l, (l.outcome? d.task).elim .timeout .outcome)
    else if deadline ≤ l.now then ((l.cancel d.key).forget d.key, .timeout)
    else awaitDriver p d deadline fuel polls (l.runToWake p d.key deadline fuel fuel)

/-- Enter a coroutine and await it from outside for at most `limit` milliseconds. -/
def runNested (p : Program Co Fu) (fuel : Nat) (l : EventLoop Co Fu) (s : SchedulerId)
    (name : String) (co : Co) (limit : Nat) : EventLoop Co Fu × Awaited :=
  let (l, d) := l.nest (p.scheduler s) none s name co
  l.awaitDriver p d (l.now + limit) fuel fuel

/-! ## Resuming a coroutine by hand -/

/-- Go on with a coroutine that was handed an input; none if it panics. -/
def advanceByHand (p : Program Co Fu) (fuel : Nat) :
    Nat → EventLoop Co Fu → Co → EventLoop Co Fu × Option (Step × Co)
  | 0, l, _ => (l, none)
  | stages + 1, l, co =>
    match l.runAct p fuel (p.advance co) with
    | (l, none) => (l, none)
    | (l, some (.more co)) => advanceByHand p fuel stages l co
    | (l, some (.yield y co)) => (l, some (.yield y, co))
    | (l, some (.done outcome co)) =>
      let left := l.drivers.filter fun d => d.owner = .caller
      (left.foldl (fun l d => l.cancel d.key) l, some (.done outcome, co))
    | (l, some (.poll key k)) =>
      let task := (l.driver? key).map Driver.task
      let l := (l.focusOn [.hand] key .poll).runPoll p fuel
      if key ∈ l.crashed then (l, none)
      else
        let outcome := if (l.driver? key).isNone then task.bind l.outcome? else none
        advanceByHand p fuel stages l (k outcome)

/-- Resume a coroutine by hand. After a panic the coroutine stays as its input found it. -/
def resumeByHand (p : Program Co Fu) (fuel : Nat) (l : EventLoop Co Fu) (co : Co) (input : Resume) :
    EventLoop Co Fu × Co × Option Step :=
  let co := p.resume co input
  match l.advanceByHand p fuel fuel co with
  | (l, some (step, co)) => (l, co, some step)
  | (l, none) => (l, co, none)

/-! ## The end -/

/-- The loop goes away with everything it still drives. -/
def shutdown (l : EventLoop Co Fu) : EventLoop Co Fu := l.drivers.reverse.foldl abandon l

end EventLoop

end EffectLoop
