import EffectLoop.Loop.Program

/-!
# Drivers

A driver is what works on one task and owes its settlement: it drives a coroutine or carries out a
plain computation. A driver lives in a runtime task, its home: it either has one of its own or is
nested in the driver that polls it. Between polls a driver is fresh or pending; what it is to do with
the answer of a wait is kept as a list of frames, innermost first. Where it works on two computations
at once, each is a branch with frames of its own.
-/

namespace EffectLoop

variable (Co Fu : Type)

/-- What an answer is for. -/
inductive Frame
  /-- User code goes on with it. -/
  | code (k : Resume → Fu)
  /-- It is the outcome of a called target. -/
  | call
  /-- It ends the deferral of a put: its event is dispatched now. -/
  | deliver (event : Json)

/-- A computation between polls, with the frames its answer goes through. -/
inductive Branch
  | unbegun (fu : Fu)
  | waiting (w : Wait) (frames : List (Frame Fu))
  | both (left right : Branch) (k : Resume → Resume → Fu) (frames : List (Frame Fu))
  | finished (r : Resume)

/-- A place beside the branch being polled: the other branch, and what follows both. -/
inductive Fork
  | left (right : Branch Fu) (k : Resume → Resume → Fu) (frames : List (Frame Fu))
  | right (left : Branch Fu) (k : Resume → Resume → Fu) (frames : List (Frame Fu))

/-- Where in its computation a driver is: the frames up to the nearest fork, and the forks around. -/
structure Spot where
  frames : List (Frame Fu) := []
  forks : List (Fork Fu) := []

/-- What a driver works on. -/
inductive Job
  /-- A coroutine at rest, its pass-through yields in a row, and the kind of its last effect. -/
  | coroutine (co : Co) (passes : Nat) (kind : EffectKind)
  | plain

/-- Where a driver stands between polls. -/
inductive Activity
  /-- A coroutine never resumed. -/
  | fresh
  /-- Being polled at this moment. -/
  | busy
  | pending (branch : Branch Fu)

/-- Who polls a driver. -/
inductive Owner
  /-- The loop: the driver has a runtime task of its own. -/
  | loop
  /-- The program around the loop. -/
  | caller
  /-- The driver it is nested in. -/
  | driver (key : DriverKey)
deriving DecidableEq

/-- What works on a task until it is settled. -/
structure Driver where
  key : DriverKey
  owner : Owner
  /-- The driver whose runtime task this one lives in; itself if it is not nested. -/
  home : DriverKey
  task : TaskHandle
  guard : SettleGuard
  /-- The spans it works in, outermost first; its own comes last. -/
  spans : List Span
  job : Job Co
  activity : Activity Fu

/-- What polls a driver and how it goes on when the driver has finished or waits. -/
inductive Poller
  /-- A driver whose computation waits for the polled one. -/
  | waiting (key : DriverKey) (spot : Spot Fu)
  /-- The body of a driver's coroutine. -/
  | body (key : DriverKey) (k : Option Outcome → Co)
  /-- A coroutine body that the program around the loop resumes by hand. -/
  | hand

/-- What the driver being polled is about to do. -/
inductive Doing
  | poll
  | resume (input : Resume)
  | advance (a : Act Co Fu (Progress Co))
  | visit (branch : Branch Fu) (forks : List (Fork Fu))
  | work (a : Act Co Fu (Await Fu)) (spot : Spot Fu)
  | process (p : ProcessorRef) (e : Effect) (spot : Spot Fu)
  /-- Invoke a target, to be called or to be forked. -/
  | invoke (b : Builtin) (target : Target) (a : Act Co Fu (Invoked Co Fu)) (spot : Spot Fu)
  | dispatch (a : Act Co Fu Json) (spot : Spot Fu)
  | await (w : Wait) (spot : Spot Fu)
  | answer (r : Resume) (spot : Spot Fu)
  /-- The branch at this place waits. -/
  | pause (branch : Branch Fu) (forks : List (Fork Fu))
  | finish (outcome : Outcome)
  /-- Back to the poller, with the outcome if the driver is over. -/
  | leave (outcome : Option Outcome)
  | crash

/-- Whether a poll is under way, of which driver, and by whom. -/
inductive Focus
  | idle
  | active (pollers : List (Poller Co Fu)) (key : DriverKey) (doing : Doing Co Fu)

variable {Co Fu}

/-- Whether a driver polled this way can make itself heard: not from inside a coroutine body. -/
def Poller.wakes : Poller Co Fu → Bool
  | .waiting _ _ => true
  | _ => false

/-- The span of a task under a scheduler. -/
def SchedulerSpec.span (spec : SchedulerSpec) (h : TaskHandle) : Span :=
  ⟨spec.config.name, h.id, h.name⟩

end EffectLoop
