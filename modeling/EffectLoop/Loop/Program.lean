import EffectLoop.Loop.Act
import EffectLoop.Processor.Table
import EffectLoop.Scheduler.Config

/-!
# Programs

What a loop runs, apart from its state: how its schedulers are set up, and how its coroutines,
computations, targets, processors and sinks behave. Coroutines and computations are machines with a
state of any type, so nothing bounds how often a coroutine yields.
-/

namespace EffectLoop

/-- The processors every scheduler has unless they are replaced. -/
inductive Builtin
  | put
  | call
  | fork
  | join
deriving DecidableEq, Inhabited

/-- The kind a built-in processor is made for. -/
def Builtin.kind : Builtin → EffectKind
  | .put => .put
  | .call => .call
  | .fork => .fork
  | .join => .join

/-- A processor: built in, or the program's own by number. -/
inductive ProcessorRef
  | builtin (b : Builtin)
  | own (number : Nat)
deriving DecidableEq, Inhabited

/-- The table every scheduler starts with. -/
def ProcessorTable.builtin : ProcessorTable ProcessorRef where
  put := .builtin .put
  call := .builtin .call
  fork := .builtin .fork
  join := .builtin .join

/-- How a scheduler is set up. -/
structure SchedulerSpec where
  config : SchedulerConfig := {}
  processors : ProcessorTable ProcessorRef := .builtin
  /-- Where its put effects go. -/
  sink : SinkId
deriving Inhabited

namespace SchedulerSpec

/-- A scheduler under construction: the built-in processors and the default settings. -/
def builder (sink : SinkId) : SchedulerSpec := { sink }

/-- Use `p` for `kind`, over what was there. -/
def withProcessor (spec : SchedulerSpec) (kind : EffectKind) (p : ProcessorRef) : SchedulerSpec :=
  { spec with processors := spec.processors.insert kind p }

def withProcessors (spec : SchedulerSpec) (overrides : List (EffectKind × ProcessorRef)) :
    SchedulerSpec :=
  { spec with processors := spec.processors.extend overrides }

def withConfig (spec : SchedulerSpec) (config : SchedulerConfig) : SchedulerSpec :=
  { spec with config }

end SchedulerSpec

/-- How far a coroutine has come within one resume. -/
inductive Progress (Co : Type)
  /-- Not at the end of the resume yet. -/
  | more (co : Co)
  /-- It polls a nested driver, and goes on with the driver's outcome if that is over. -/
  | poll (key : DriverKey) (k : Option Outcome → Co)
  | yield (y : Yielded) (co : Co)
  | done (outcome : Outcome) (co : Co)

/-- How far a coroutine has come, seen from one made of it. -/
def Progress.map {Co Co' : Type} (f : Co → Co') : Progress Co → Progress Co'
  | .more co => .more (f co)
  | .poll key k => .poll key fun o => f (k o)
  | .yield y co => .yield y (f co)
  | .done outcome co => .done outcome (f co)

/-- How far a computation has come. -/
inductive Await (Fu : Type)
  | done (r : Resume)
  | wait (w : Wait) (k : Resume → Fu)
  /-- It has a built-in processor process an effect. -/
  | delegate (b : Builtin) (e : Effect) (k : Resume → Fu)
  /-- Both computations, concurrently. -/
  | both (left right : Fu) (k : Resume → Resume → Fu)

/-- What a loop runs. -/
structure Program (Co Fu : Type) where
  scheduler : SchedulerId → SchedulerSpec
  /-- Hand a coroutine its next input. -/
  resume : Co → Resume → Co
  /-- Run a coroutine that has been handed an input. -/
  advance : Co → Act Co Fu (Progress Co)
  /-- Run a computation up to its next wait. -/
  work : Fu → Act Co Fu (Await Fu)
  invoke : Target → List Json → Act Co Fu (Invoked Co Fu)
  /-- The program's own processors, by number and the scheduler they serve. -/
  process : Nat → SchedulerId → Effect → Fu
  dispatch : SinkId → Json → Act Co Fu Json

end EffectLoop
