import EffectLoop.Loop.Host
import EffectLoop.Loop.Run
import EffectLoop.Order.Checkout
import EffectLoop.Order.Config

/-!
# Running a checkout

One order on a loop of its own, from the host boundary to its outcome, with the records it leaves.
-/

namespace EffectLoop.Order

/-- The program that orders: one scheduler, the services, and a sink that drops every event. -/
def program (config : SchedulerConfig) : Program (Block Code) Code where
  scheduler _ := { config, sink := ⟨"next"⟩ }
  resume := Block.resume
  advance := Block.advance Code.stage
  work := Code.await
  invoke target args := ((invoke? id target args).map .ret).getD .panic
  process _ _ _ := .panic
  dispatch _ _ := .ret .null

/-- The services as settings describe them. -/
def Config.services (config : Config) : Services := ⟨config.latency, config.happyPath⟩

/-- Order a product: the records on the way and the outcome. -/
def run (config : Config) (scheduler : SchedulerConfig) (fuel : Nat) :
    List LogRecord × Option Outcome :=
  let p := program scheduler
  let co := Block.ofCode (orderProduct config.services config.productId config.userId).code
  let (l, d) := ({} : EventLoop (Block Code) Code).runAct p fuel
    ((⟨⟨0⟩, ⟨"next"⟩⟩ : Host).handle (.coroutine co))
  let task := d.bind Dispatched.task?
  let l := task.elim l fun task => l.runToOutcome p task fuel fuel
  (l.journal.filterMap fun
    | .record r => some r
    | _ => none,
   task.bind l.outcome?)

end EffectLoop.Order
