import EffectLoop.Coroutine.Block

/-!
# Sequential code

`Code` is what a coroutine body, a computation, a processor or a function does, written down as a
tree: what it asks of the world, where it stops, and how it goes on with each answer. Every path
through it ends. `pause` runs it to its next stop; `stage`, `await` and `finish` take that stop as
a block, a computation and a function see it. An `Inquiry` is code that only asks.
-/

namespace EffectLoop

/-- Questions to the world with a value at the end. -/
inductive Inquiry (α : Type)
  | ret (a : α)
  | ask (q : Request) (k : q.Reply → Inquiry α)

namespace Inquiry

variable {α β : Type}

def bind : Inquiry α → (α → Inquiry β) → Inquiry β
  | .ret a, f => f a
  | .ask q k, f => .ask q fun r => (k r).bind f

instance : Monad Inquiry where
  pure := .ret
  bind := bind

/-- Ask, and end with the reply. -/
def request (q : Request) : Inquiry q.Reply := .ask q .ret

/-- The questions as an act. -/
def act {Co Fu : Type} : Inquiry α → Act Co Fu α
  | .ret a => .ret a
  | .ask q k => .ask q fun r => (k r).act

end Inquiry

/-- Sequential code. -/
inductive Code
  | done (r : Resume)
  | panic
  | ask (q : Request) (k : q.Reply → Code)
  | dispatch (sink : SinkId) (event : Json) (k : Json → Code)
  /-- Start the coroutine of a target in a task of its own. -/
  | start (s : SchedulerId) (name : String) (target : Target) (args : List Json)
      (k : TaskHandle → Code)
  /-- Start the computation of a target in a task of its own. -/
  | spawn (s : SchedulerId) (name : String) (target : Target) (args : List Json)
      (k : TaskHandle → Code)
  /-- Drive the coroutine of a target from here and wait for its outcome. -/
  | run (s : SchedulerId) (name : String) (target : Target) (args : List Json) (k : Resume → Code)
  | suspend (y : Yielded) (k : Resume → Code)
  | wait (w : Wait) (k : Resume → Code)
  | delegate (b : Builtin) (e : Effect) (k : Resume → Code)
  | both (left right : Code) (k : Resume → Resume → Code)
deriving Inhabited

/-- Where code stops. -/
inductive Pause
  | done (r : Resume)
  | suspend (y : Yielded) (k : Resume → Code)
  | wait (w : Wait) (k : Resume → Code)
  | delegate (b : Builtin) (e : Effect) (k : Resume → Code)
  | both (left right : Code) (k : Resume → Resume → Code)

/-- Code after some questions. -/
def Inquiry.code {α : Type} : Inquiry α → (α → Code) → Code
  | .ret a, f => f a
  | .ask q k, f => .ask q fun r => (k r).code f

namespace Code

variable {Co : Type}

/-- Run to the next stop. A target of the wrong shape cannot be started. -/
def pause : Code → Act Co Code Pause
  | .done r => .ret (.done r)
  | .panic => .panic
  | .ask q k => .ask q fun r => (k r).pause
  | .dispatch sink event k => .dispatch sink event fun v => (k v).pause
  | .start s name target args k => .invoke target args fun
    | .coroutine co => .start s name co fun h => (k h).pause
    | .pending _ => .panic
  | .spawn s name target args k => .invoke target args fun
    | .pending fu => .spawn s name fu fun h => (k h).pause
    | .coroutine _ => .panic
  | .run s name target args k => .invoke target args fun
    | .coroutine co => .nest s name co fun key => .ret (.wait (.nested key) k)
    | .pending _ => .panic
  | .suspend y k => .ret (.suspend y k)
  | .wait w k => .ret (.wait w k)
  | .delegate b e k => .ret (.delegate b e k)
  | .both left right k => .ret (.both left right k)

/-- The next stop of a coroutine body. -/
def stage (c : Code) : Act Co Code (Stage Code) :=
  c.pause.bind fun
    | .done r => .ret (.done r)
    | .suspend y k => .ret (.suspend y k)
    | .wait w k => .ret (.foreign w k)
    | .both left right k => .ret (.both left right k)
    | .delegate _ _ _ => .panic

/-- The next stop of a computation. -/
def await (c : Code) : Act Co Code (Await Code) :=
  c.pause.bind fun
    | .done r => .ret (.done r)
    | .wait w k => .ret (.wait w k)
    | .delegate b e k => .ret (.delegate b e k)
    | .both left right k => .ret (.both left right k)
    | .suspend _ _ => .panic

/-- Run to the end; code that stops on the way does not get there. -/
def finish (c : Code) : Act Co Code Resume :=
  c.pause.bind fun
    | .done r => .ret r
    | _ => .panic

end Code

end EffectLoop
