import EffectLoop.Coroutine.Flow
import EffectLoop.Script.Syntax

/-!
# Running scripts

The code of a script. A statement goes on with the variables as it leaves them, or leaves the script
by a result or an error; what was bound before an error stays bound when it is caught.
-/

namespace EffectLoop.Script

/-- What a processor's script knows of the effect it processes. -/
structure Processing where
  scheduler : SchedulerId
  sink : SinkId
  effect : Effect
deriving Inhabited

/-- Ask the world from a flow. -/
def inquire {α : Type} (q : Inquiry α) : Flow α := ⟨fun k => q.code fun a => k (.ok a)⟩

/-- An output. -/
def Operand.output (env : Env) : Operand → Inquiry Output
  | .value e => do
    let v ← e.eval env
    pure (.value v)
  | .variable x => pure (env.output x)

/-- Build an effect. -/
def EffectSpec.build (env : Env) : EffectSpec → Inquiry (Except EffectError Effect)
  | .put event => do
    let event ← event.eval env
    pure (Effect.put? event)
  | .call target args => do
    let args ← Expr.evalItems env args
    pure (.ok (.call target args))
  | .fork target args => do
    let args ← Expr.evalItems env args
    pure (.ok (.fork target args))
  | .join task => do
    let task ← task.output env
    pure (Effect.join? task)
  | .custom tag payload => do
    let payload ← payload.eval env
    pure (Effect.custom? tag payload)
  | .rawPut event => do
    let event ← event.eval env
    pure (.ok (.put event))
  | .rawCustom tag payload => do
    let payload ← payload.eval env
    pure (.ok (.custom tag payload))

/-- The error to fail with. -/
def FailSpec.error (env : Env) : FailSpec → Inquiry EffectError
  | .failure message detail => do
    let message ← message.eval env
    let detail ← detail.eval env
    pure (.failure message.plain detail)
  | .described spec => do
    let spec ← spec.eval env
    pure (EffectError.ofSpec spec)

/-- The number of the task to end early. -/
def Victim.taskId (env : Env) : Victim → Inquiry TaskId
  | .variable x => pure (((env.task? x).map TaskHandle.id).getD ⟨0⟩)
  | .id e => do
    let v ← e.eval env
    pure ⟨v.asNat64?.getD 0⟩

/-- An active task as a value. -/
def reportEntry (e : TaskEntry) : Json :=
  .object [("id", .nat e.id.val), ("name", .str e.name), ("state", .str e.state.text)]

/-- Active tasks as a value. -/
def reportEntries (es : List TaskEntry) : Json := .arr (es.map reportEntry)

/-- The scheduler an action is about: in a processor its own, else the one it names. -/
def schedulerFor (processing : Option Processing) (named : SchedulerId) : SchedulerId :=
  (processing.map Processing.scheduler).getD named

/-- An action as a flow with its output. -/
def Action.flow (processing : Option Processing) (env : Env) : Action → Flow Output
  | .put event => do
    let event ← inquire (event.eval env)
    return .value (← Flow.put event)
  | .call target args => do
    let args ← inquire (Expr.evalItems env args)
    return .value (← Flow.call target args)
  | .fork target args => do
    let args ← inquire (Expr.evalItems env args)
    return .task (← Flow.fork target args)
  | .join x =>
    match env.output x with
    | .task h => do return .value (← Flow.join h)
    | o => do
      let e ← Flow.ofExcept (Effect.join? o)
      return .value (← Flow.ofExcept (← Flow.perform e).intoValue)
  | .perform spec => do
    let e ← Flow.ofExcept (← inquire (spec.build env))
    Flow.perform e
  | .pass what => do
    let o ← inquire (what.output env)
    Flow.pass o
  | .log v => do
    let v ← inquire (v.eval env)
    Flow.request (.log v)
    return .value .null
  | .set v => do return .value (← inquire (v.eval env))
  | .intoValue x => do return .value (← Flow.ofExcept (env.output x).intoValue)
  | .intoTask x => do return .task (← Flow.ofExcept (env.output x).intoTask)
  | .sleep ms => do
    let ms ← inquire (ms.eval env)
    Flow.sleep (ms.asNat64?.getD 0)
    return .value .null
  | .turn => Flow.wait .turn
  | .never => Flow.wait .never
  | .gate name => Flow.wait (.gate name)
  | .openGate name v => do
    let v ← inquire (v.eval env)
    Flow.request (.openGate name v)
    return .value .null
  | .publish x key => do
    Flow.request (.publish key (env.output x))
    return .value .null
  | .fetch key => do return (← Flow.request (.fetch key)).getD (.value .null)
  | .active host => do
    let entries ← Flow.request (.snapshot (schedulerFor processing host))
    return .value (reportEntries entries)
  | .terminate host victim => do
    let id ← inquire (victim.taskId env)
    let removed ← Flow.request (.terminate (schedulerFor processing host) id)
    return .value (.bool removed)
  | .start host target args => do
    let args ← inquire (Expr.evalItems env args)
    ⟨fun k => .start (schedulerFor processing host) "coroutine" target args fun h => k (.ok (.task h))⟩
  | .spawn host name target args => do
    let args ← inquire (Expr.evalItems env args)
    ⟨fun k => .spawn (schedulerFor processing host) name target args fun h => k (.ok (.task h))⟩
  | .run host name target args => do
    let args ← inquire (Expr.evalItems env args)
    ⟨fun k => .run (schedulerFor processing host) name target args k⟩
  | .dispatch event => do
    let event ← inquire (event.eval env)
    match processing with
    | some p => ⟨fun k => .dispatch p.sink event fun v => k (.ok (.value v))⟩
    | none => ⟨fun _ => .panic⟩
  | .delegate b spec => do
    let e ← match spec, processing with
      | some spec, _ => Flow.ofExcept (← inquire (spec.build env))
      | none, some p => pure p.effect
      | none, none => ⟨fun _ => .panic⟩
    ⟨fun k => .delegate b e k⟩

/-- How a statement ends: with the variables for the next one, or by leaving the script. -/
inductive Exit
  | next (env : Env)
  | gave (o : Output)
  | failed (e : EffectError) (env : Env)

/-- The result of a script that ends this way. -/
def Exit.resume : Exit → Resume
  | .next _ => .ok (.value .null)
  | .gave o => .ok o
  | .failed e _ => .error e

/-- Run `body` with each index below `count`, from `index` on. -/
def repeated (body : Env → (Exit → Code) → Code) (bound : Option String) (k : Exit → Code) :
    Nat → Nat → Env → Code
  | 0, _, env => k (.next env)
  | count + 1, index, env =>
    body (env.bindAs bound (.output (.value (.nat index)))) fun
      | .next env => repeated body bound k count (index + 1) env
      | exit => k exit

mutual

/-- The code of a statement. -/
def Stmt.exec (processing : Option Processing) (env : Env) : Stmt → (Exit → Code) → Code
  | .act a bound, k => (a.flow processing env).run fun
    | .ok o => k (.next (env.bindAs bound (.output o)))
    | .error e => k (.failed e env)
  | .attempt body handler bound, k => execAll processing env body fun
    | .failed e env => execAll processing (env.bindAs bound (.error e)) handler k
    | exit => k exit
  | .times count body index, k => (count.eval env).code fun count =>
    repeated (fun env k => execAll processing env body k) index k (count.asNat64?.getD 0) 0 env
  | .choose condition yes no, k => (condition.eval env).code fun v =>
    match v with
    | .bool true => execAll processing env yes k
    | _ => execAll processing env no k
  | .both left right bound, k =>
    .both (execAll processing env left fun exit => .done exit.resume)
      (execAll processing env right fun exit => .done exit.resume) fun a b =>
        k (.next (env.bindAs bound (.output (.value (.arr [Resume.report a, Resume.report b])))))
  | .give what, k => (what.output env).code fun o => k (.gave o)
  | .fail spec, k => (spec.error env).code fun e => k (.failed e env)
  | .rethrow x, k =>
    match env.find? x with
    | some (.error e) => k (.failed e env)
    | _ => k (.failed (EffectError.ofSpec (env.wire x)) env)
  | .panic, _ => .panic

/-- The code of statements in order. -/
def execAll (processing : Option Processing) (env : Env) : List Stmt → (Exit → Code) → Code
  | [], k => k (.next env)
  | s :: rest, k => s.exec processing env fun
    | .next env => execAll processing env rest k
    | exit => k exit

end

/-- The code of a script on some arguments. -/
def body (script : List Stmt) (args : List Json) : Code :=
  execAll none { args } script fun exit => .done exit.resume

/-- The code of a processor's script on an effect. -/
def processor (script : List Stmt) (p : Processing) : Code :=
  execAll (some p)
    { vars := [("kind", .output (.value (.str p.effect.kind.tag))),
        ("payload", .output (.value p.effect.payload))] }
    script fun exit => .done exit.resume

end EffectLoop.Script
