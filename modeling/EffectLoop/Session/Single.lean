import EffectLoop.Session.Basic

/-!
# Single coroutines and their effects

Sessions without running: effects and outputs built from tasks that never end, and one coroutine
resumed by hand.
-/

namespace EffectLoop.Session

open Script

/-- Start a computation that never ends under the name of each task, and name it by the task's full
text. -/
def withTasks (w : World) (fuel : Nat) (tasks : List (String × SchedulerId × String)) : State :=
  tasks.foldl (fun st t =>
    (st.carryOut w fuel (.spawn t.2.1 t.2.2 (.wait .never .done) .ret) fun st h =>
      (st.bind (some t.1) h, .null)).1) {}

/-- All about an effect. -/
def reportEffect (e : Effect) : Json :=
  .object [("kind", reportKind e.kind), ("tag", .str e.kind.tag), ("payload", e.payload),
    ("wire", e.wire), ("serialized", .str e.wire.compact),
    ("target", (e.target?.map fun t => .object [("debug", .str t.text),
      ("coroutine", .bool (t.shape == .coroutine)), ("name", .str t.name)]).getD .null)]

/-- Which of two results are equal. -/
def equality {α : Type} [BEq α] (xs : List α) : Json :=
  .arr (xs.map fun x => .arr (xs.map fun y => .bool (x == y)))

/-- Equality of results: of equal effects, or of equal errors. -/
def sameBuild : Except EffectError Effect → Except EffectError Effect → Bool
  | .ok a, .ok b => a == b
  | .error a, .error b => a == b
  | _, _ => false

/-- Build effects and compare them. -/
def reportEffects (w : World) (fuel : Nat) (tasks : List (String × SchedulerId × String))
    (build : List EffectSpec) : Json :=
  let st := withTasks w fuel tasks
  let built := build.filterMap fun spec =>
    (st.loop.runAct w.program fuel (spec.build st.env).act).2
  .object [("effects", .arr (built.map fun
      | .ok e => reportEffect e
      | .error e => e.report)),
    ("equal", .arr (built.map fun x => .arr (built.map fun y => .bool (sameBuild x y))))]

/-- All about an output. -/
def reportOutput (o : Output) : Json :=
  .object [("into_value", Outcome.report o.intoValue),
    ("into_task", Resume.report (o.intoTask.map .task)),
    ("as_value", (o.asValue?.map fun v => .arr [v]).getD .null),
    ("wire", o.wire),
    ("join", match Effect.join? o with
      | .ok e => e.wire
      | .error e => e.report)]

/-- Look at outputs and compare them. -/
def reportOutputs (w : World) (fuel : Nat) (tasks : List (String × SchedulerId × String))
    (outputs : List (Json ⊕ String)) : Json :=
  let st := withTasks w fuel tasks
  let outputs := outputs.map fun
    | .inl v => Output.value v
    | .inr x => st.env.output x
  .object [("outputs", .arr (outputs.map reportOutput)), ("equal", equality outputs)]

/-- What a coroutine resumed by hand is given. -/
inductive Input
  | value (v : Json)
  | task (x : String)
  | error (spec : Json)
  /-- Not an input: a gate is opened. -/
  | openGate (name : String) (v : Json)
deriving Inhabited

/-- What a resume came to, as a value. -/
def reportStep : Option Step → Json
  | some (.yield (.effect e)) => .object [("effect", e.wire)]
  | some (.yield (.pass o)) => .object [("pass", o.report)]
  | some (.done outcome) => .object [("done", outcome.report)]
  | none => .str "panic"

/-- Resume a coroutine by hand with each input. -/
def resumes (w : World) (fuel : Nat) (st : State) (co : Routine) : List Input → List Json
  | [] => []
  | .openGate name v :: rest =>
    resumes w fuel { st with loop := st.loop.openGate name v } co rest
  | input :: rest =>
    let input : Resume := match input with
      | .value v => .ok (.value v)
      | .task x => .ok (st.env.output x)
      | .error spec => .error (.ofSpec spec)
      | .openGate _ v => .ok (.value v)
    let (loop, co, step) := st.loop.resumeByHand w.program fuel co input
    .object [("step", reportStep step), ("log", reportJournal false loop.journal)] ::
      resumes w fuel { st with loop := { loop with journal := [] } } co rest

/-- Resume the coroutine of a target by hand. -/
def reportCoroutine (w : World) (fuel : Nat) (tasks : List (String × SchedulerId × String))
    (target : Target) (args : List Expr) (inputs : List Input) : Json :=
  let st := withTasks w fuel tasks
  let (loop, co) := st.loop.runAct w.program fuel
    (withArgs st args fun args => coroutineOf target args .ret)
  .arr (co.elim [] fun co => resumes w fuel { st with loop } co inputs)

end EffectLoop.Session
