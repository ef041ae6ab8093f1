import EffectLoop.Script.Exec

/-!
# Coroutines made of steps

A coroutine given as a list of moves, one per resume. Each resume appends its input to the variable
`seen` and binds it to `in` and to `in0`, `in1` and so on; past the last move the coroutine is done
with what it has seen. A `Routine` is a coroutine of a script: made of code or of steps.
-/

namespace EffectLoop.Script

/-- What a step does. -/
inductive Move
  | yield (spec : EffectSpec)
  | pass (what : Operand)
  | done (e : Expr)
  | fail (spec : FailSpec)
  | panic
deriving Inhabited

/-- A step: perhaps log something, then move. -/
structure StepSpec where
  log : Option Expr := none
  move : Move
deriving Inhabited

/-- A coroutine made of steps. -/
structure Stepper where
  steps : List StepSpec
  env : Env
  /-- The resumes so far. -/
  resumed : Nat := 0
  /-- The inputs so far, as values. -/
  seen : List Json := []
deriving Inhabited

/-- An answer as the content of a variable. -/
def Binding.ofResume : Resume → Binding
  | .ok o => .output o
  | .error e => .error e

namespace Stepper

/-- Take in an input. -/
def resume (m : Stepper) (input : Resume) : Stepper :=
  let seen := m.seen ++ [Resume.report input]
  let input := Binding.ofResume input
  { m with
    resumed := m.resumed + 1
    seen
    env := ((m.env.bind "seen" (.output (.value (.arr seen)))).bind "in" input).bind
      ("in" ++ toString m.resumed) input }

/-- What a move comes to; none if it panics. -/
def Move.step (env : Env) : Move → Inquiry (Option Step)
  | .yield spec => do
    match ← spec.build env with
    | .ok e => pure (some (.yield (.effect e)))
    | .error e => pure (some (.done (.error e)))
  | .pass what => do
    let o ← what.output env
    pure (some (.yield (.pass o)))
  | .done e => do
    let v ← e.eval env
    pure (some (.done (.ok v)))
  | .fail spec => do
    let e ← spec.error env
    pure (some (.done (.error e)))
  | .panic => pure none

/-- What the step for the input taken in comes to. -/
def step (m : Stepper) : Inquiry (Option Step) :=
  match m.steps[m.resumed - 1]? with
  | none => pure (some (.done (.ok (.arr m.seen))))
  | some s => do
    match s.log with
    | some e =>
      let v ← e.eval m.env
      Inquiry.request (.log v)
    | none => pure ()
    Move.step m.env s.move

/-- Go on after an input. -/
def advance {Co Fu : Type} (m : Stepper) : Act Co Fu (Progress Stepper) :=
  m.step.act.bind fun
    | some (.yield y) => .ret (.yield y m)
    | some (.done outcome) => .ret (.done outcome m)
    | none => .panic

end Stepper

/-- A coroutine of a script. -/
inductive Routine
  | block (b : Block Code)
  | stepper (m : Stepper)

namespace Routine

def resume : Routine → Resume → Routine
  | .block b, input => .block (b.resume input)
  | .stepper m, input => .stepper (m.resume input)

def advance : Routine → Act Routine Code (Progress Routine)
  | .block b => (b.advance Code.stage).bind fun p => .ret (p.map .block)
  | .stepper m => m.advance.bind fun p => .ret (p.map .stepper)

end Routine

end EffectLoop.Script
