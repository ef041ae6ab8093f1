import EffectLoop.Task.Basic
import EffectLoop.Json.Printer

/-!
# Errors of effects

Every way an effect or a task can fail. The wording is `EffectError.message`; two errors are equal
when their causes are.
-/

namespace EffectLoop

/-- Why an effect or a task failed. -/
inductive EffectError
  /-- An effect was to be made of unfit parts, or an answer was not of the sort asked for. -/
  | invalidArgument (reason : String)
  /-- An effect was yielded that no processor takes. -/
  | unknownKind (tag : String)
  /-- User code failed. -/
  | failure (message : String) (detail : Json)
  /-- The task was ended early. -/
  | terminated (id : TaskId)
  /-- Whatever drove the task went away before it had an outcome. -/
  | abandoned (id : TaskId)
deriving Inhabited

namespace EffectError

/-- A failure that says no more than its message. -/
def plain (message : String) : EffectError := .failure message .null

/-- The text of an error. -/
def message : EffectError → String
  | .invalidArgument reason => "invalid effect argument: " ++ reason
  | .unknownKind tag => "no processor registered for effect kind `" ++ tag ++ "`"
  | .failure message _ => message
  | .terminated id => id.text ++ " was terminated before it settled"
  | .abandoned id => id.text ++ " was abandoned before it settled"

/-- Whether this error comes from early termination. -/
def isTerminated : EffectError → Bool
  | .terminated _ => true
  | _ => false

protected def beq : EffectError → EffectError → Bool
  | .invalidArgument a, .invalidArgument b => a == b
  | .unknownKind a, .unknownKind b => a == b
  | .failure m d, .failure m' d' => m == m' && d == d'
  | .terminated a, .terminated b => a == b
  | .abandoned a, .abandoned b => a == b
  | _, _ => false

instance : BEq EffectError := ⟨EffectError.beq⟩

/-- The word for the sort of an error in reports. -/
def label : EffectError → String
  | .invalidArgument _ => "InvalidEffectArgument"
  | .unknownKind _ => "UnknownEffectKind"
  | .failure _ _ => "Failure"
  | .terminated _ => "Terminated"
  | .abandoned _ => "Abandoned"

/-- An error as a value: its sort, its text and, for a failure, its detail. -/
def report (e : EffectError) : Json :=
  .object <| [("error", .str e.label), ("message", .str e.message)] ++
    match e with
    | .failure _ detail => [("detail", detail)]
    | _ => []

/-- The error that a description asks for: of the sort its `kind` names, else a failure. -/
def ofSpec (spec : Json) : EffectError :=
  let id : TaskId := ⟨(spec.field "id").asNat64?.getD 0⟩
  match (spec.field "kind").asString? with
  | some "Terminated" => .terminated id
  | some "Abandoned" => .abandoned id
  | some "InvalidEffectArgument" => .invalidArgument (spec.field "argument").plain
  | some "UnknownEffectKind" => .unknownKind (spec.field "argument").plain
  | _ => .failure (spec.field "message").plain (spec.field "detail")

end EffectError

/-- How a task ends. -/
abbrev Outcome := Except EffectError Json

/-- An outcome as a value. -/
def Outcome.report : Outcome → Json
  | .ok v => .object [("ok", v)]
  | .error e => e.report

end EffectLoop
