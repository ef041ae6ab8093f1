import EffectLoop.Loop.Step

/-!
# The driver protocol

What may happen to a coroutine that is driven, told without a loop: one coroutine alone with the
table of its scheduler. It is resumed with null; what it passes through comes straight back; an
effect goes to the processor of its kind, and the answer is the next input; an effect without a
processor, too many passes in a row, or its own end are its outcome, and nothing comes after.

* `Phase.Next` is one step of this reference, `Protocol` the histories it allows.
* `Protocol.inputs`: every resume but the first delivers one answer, in the order of the answers,
  and at most the last answer is not delivered yet.
* `Protocol.given`: the effects given to processors are those yielded for one, in the same order.
-/

namespace EffectLoop

/-- Something that happens to a driven coroutine. -/
inductive TaskEvent (Co : Type)
  /-- It becomes a task of a scheduler. -/
  | entered (s : SchedulerId) (co : Co)
  | resumed (co : Co) (input : Resume)
  /-- It yields, and is now this coroutine. -/
  | yielded (y : Yielded) (co : Co)
  /-- A processor gets its effect. -/
  | given (ref : ProcessorRef) (e : Effect)
  /-- The processor has come to an answer. -/
  | resolved (r : Resume)
  | returned (o : Outcome)
  /-- Its driver ends with an outcome. -/
  | ended (o : Outcome)

/-- Where a driven coroutine stands. -/
inductive Phase (Co : Type)
  /-- To be resumed with an input, after so many passes in a row. -/
  | owed (co : Co) (input : Resume) (passes : Nat)
  | running (passes : Nat)
  /-- Its effect is to be given to a processor. -/
  | routed (co : Co) (ref : ProcessorRef) (e : Effect)
  | processing (co : Co) (ref : ProcessorRef) (e : Effect)
  | ending (o : Outcome)
  | closed (o : Outcome)

variable {Co : Type} {spec : SchedulerSpec}

/-- One step of the reference. -/
inductive Phase.Next (spec : SchedulerSpec) : Phase Co → TaskEvent Co → Phase Co → Prop
  | resumed (co : Co) (input : Resume) (passes : Nat) :
      Next spec (.owed co input passes) (.resumed co input) (.running passes)
  | passed (passes : Nat) (o : Output) (co : Co)
      (h : ∀ limit, spec.config.passThroughLimit = some limit → passes + 1 ≤ limit) :
      Next spec (.running passes) (.yielded (.pass o) co) (.owed co (.ok o) (passes + 1))
  | exceeded (passes : Nat) (o : Output) (co : Co) (limit : Nat)
      (h : spec.config.passThroughLimit = some limit) (hlt : limit < passes + 1) :
      Next spec (.running passes) (.yielded (.pass o) co)
        (.ending (.error (EventLoop.exceeded limit)))
  | routed (passes : Nat) (e : Effect) (co : Co) (ref : ProcessorRef)
      (h : spec.processors.get? e.kind = some ref) :
      Next spec (.running passes) (.yielded (.effect e) co) (.routed co ref e)
  | unknown (passes : Nat) (e : Effect) (co : Co) (h : spec.processors.get? e.kind = none) :
      Next spec (.running passes) (.yielded (.effect e) co)
        (.ending (.error (.unknownKind e.kind.tag)))
  | returned (passes : Nat) (o : Outcome) : Next spec (.running passes) (.returned o) (.ending o)
  | given (co : Co) (ref : ProcessorRef) (e : Effect) :
      Next spec (.routed co ref e) (.given ref e) (.processing co ref e)
  | resolved (co : Co) (ref : ProcessorRef) (e : Effect) (r : Resume) :
      Next spec (.processing co ref e) (.resolved r) (.owed co r 0)
  | ended (o : Outcome) : Next spec (.ending o) (.ended o) (.closed o)

/-- What happens, if anything does, takes the coroutine from one phase to another. -/
inductive Phase.Follows (spec : SchedulerSpec) (ph : Phase Co) :
    Option (TaskEvent Co) → Phase Co → Prop
  | still : Follows spec ph none ph
  | next {e : TaskEvent Co} {ph' : Phase Co} (h : Next spec ph e ph') : Follows spec ph (some e) ph'

/-- What may have happened to the coroutine `co` since it became a task, and where that leaves it. -/
inductive Protocol (spec : SchedulerSpec) (co : Co) : List (TaskEvent Co) → Phase Co → Prop
  | start : Protocol spec co [] (.owed co (.ok (.value .null)) 0)
  | next {h : List (TaskEvent Co)} {ph ph' : Phase Co} {e : TaskEvent Co}
      (hp : Protocol spec co h ph) (hn : Phase.Next spec ph e ph') : Protocol spec co (h ++ [e]) ph'

namespace TaskEvent

/-- The coroutine becomes a task. -/
def enters : TaskEvent Co → Bool
  | .entered _ _ => true
  | _ => false

/-- The input of a resume. -/
@[simp] def input? : TaskEvent Co → Option Resume
  | .resumed _ input => some input
  | _ => none

/-- What the coroutine is to be resumed with, if this settles it. -/
@[simp] def answer? : TaskEvent Co → Option Resume
  | .yielded (.pass o) _ => some (.ok o)
  | .resolved r => some r
  | _ => none

/-- The effect a processor gets. -/
@[simp] def given? : TaskEvent Co → Option (ProcessorRef × Effect)
  | .given ref e => some (ref, e)
  | _ => none

/-- The effect that is yielded, with the processor of its kind. -/
@[simp] def routed? (spec : SchedulerSpec) : TaskEvent Co → Option (ProcessorRef × Effect)
  | .yielded (.effect e) _ => (spec.processors.get? e.kind).map fun ref => (ref, e)
  | _ => none

/-- Something follows at once. -/
def urgent : TaskEvent Co → Bool
  | .yielded _ _ | .resolved _ | .returned _ => true
  | _ => false

end TaskEvent

namespace Protocol

variable {co : Co} {h : List (TaskEvent Co)} {ph : Phase Co}

/-- The answers that were not delivered yet. -/
def Undelivered : Phase Co → List Resume → Prop
  | .owed _ input _, rest => rest = [input]
  | .ending _, rest | .closed _, rest => rest.length ≤ 1
  | _, rest => rest = []

theorem undelivered_length {rest : List Resume} (h : Undelivered ph rest) : rest.length ≤ 1 := by
  cases ph with
  | ending o => exact h
  | closed o => exact h
  | owed co input passes => rw [show rest = [input] from h]; exact Nat.le_refl 1
  | _ => rw [show rest = [] from h]; exact Nat.zero_le 1

/-- The answers beginning with null are the inputs of the resumes and what is not delivered yet. -/
theorem answers_eq (hp : Protocol spec co h ph) :
    ∃ rest, .ok (.value .null) :: h.filterMap TaskEvent.answer? =
      h.filterMap TaskEvent.input? ++ rest ∧ Undelivered ph rest := by
  induction hp with
  | start => exact ⟨[.ok (.value .null)], rfl, rfl⟩
  | next hp hn ih =>
    obtain ⟨rest, heq, hrest⟩ := ih
    rw [List.filterMap_append, List.filterMap_append, ← List.cons_append, heq]
    cases hn with
    | resumed co input passes =>
      rw [show rest = [input] from hrest]
      exact ⟨[], by simp [List.filterMap_cons], rfl⟩
    | passed passes o co h =>
      rw [show rest = [] from hrest]
      exact ⟨[.ok o], by simp [List.filterMap_cons], rfl⟩
    | exceeded passes o co limit h hlt =>
      rw [show rest = [] from hrest]
      exact ⟨[.ok o], by simp [List.filterMap_cons], Nat.le_refl 1⟩
    | resolved co ref e r =>
      rw [show rest = [] from hrest]
      exact ⟨[r], by simp [List.filterMap_cons], rfl⟩
    | ended o => exact ⟨rest, by simp [List.filterMap_cons], hrest⟩
    | returned passes o =>
      rw [show rest = [] from hrest]
      exact ⟨[], by simp [List.filterMap_cons], Nat.zero_le 1⟩
    | unknown passes e co h =>
      rw [show rest = [] from hrest]
      exact ⟨[], by simp [List.filterMap_cons], Nat.zero_le 1⟩
    | _ =>
      rw [show rest = [] from hrest]
      exact ⟨[], by simp [List.filterMap_cons], rfl⟩

/-- **No answer is lost or delivered twice**: the inputs of the resumes are null and then the
answers in their order, of which at most the last is not delivered yet. -/
theorem inputs (hp : Protocol spec co h ph) :
    ∃ rest, rest.length ≤ 1 ∧ .ok (.value .null) :: h.filterMap TaskEvent.answer? =
      h.filterMap TaskEvent.input? ++ rest := by
  obtain ⟨rest, heq, hrest⟩ := answers_eq hp
  exact ⟨rest, undelivered_length hrest, heq⟩

/-- The effect that waits to be given to its processor. -/
@[simp] def ungiven : Phase Co → List (ProcessorRef × Effect)
  | .routed _ ref e => [(ref, e)]
  | _ => []

/-- **Effects are processed one at a time in the order of the yields**: the effects yielded for a
processor are those given to one, except for the last if it is about to be given. -/
theorem given (hp : Protocol spec co h ph) :
    h.filterMap (TaskEvent.routed? spec) = h.filterMap TaskEvent.given? ++ ungiven ph := by
  induction hp with
  | start => rfl
  | next hp hn ih =>
    rw [List.filterMap_append, List.filterMap_append, ih]
    cases hn with
    | routed passes e co ref h => simp [List.filterMap_cons, h]
    | unknown passes e co h => simp [List.filterMap_cons, h]
    | _ => simp [List.filterMap_cons]

end Protocol

end EffectLoop
