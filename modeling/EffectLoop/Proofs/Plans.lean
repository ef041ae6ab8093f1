import EffectLoop.Proofs.Flows
import EffectLoop.Proofs.Resumes

/-!
# Plans

A plan says what a coroutine yields, effect by effect, as a function of what it has received so far, and what it
does about the first answer that it cannot use. `Plan.Steps` follows it answer by answer. Code that follows a
plan (`Plan.Directs`) comes to the steps of the plan whatever it is answered, and there is a rule for each way
to ask for an effect.
-/

namespace EffectLoop

/-! ## What is needed of an answer -/

/-- What the answer to an effect has to be. -/
inductive Need
  | value
  | handle

namespace Need

/-- The output, if it is what is needed. -/
def take : Need → Output → Except EffectError Output
  | .value, o => o.intoValue.map .value
  | .handle, o => o.intoTask.map .task

/-- The output of an answer, if it is what is needed; else the error, of the answer or of the conversion. -/
def check (need : Need) (r : Resume) : Except EffectError Output := r.bind need.take

@[simp] theorem check_error (need : Need) (e : EffectError) : need.check (.error e) = .error e := rfl

@[simp] theorem check_value_value (v : Json) : check .value (.ok (.value v)) = .ok (.value v) := rfl

@[simp] theorem check_handle_task (t : TaskHandle) : check .handle (.ok (.task t)) = .ok (.task t) := rfl

@[simp] theorem check_value_task (t : TaskHandle) : check .value (.ok (.task t)) =
    .error (.invalidArgument ("expected a value, but received a handle to " ++ t.id.text)) := rfl

@[simp] theorem check_handle_value (v : Json) : check .handle (.ok (.value v)) =
    .error (.invalidArgument ("expected a task handle, but received " ++ v.compact)) := rfl

/-- Only a value is taken for a value. -/
theorem check_value_eq_ok {r : Resume} {o : Output} (h : check .value r = .ok o) :
    ∃ v, r = .ok (.value v) ∧ o = .value v := by
  rcases r with e | v | t
  · cases h
  · cases h
    exact ⟨v, rfl, rfl⟩
  · cases h

end Need

/-- The value received at a place, or null. -/
def valueAt (received : List Output) (n : Nat) : Json := (received[n]?.bind Output.asValue?).getD .null

/-- The handle received at a place. -/
def handleAt (received : List Output) (n : Nat) : TaskHandle :=
  match received[n]? with
  | some (.task t) => t
  | _ => default

theorem getElem?_ending_ne_yield (o : Outcome) (answers : List Resume) (n : Nat) (y : Yielded) :
    (ending o answers)[n]? ≠ some (.yield y) := by
  cases n with
  | zero => exact nofun
  | succ n =>
    rw [ending, List.getElem?_cons_succ, List.getElem?_map]
    cases answers[n]? <;> exact nofun

/-- Among so many steps the coroutine is done. -/
def DoneWithin (n : Nat) (steps : List Step) : Prop :=
  n ≤ steps.length → ∃ i, i < n ∧ ∃ o, steps[i]? = some (.done o)

theorem doneWithin_ending {n : Nat} (hn : 0 < n) (o : Outcome) (answers : List Resume) :
    DoneWithin n (ending o answers) := fun _ => ⟨0, hn, o, rfl⟩

theorem DoneWithin.cons {n : Nat} {steps : List Step} (h : DoneWithin n steps) (step : Step) :
    DoneWithin (n + 1) (step :: steps) := by
  intro hle
  obtain ⟨i, hi, o, ho⟩ := h (Nat.le_of_succ_le_succ hle)
  exact ⟨i + 1, Nat.succ_lt_succ hi, o, ho⟩

theorem DoneWithin.mono {n m : Nat} {steps : List Step} (h : DoneWithin n steps) (hle : n ≤ m) :
    DoneWithin m steps := by
  intro hm
  obtain ⟨i, hi, ho⟩ := h (Nat.le_trans hle hm)
  exact ⟨i, Nat.lt_of_lt_of_le hi hle, ho⟩

/-! ## Plans -/

/-- What a coroutine yields and how it ends, given what it has received so far. -/
structure Plan where
  effects : List Output → List Effect
  /-- What the answer to the effect at a place has to be. -/
  need : Nat → Need
  /-- The outcome once every effect has been answered. -/
  result : List Output → Outcome
  /-- The steps to which the answers lead after the one to the effect at a place was of no use. -/
  undo : Nat → EffectError → List Resume → List Step → Prop

/-- Nothing is done about an answer that is of no use: its error is the outcome. -/
def fail (_ : Nat) (e : EffectError) (answers : List Resume) (steps : List Step) : Prop :=
  steps = ending (.error e) answers

namespace Plan

/-- The steps of the plan for these answers, after so much has been received. -/
inductive Steps (plan : Plan) : List Output → List Resume → List Step → Prop
  | ends {received : List Output} (answers : List Resume)
      (h : (plan.effects received)[received.length]? = none) :
      Steps plan received answers (ending (plan.result received) answers)
  | waits {received : List Output} {e : Effect} (h : (plan.effects received)[received.length]? = some e) :
      Steps plan received [] [.yield (.effect e)]
  | goesOn {received : List Output} {e : Effect} {r : Resume} {o : Output} {answers : List Resume}
      {steps : List Step} (h : (plan.effects received)[received.length]? = some e)
      (hr : (plan.need received.length).check r = .ok o) (hs : Steps plan (received ++ [o]) answers steps) :
      Steps plan received (r :: answers) (.yield (.effect e) :: steps)
  | fails {received : List Output} {e : Effect} {r : Resume} {err : EffectError} {answers : List Resume}
      {steps : List Step} (h : (plan.effects received)[received.length]? = some e)
      (hr : (plan.need received.length).check r = .error err)
      (hs : plan.undo received.length err answers steps) :
      Steps plan received (r :: answers) (.yield (.effect e) :: steps)

/-- In answer to its first yields the plan receives these outputs. -/
structure Receives (plan : Plan) (received : List Output) (answers : List Resume) (steps : List Step)
    (more : List Output) : Prop where
  answered : ∀ i o, more[i]? = some o →
    ∃ r, answers[i]? = some r ∧ (plan.need (received.length + i)).check r = .ok o
  yielded : ∀ i, i ≤ more.length → ∃ e,
    (plan.effects (received ++ more.take i))[received.length + i]? = some e ∧
      steps[i]? = some (.yield (.effect e))

section

variable {plan : Plan} {received : List Output} {answers : List Resume} {steps : List Step}

theorem Receives.nil {e : Effect} {later : List Step} (h : (plan.effects received)[received.length]? = some e) :
    plan.Receives received answers (.yield (.effect e) :: later) [] where
  answered := nofun
  yielded i hi := by
    obtain rfl := Nat.le_zero.mp hi
    exact ⟨e, by simpa using h, rfl⟩

theorem Receives.cons {e : Effect} {r : Resume} {o : Output} {more : List Output}
    (h : (plan.effects received)[received.length]? = some e)
    (hr : (plan.need received.length).check r = .ok o)
    (hmore : plan.Receives (received ++ [o]) answers steps more) :
    plan.Receives received (r :: answers) (.yield (.effect e) :: steps) (o :: more) where
  answered
    | 0, _, ho => by
      cases ho
      exact ⟨r, rfl, hr⟩
    | i + 1, o', ho => by simpa [Nat.add_assoc, Nat.add_comm 1] using hmore.answered i o' ho
  yielded
    | 0, _ => ⟨e, by simpa using h, rfl⟩
    | i + 1, hi => by
      simpa [Nat.add_assoc, Nat.add_comm 1] using hmore.yielded i (Nat.le_of_succ_le_succ hi)

namespace Steps

/-- A plan of so many effects is done soon after the last of them. -/
theorem doneWithin (h : plan.Steps received answers steps) {n m : Nat} (hm : 0 < m)
    (heffects : ∀ received, (plan.effects received).length ≤ n)
    (hundo : ∀ i e answers steps, plan.undo i e answers steps → DoneWithin m steps) :
    DoneWithin (n - received.length + m) steps := by
  induction h with
  | ends answers _ => exact doneWithin_ending (Nat.add_pos_right _ hm) _ _
  | @waits received e h =>
    have hlt := (List.getElem?_eq_some_iff.mp h).1
    have hle := heffects received
    intro hlength
    rw [List.length_singleton] at hlength
    omega
  | @goesOn received e r o answers steps h _ _ ih =>
    have hlt := (List.getElem?_eq_some_iff.mp h).1
    have hle := heffects received
    rw [List.length_append, List.length_singleton] at ih
    exact (ih.cons _).mono (by omega)
  | @fails received e r err answers steps h _ hs =>
    have hlt := (List.getElem?_eq_some_iff.mp h).1
    have hle := heffects received
    exact ((hundo _ _ _ _ hs).cons _).mono (by omega)

/-- While the answers are what is needed the plan goes on with them. -/
theorem split {more : List Output} (h : plan.Steps received (more.map .ok ++ answers) steps)
    (hmore : ∀ n o, more[n]? = some o → (plan.need (received.length + n)).check (.ok o) = .ok o ∧
      (plan.effects (received ++ more.take n))[received.length + n]? ≠ none) :
    ∃ es : List Effect, ∃ after, steps = es.map (.yield ∘ .effect) ++ after ∧ es.length = more.length ∧
      plan.Steps (received ++ more) answers after := by
  induction more generalizing received steps with
  | nil => exact ⟨[], steps, rfl, rfl, by simpa using h⟩
  | cons o more ih =>
    obtain ⟨hcheck, hasks⟩ := hmore 0 o rfl
    rw [List.take_zero, List.append_nil, Nat.add_zero] at hasks
    rw [Nat.add_zero] at hcheck
    cases h with
    | ends _ hnone => exact absurd hnone hasks
    | goesOn _ hr hs =>
      cases hr.symm.trans hcheck
      obtain ⟨es, after, rfl, hlength, hs⟩ := ih hs fun n o' ho' => by
        have hnext := hmore (n + 1) o' ho'
        rw [List.take_succ_cons] at hnext
        rw [List.length_append, List.length_singleton, List.append_assoc, Nat.add_assoc, Nat.add_comm 1]
        exact hnext
      exact ⟨_ :: es, after, rfl, congrArg Nat.succ hlength, by simpa using hs⟩
    | fails _ hr _ => cases hr.symm.trans hcheck

/-- Where a plan that undoes nothing yields, everything before has been answered with what was needed. -/
theorem exists_receives (h : plan.Steps received answers steps) (hundo : plan.undo = fail) {n : Nat}
    {y : Yielded} (hn : steps[n]? = some (.yield y)) :
    ∃ more : List Output, more.length = n ∧ plan.Receives received answers steps more := by
  induction h generalizing n with
  | ends _ _ => exact absurd hn (getElem?_ending_ne_yield _ _ _ _)
  | waits h =>
    cases n with
    | zero => exact ⟨[], rfl, .nil h⟩
    | succ n => cases hn
  | goesOn h hr _ ih =>
    cases n with
    | zero => exact ⟨[], rfl, .nil h⟩
    | succ n =>
      obtain ⟨more, hlength, hmore⟩ := ih hn
      exact ⟨_ :: more, congrArg Nat.succ hlength, .cons h hr hmore⟩
  | fails h _ hs =>
    cases n with
    | zero => exact ⟨[], rfl, .nil h⟩
    | succ n =>
      rw [hundo] at hs
      rw [show _ = _ from hs] at hn
      exact absurd hn (getElem?_ending_ne_yield _ _ _ _)

/-- A plan that undoes nothing ends with the error of the first answer that is of no use. -/
theorem drop_of_useless (h : plan.Steps received answers steps) (hundo : plan.undo = fail) {n : Nat} {y : Yielded}
    (hn : steps[n]? = some (.yield y)) {r : Resume} (hr : answers[n]? = some r) {e : EffectError}
    (he : (plan.need (received.length + n)).check r = .error e) :
    steps.drop (n + 1) = ending (.error e) (answers.drop (n + 1)) := by
  induction h generalizing n with
  | ends _ _ => exact absurd hn (getElem?_ending_ne_yield _ _ _ _)
  | waits _ => cases hr
  | goesOn _ hr' _ ih =>
    cases n with
    | zero =>
      cases hr
      cases hr'.symm.trans he
    | succ n =>
      refine ih hn hr ?_
      rwa [List.length_append, List.length_singleton, Nat.add_assoc, Nat.add_comm 1]
  | fails _ hr' hs =>
    rw [hundo] at hs
    cases hs
    cases n with
    | zero =>
      cases hr
      cases hr'.symm.trans he
      rfl
    | succ n => exact absurd hn (getElem?_ending_ne_yield _ _ _ _)

end Steps

end

/-! ## Code that follows a plan -/

/-- Whatever it is answered, the code follows the plan from here on. -/
def Directs (plan : Plan) (received : List Output) (c : Code) : Prop :=
  ∀ answers, ∃ steps, c.Yields answers steps ∧ plan.Steps received answers steps

/-- Whatever it is answered, the code does what the plan says after a useless answer. -/
def Undoes (plan : Plan) (n : Nat) (e : EffectError) (c : Code) : Prop :=
  ∀ answers, ∃ steps, c.Yields answers steps ∧ plan.undo n e answers steps

section

variable {plan : Plan} {received : List Output} {c : Code} {e : Effect}

theorem Directs.ends {o : Outcome} (h : (plan.effects received)[received.length]? = none)
    (ho : plan.result received = o) : plan.Directs received (.done (o.map .value)) := by
  intro answers
  have hdone := Code.Yields.done (o.map Output.value) answers
  rw [show (o.map Output.value).map Output.wire = o by cases o <;> rfl] at hdone
  exact ⟨_, hdone, ho ▸ .ends answers h⟩

theorem Undoes.fail {n : Nat} {err : EffectError} (h : plan.undo = EffectLoop.fail) :
    plan.Undoes n err (.done (.error err)) :=
  fun answers => ⟨_, .done (.error err) answers, by rw [h]; rfl⟩

theorem Directs.suspend {k : Resume → Code} (h : (plan.effects received)[received.length]? = some e)
    (hok : ∀ r o, (plan.need received.length).check r = .ok o → plan.Directs (received ++ [o]) (k r))
    (herr : ∀ r err, (plan.need received.length).check r = .error err →
      plan.Undoes received.length err (k r)) : plan.Directs received (.suspend (.effect e) k) := by
  intro answers
  cases answers with
  | nil => exact ⟨_, .waits _ k, .waits h⟩
  | cons r answers =>
    cases hr : (plan.need received.length).check r with
    | ok o =>
      obtain ⟨steps, hyields, hsteps⟩ := hok r o hr answers
      exact ⟨_, .goesOn _ hyields, .goesOn h hr hsteps⟩
    | error err =>
      obtain ⟨steps, hyields, hundo⟩ := herr r err hr answers
      exact ⟨_, .goesOn _ hyields, .fails h hr hundo⟩

section

variable {α β : Type} {x : Flow α} {f : α → Flow β} {take : Output → Except EffectError α}
  {k : Except EffectError β → Code}

/-- **An effect is asked for**: the flow goes on with what is received, or its error is seen to. -/
theorem Directs.ask (hx : x.Asks e take) {wrap : α → Output}
    (htake : ∀ o, (plan.need received.length).take o = (take o).map wrap)
    (h : (plan.effects received)[received.length]? = some e)
    (hok : ∀ a, plan.Directs (received ++ [wrap a]) ((f a).run k))
    (herr : ∀ err, plan.Undoes received.length err (k (.error err))) :
    plan.Directs received ((x >>= f).run k) := by
  have hrun : (x >>= f).run k = .suspend (.effect e) fun r => (Flow.ofExcept (r.bind take) >>= f).run k := hx _
  have hcheck : ∀ r : Resume, (plan.need received.length).check r = (r.bind take).map wrap := by
    intro r
    cases r with
    | ok o => exact htake o
    | error err => rfl
  rw [hrun]
  refine .suspend h (fun r o hr => ?_) fun r err hr => ?_
  · rw [hcheck] at hr
    cases ha : r.bind take with
    | ok a =>
      rw [ha] at hr
      cases hr
      exact hok a
    | error err =>
      rw [ha] at hr
      cases hr
  · rw [hcheck] at hr
    cases ha : r.bind take with
    | ok a =>
      rw [ha] at hr
      cases hr
    | error err' =>
      rw [ha] at hr
      cases hr
      exact herr err

theorem Directs.askValue {x : Flow Json} {f : Json → Flow β} (hx : x.Asks e Output.intoValue)
    (hneed : plan.need received.length = .value) (h : (plan.effects received)[received.length]? = some e)
    (hok : ∀ v, plan.Directs (received ++ [.value v]) ((f v).run k))
    (herr : ∀ err, plan.Undoes received.length err (k (.error err))) :
    plan.Directs received ((x >>= f).run k) :=
  .ask hx (fun _ => by rw [hneed]; rfl) h hok herr

theorem Directs.askHandle {x : Flow TaskHandle} {f : TaskHandle → Flow β} (hx : x.Asks e Output.intoTask)
    (hneed : plan.need received.length = .handle) (h : (plan.effects received)[received.length]? = some e)
    (hok : ∀ t, plan.Directs (received ++ [.task t]) ((f t).run k))
    (herr : ∀ err, plan.Undoes received.length err (k (.error err))) :
    plan.Directs received ((x >>= f).run k) :=
  .ask hx (fun _ => by rw [hneed]; rfl) h hok herr

end

end

end Plan

end EffectLoop
