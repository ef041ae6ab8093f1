import EffectLoop.Coroutine.Flow
import EffectLoop.Proofs.Courses

/-!
# What a flow does

A flow that yields one effect hands the continuation what it takes of the answer (`Flow.Asks`). All such
flows, and what is built of them, are sequential code.

`Flow.Meets` says of a flow what it exchanges before it goes on, and with what it goes on, whatever dialogue
its code leads. There is a rule for each way to build a flow, in the manner of weakest preconditions: what is
to be shown of a flow that asks for an effect is to be shown of what follows the answer (`Flow.Meets.ask`).
-/

namespace EffectLoop.Flow

variable {α β : Type} {x : Flow α} {f : α → Flow β} {e : Effect} {take : Output → Except EffectError α}

/-! ## Flows that yield an effect -/

/-- The flow yields one effect and goes on with what it takes of the answer. -/
def Asks (x : Flow α) (e : Effect) (take : Output → Except EffectError α) : Prop :=
  ∀ k, x.run k = .suspend (.effect e) fun r => k (r.bind take)

theorem asks_perform (e : Effect) (take : Output → Except EffectError α) :
    (do ofExcept (take (← perform e)) : Flow α).Asks e take := by
  intro k
  refine congrArg (Code.suspend _) (funext fun r => ?_)
  cases r <;> rfl

theorem asks_call (target : Target) (args : List Json) :
    (call target args).Asks (.call target args) Output.intoValue := asks_perform _ _

theorem asks_fork (target : Target) (args : List Json) :
    (fork target args).Asks (.fork target args) Output.intoTask := asks_perform _ _

theorem asks_join (t : TaskHandle) : (join t).Asks (.join t) Output.intoValue := asks_perform _ _

theorem asks_put {event : Json} (h : event.isObject = true) : (put event).Asks (.put event) Output.intoValue := by
  have hput : Effect.put? event = .ok (.put event) := if_pos h
  intro k
  have hrun : (put event).run k = (do ofExcept (← perform (.put event)).intoValue : Flow Json).run k := by
    rw [put, hput]
    rfl
  rw [hrun, asks_perform]

/-! ## Sequential flows -/

/-- The code of the flow is sequential if that is what it goes on with. -/
def Sequential (x : Flow α) : Prop := ∀ k, (∀ r, (k r).Sequential) → (x.run k).Sequential

theorem Asks.sequential (h : x.Asks e take) {b : Builtin} (hb : b.kind = e.kind) : x.Sequential := by
  intro k hk
  rw [h k]
  exact .suspend hb fun r => hk _

theorem Sequential.bind (hx : x.Sequential) (hf : ∀ a, (f a).Sequential) : (x >>= f).Sequential := by
  intro k hk
  refine hx _ fun r => ?_
  cases r with
  | ok a => exact hf a k hk
  | error e => exact hk _

theorem Sequential.pure (a : α) : (pure a : Flow α).Sequential := fun _ hk => hk _

theorem Sequential.throw (e : EffectError) : (throw e : Flow α).Sequential := fun _ hk => hk _

theorem Sequential.attempt (hx : x.Sequential) : x.attempt.Sequential := fun _ hk => hx _ fun _ => hk _

theorem Sequential.request (q : Request) : (Flow.request q).Sequential := fun _ hk => .ask fun _ => hk _

theorem Sequential.call (target : Target) (args : List Json) : (Flow.call target args).Sequential :=
  (asks_call target args).sequential (b := .call) rfl

theorem Sequential.fork (target : Target) (args : List Json) : (Flow.fork target args).Sequential :=
  (asks_fork target args).sequential (b := .fork) rfl

theorem Sequential.join (t : TaskHandle) : (Flow.join t).Sequential := (asks_join t).sequential (b := .join) rfl

theorem Sequential.put {event : Json} (h : event.isObject = true) : (Flow.put event).Sequential :=
  (asks_put h).sequential (b := .put) rfl

theorem Sequential.code {x : Flow Json} (hx : x.Sequential) : x.code.Sequential := hx _ fun _ => .done _

/-! ## What a flow exchanges -/

/-- Whatever dialogue the code of the flow leads, it exchanges something of which `Q` holds and goes on with
a result or an error. -/
def Meets (A : Effect → Resume → Prop) (x : Flow α)
    (Q : List (Effect × Resume) → Except EffectError α → Prop) : Prop :=
  ∀ k xs r, (x.run k).Talks A xs r → ∃ ys zs a, xs = ys ++ zs ∧ Q ys a ∧ (k a).Talks A zs r

variable {A : Effect → Resume → Prop} {Q R : List (Effect × Resume) → Except EffectError β → Prop}

theorem Meets.mono {x : Flow β} (h : x.Meets A Q) (himp : ∀ ys a, Q ys a → R ys a) : x.Meets A R := by
  intro k xs r htalks
  obtain ⟨ys, zs, a, hxs, hq, htalks⟩ := h k xs r htalks
  exact ⟨ys, zs, a, hxs, himp ys a hq, htalks⟩

theorem Meets.pure {b : β} (h : Q [] (.ok b)) : Meets A (pure b : Flow β) Q :=
  fun _ xs _ htalks => ⟨[], xs, _, rfl, h, htalks⟩

theorem Meets.throw {e : EffectError} (h : Q [] (.error e)) : Meets A (throw e : Flow β) Q :=
  fun _ xs _ htalks => ⟨[], xs, _, rfl, h, htalks⟩

/-- What is to be shown of the first part is what the second part has to do with its result. -/
theorem Meets.bind {P : List (Effect × Resume) → Except EffectError α → Prop} (hx : x.Meets A P)
    (hok : ∀ ys a, P ys (.ok a) → (f a).Meets A fun zs b => Q (ys ++ zs) b)
    (herr : ∀ ys e, P ys (.error e) → Q ys (.error e)) : (x >>= f).Meets A Q := by
  intro k xs r htalks
  obtain ⟨ys, zs, a, rfl, hp, htalks⟩ := hx _ xs r htalks
  cases a with
  | ok a =>
    obtain ⟨zs, ws, b, rfl, hq, htalks⟩ := hok ys a hp k zs r htalks
    exact ⟨ys ++ zs, ws, b, (List.append_assoc ..).symm, hq, htalks⟩
  | error e => exact ⟨ys, zs, .error e, rfl, herr ys e hp, htalks⟩

/-- An error that is caught is a result. -/
theorem Meets.attempt {P : List (Effect × Resume) → Except EffectError α → Prop} (hx : x.Meets A P) :
    x.attempt.Meets A fun ys a => ∃ b, a = .ok b ∧ P ys b := by
  intro k xs r htalks
  obtain ⟨ys, zs, a, hxs, hp, htalks⟩ := hx _ xs r htalks
  exact ⟨ys, zs, .ok a, hxs, ⟨a, rfl, hp⟩, htalks⟩

/-- Whatever the world replies. -/
theorem Meets.request {q : Request} {f : q.Reply → Flow β} (h : ∀ reply, (f reply).Meets A Q) :
    (Flow.request q >>= f).Meets A Q := by
  intro k xs r htalks
  obtain ⟨reply, htalks⟩ := Code.Talks.of_ask htalks
  exact h reply k xs r htalks

/-- An effect is exchanged for an answer, and the rest of the flow goes on with what is taken of it. -/
theorem Meets.ask (hx : x.Asks e take)
    (hok : ∀ o a, A e (.ok o) → take o = .ok a → (f a).Meets A fun ys b => Q ((e, .ok o) :: ys) b)
    (herr : ∀ r err, A e r → r.bind take = .error err → Q [(e, r)] (.error err)) : (x >>= f).Meets A Q := by
  intro k xs r htalks
  have hrun : (x >>= f).run k = .suspend (.effect e) fun r => (Flow.ofExcept (r.bind take) >>= f).run k := hx _
  rw [hrun] at htalks
  obtain ⟨r₁, xs, rfl, ha, hrest⟩ := Code.Talks.of_suspend htalks
  cases htaken : r₁.bind take with
  | ok a =>
    rw [htaken] at hrest
    cases r₁ with
    | ok o =>
      obtain ⟨ys, zs, b, rfl, hq, hrest⟩ := hok o a ha htaken k xs r hrest
      exact ⟨(e, .ok o) :: ys, zs, b, rfl, hq, hrest⟩
    | error err => cases htaken
  | error err =>
    rw [htaken] at hrest
    exact ⟨[(e, r₁)], xs, .error err, rfl, herr r₁ err ha htaken, hrest⟩

/-- An effect whose answer is an outcome: a value, with which the flow goes on, or an error. -/
theorem Meets.settle {x : Flow Json} {f : Json → Flow β} (hx : x.Asks e Output.intoValue)
    (ha : ∀ r, A e r → ∃ o : Outcome, r = o.map .value)
    (hok : ∀ v, A e (.ok (.value v)) → (f v).Meets A fun ys b => Q ((e, .ok (.value v)) :: ys) b)
    (herr : ∀ err, A e (.error err) → Q [(e, .error err)] (.error err)) : (x >>= f).Meets A Q := by
  refine Meets.ask hx (fun o v hanswer htake => ?_) fun r err hanswer htake => ?_
  · obtain ⟨_ | v, ho⟩ := ha _ hanswer
    · cases ho
    · cases ho
      cases htake
      exact hok v hanswer
  · obtain ⟨_ | v, rfl⟩ := ha _ hanswer
    · cases htake
      exact herr err hanswer
    · cases htake

/-- What the code of a flow comes to is what the flow goes on with. -/
theorem Meets.of_code {x : Flow Json} {Q : List (Effect × Resume) → Except EffectError Json → Prop}
    (h : x.Meets A Q) {xs : List (Effect × Resume)} {r : Resume} (ht : x.code.Talks A xs r) :
    ∃ b, Q xs b ∧ r = b.map .value := by
  obtain ⟨ys, zs, b, rfl, hq, hdone⟩ := h _ xs r ht
  obtain ⟨rfl, rfl⟩ := Code.Talks.of_done hdone
  exact ⟨b, by rwa [List.append_nil], rfl⟩

end EffectLoop.Flow
