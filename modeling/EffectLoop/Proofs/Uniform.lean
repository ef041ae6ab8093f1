import EffectLoop.Proofs.Answers
import EffectLoop.Proofs.Prospects

/-!
# Targets that depend on nothing but their arguments and answers

A target may look at the clock, at gates and at the register, and its tasks have other numbers in every
run. `Uniform` says of a program that none of this shows: what corresponds and has got the same answers
goes on to corresponding yields, waits and ends, where a handle is the same as any other that stands for
the same work. It speaks of one stretch of user code at a time, and of no effect's answer.

So there is one thing that may come of such a target, whatever the handles stand for in a run
(`eq_of_invoked`): that is an induction over all that the target calls, forks and joins, with a lemma for
each way in which something comes (`Matter.Upheld`).
-/

namespace EffectLoop

variable {Co Fu : Type}

/-- Which handles of one run correspond to which of another. -/
abbrev Pairing := TaskHandle → TaskHandle → Prop

/-- Answers that differ in nothing but corresponding handles. -/
inductive Resume.Same (R : Pairing) : Resume → Resume → Prop
  | value (v : Json) : Same R (.ok (.value v)) (.ok (.value v))
  | task {t t' : TaskHandle} (h : R t t') : Same R (.ok (.task t)) (.ok (.task t'))
  | error (e : EffectError) : Same R (.error e) (.error e)

theorem Resume.Same.refl_outcome {R : Pairing} (o : Outcome) : Resume.Same R (o.map .value) (o.map .value) := by
  cases o with
  | ok v => exact .value v
  | error e => exact .error e

/-- Effects that differ in nothing but corresponding handles. What a custom effect carries does not count. -/
inductive Effect.Same (T : Target → List Json → Prop) (R : Pairing) : Effect → Effect → Prop
  | put (event : Json) : Same T R (.put event) (.put event)
  | call {target : Target} {args : List Json} (h : T target args) :
      Same T R (.call target args) (.call target args)
  | fork {target : Target} {args : List Json} (h : T target args) :
      Same T R (.fork target args) (.fork target args)
  | join {t t' : TaskHandle} (h : R t t') : Same T R (.join t) (.join t')
  | custom (tag : String) (payload payload' : Json) : Same T R (.custom tag payload) (.custom tag payload')

theorem Effect.Same.kind_eq {T : Target → List Json → Prop} {R : Pairing} {e e' : Effect}
    (h : e.Same T R e') : e.kind = e'.kind := by
  cases h <;> rfl

/-- The wait ends by itself, and with null. -/
def Wait.passes : Wait → Bool
  | .sleep _ | .turn => true
  | _ => false

/-- Computations that have come equally far, if `fu` says which computations correspond. -/
inductive Await.Same (T : Target → List Json → Prop) (fu : Fu → Fu → Prop) (R : Pairing) :
    Await Fu → Await Fu → Prop
  | done (r : Resume) : Same T fu R (.done r) (.done r)
  | joined {t t' : TaskHandle} {k k' : Resume → Fu} (h : R t t') (hk : ∀ r, fu (k r) (k' r)) :
      Same T fu R (.wait (.task t) k) (.wait (.task t') k')
  | passed {x x' : Wait} {k k' : Resume → Fu} (hx : x.passes = true) (hx' : x'.passes = true)
      (hk : fu (k (.ok (.value .null))) (k' (.ok (.value .null)))) : Same T fu R (.wait x k) (.wait x' k')
  /-- The answer of the wait does not count. -/
  | waited {x x' : Wait} {k k' : Resume → Fu} (hk : ∀ r r', fu (k r) (k' r')) :
      Same T fu R (.wait x k) (.wait x' k')
  | delegated {b : Builtin} {e e' : Effect} {k k' : Resume → Fu} (h : e.Same T R e')
      (hk : ∀ r r', Resume.Same R r r' → fu (k r) (k' r')) :
      Same T fu R (.delegate b e k) (.delegate b e' k')
  | both {left left' right right' : Fu} {k k' : Resume → Resume → Fu} (hl : fu left left')
      (hr : fu right right') (hk : ∀ r r', fu (k r r') (k' r r')) :
      Same T fu R (.both left right k) (.both left' right' k')

/-- Coroutines that have come equally far within a resume, if `co` says which coroutines correspond. -/
inductive Progress.Same (T : Target → List Json → Prop) (co : Co → Co → Prop) (R : Pairing) :
    Progress Co → Progress Co → Prop
  | more {c c' : Co} (h : co c c') : Same T co R (.more c) (.more c')
  /-- The outcome of a driver that it polls itself does not count. -/
  | polled {key key' : DriverKey} {k k' : Option Outcome → Co} (hk : ∀ o o', co (k o) (k' o')) :
      Same T co R (.poll key k) (.poll key' k')
  | passed {o o' : Output} {c c' : Co} (ho : Resume.Same R (.ok o) (.ok o')) (h : co c c') :
      Same T co R (.yield (.pass o) c) (.yield (.pass o') c')
  | yielded {e e' : Effect} {c c' : Co} (he : e.Same T R e') (h : co c c') :
      Same T co R (.yield (.effect e) c) (.yield (.effect e') c')
  | done (o : Outcome) (c c' : Co) : Same T co R (.done o c) (.done o c')

/-- Corresponding work. -/
inductive Invoked.Same (co : Co → Co → Prop) (fu : Fu → Fu → Prop) : Invoked Co Fu → Invoked Co Fu → Prop
  | pending {f f' : Fu} (h : fu f f') : Same co fu (.pending f) (.pending f')
  | coroutine {c c' : Co} (h : co c c') : Same co fu (.coroutine c) (.coroutine c')

/-- What the targets of a class do depends on nothing but their arguments and the answers that they get.
Coroutines and computations correspond by `co` and `fu` as long as their handles correspond, and that
is kept by whatever the world replies to them. The targets know the handles `known` from elsewhere, if any,
and call and fork no targets but those of the class. -/
structure Uniform (p : Program Co Fu) (T : Target → List Json → Prop) (known : TaskHandle → Prop)
    (co : Pairing → Co → Co → Prop) (fu : Pairing → Fu → Fu → Prop) : Prop where
  invoked : ∀ R target args work work', T target args → (∀ t, known t → R t t) →
    (p.invoke target args).Gives p work → (p.invoke target args).Gives p work' →
    work.Same (co R) (fu R) work'
  resumed : ∀ R c c' r r', co R c c' → Resume.Same R r r' → co R (p.resume c r) (p.resume c' r')
  advanced : ∀ R c c' x x', co R c c' → (p.advance c).Gives p x → (p.advance c').Gives p x' →
    x.Same T (co R) R x'
  worked : ∀ R f f' x x', fu R f f' → (p.work f).Gives p x → (p.work f').Gives p x' →
    x.Same T (fu R) R x'

/-- The answer of a sink depends on nothing but the event. -/
def SinkAnswers (p : Program Co Fu) (sink : SinkId) : Prop :=
  ∀ event v v', (p.dispatch sink event).Gives p v → (p.dispatch sink event).Gives p v' → v = v'

/-! ## What comes next -/

section

variable (p : Program Co Fu) (s : SchedulerId) (w : Reading Co Fu)

/-- What may come of a computation that has come so far. -/
def Await.Comes : Await Fu → Resume → Prop
  | .done r', r => r = r'
  | .wait x k, r => ∃ r₁, EffectLoop.Comes p s w (.wait x) r₁ ∧
      EffectLoop.Comes p s w (.code (p.work (k r₁))) r
  | .delegate b e k, r => ∃ r₁, EffectLoop.Comes p s w (.effect (.builtin b) e) r₁ ∧
      EffectLoop.Comes p s w (.code (p.work (k r₁))) r
  | .both left right k, r => ∃ r₁ r₂, EffectLoop.Comes p s w (.code (p.work left)) r₁ ∧
      EffectLoop.Comes p s w (.code (p.work right)) r₂ ∧
      EffectLoop.Comes p s w (.code (p.work (k r₁ r₂))) r

/-- What may come of a coroutine that has come so far within a resume, after so many passes in a row. -/
def Progress.Comes (passes : Nat) : Progress Co → Resume → Prop
  | .more co, r => EffectLoop.Comes p s w (.run (p.advance co) passes) r
  | .poll _ k, r => ∃ o, EffectLoop.Comes p s w (.run (p.advance (k o)) passes) r
  | .yield (.pass o) co, r =>
    (∀ limit, (p.scheduler s).config.passThroughLimit = some limit → passes + 1 ≤ limit) ∧
        EffectLoop.Comes p s w (.run (p.advance (p.resume co (.ok o))) (passes + 1)) r ∨
      ∃ limit, (p.scheduler s).config.passThroughLimit = some limit ∧ limit < passes + 1 ∧
        r = .error (EventLoop.exceeded limit)
  | .yield (.effect e) co, r =>
    match (p.scheduler s).processors.get? e.kind with
    | some ref => ∃ r₁, EffectLoop.Comes p s w (.effect ref e) r₁ ∧
        EffectLoop.Comes p s w (.run (p.advance (p.resume co r₁)) 0) r
    | none => r = .error (.unknownKind e.kind.tag)
  | .done o _, r => r = o.map .value

variable {p s w}

theorem exists_await_of_comes {a : Act Co Fu (Await Fu)} {r : Resume} (h : Comes p s w (.code a) r) :
    ∃ x, a.Gives p x ∧ x.Comes p s w r := by
  cases h with
  | done h => exact ⟨_, h, rfl⟩
  | waited h hx hk => exact ⟨_, h, _, hx, hk⟩
  | delegated h he hk => exact ⟨_, h, _, he, hk⟩
  | both h hl hr hk => exact ⟨_, h, _, _, hl, hr, hk⟩

theorem exists_progress_of_comes {a : Act Co Fu (Progress Co)} {passes : Nat} {r : Resume}
    (h : Comes p s w (.run a passes) r) : ∃ x, a.Gives p x ∧ x.Comes p s w passes r := by
  cases h with
  | more h hr => exact ⟨_, h, hr⟩
  | polled o h hr => exact ⟨_, h, o, hr⟩
  | passed h hlimit hr => exact ⟨_, h, .inl ⟨hlimit, hr⟩⟩
  | exceeded h hlimit hlt => exact ⟨_, h, .inr ⟨_, hlimit, hlt, rfl⟩⟩
  | yielded h href he hr =>
    refine ⟨_, h, ?_⟩
    simp only [Progress.Comes, href]
    exact ⟨_, he, hr⟩
  | unknown h href =>
    refine ⟨_, h, ?_⟩
    simp only [Progress.Comes, href]
  | returned h => exact ⟨_, h, rfl⟩

/-- What comes of work is an outcome. -/
theorem exists_outcome_of_invoked {work : Invoked Co Fu} {r : Resume} (h : Comes p s w (.invoked work) r) :
    ∃ o : Outcome, r = o.map .value := by
  cases h with
  | @pending fu r _ =>
    cases r with
    | ok o => exact ⟨.ok o.wire, rfl⟩
    | error e => exact ⟨.error e, rfl⟩
  | coroutine h => exact exists_outcome_of_comes h

/-- A task is waited for until it has an outcome. -/
theorem exists_outcome_of_task {t : TaskHandle} {r : Resume} (h : Comes p s w (.wait (.task t)) r) :
    ∃ o : Outcome, r = o.map .value := by
  cases h with
  | joined _ _ hr => exact exists_outcome_of_invoked hr
  | other _ => exact ⟨_, rfl⟩

/-- A wait that ends by itself ends with null. -/
theorem eq_null_of_passes {x : Wait} (hx : x.passes = true) {r : Resume} (h : Comes p s w (.wait x) r) :
    r = .ok (.value .null) := by
  cases h with
  | slept deadline => rfl
  | turned => rfl
  | opened gate v => cases hx
  | nested key r => cases hx
  | joined _ _ _ => cases hx
  | other _ => cases hx

end

/-! ## One thing may come of a uniform target -/

section

variable (p : Program Co Fu) (s : SchedulerId) {T : Target → List Json → Prop} {known : TaskHandle → Prop}
  {co : Pairing → Co → Co → Prop} {fu : Pairing → Fu → Fu → Prop} {w w' : Reading Co Fu}

/-- Two handles stand for the work that one target has given, or are one known handle. -/
def Paired (T : Target → List Json → Prop) (w w' : Reading Co Fu) : Pairing := fun t t' =>
  (w.others t = none ∧ w'.others t' = none ∧ ∃ target args work work', T target args ∧
    (p.invoke target args).Gives p work ∧ (p.invoke target args).Gives p work' ∧
    w.forked t = some work ∧ w'.forked t' = some work') ∨
  ∃ o, w.others t = some o ∧ w'.others t' = some o

/-- Corresponding matters of two runs. -/
inductive Matter.Same (T : Target → List Json → Prop) (co : Co → Co → Prop) (fu : Fu → Fu → Prop)
    (R : Pairing) : Matter Co Fu → Matter Co Fu → Prop
  | code {a a' : Act Co Fu (Await Fu)}
      (h : ∀ x x', a.Gives p x → a'.Gives p x' → x.Same T fu R x') : Same T co fu R (.code a) (.code a')
  | wait {t t' : TaskHandle} (h : R t t') : Same T co fu R (.wait (.task t)) (.wait (.task t'))
  | effect {b : Builtin} {e e' : Effect} (h : e.Same T R e') :
      Same T co fu R (.effect (.builtin b) e) (.effect (.builtin b) e')
  | invoked {work work' : Invoked Co Fu} (h : work.Same co fu work') :
      Same T co fu R (.invoked work) (.invoked work')
  | run {a a' : Act Co Fu (Progress Co)} {passes : Nat}
      (h : ∀ x x', a.Gives p x → a'.Gives p x' → x.Same T co R x') :
      Same T co fu R (.run a passes) (.run a' passes)

/-- Answers of two runs that agree: with a handle an effect may be answered, and nothing else. -/
def Matter.Agrees (R : Pairing) : Matter Co Fu → Resume → Resume → Prop
  | .effect _ _, r, r' => Resume.Same R r r'
  | _, r, r' => r = r'

variable {p s} in
/-- What comes of the computation that corresponds to one comes of where that has come. -/
theorem Matter.Same.exists_await {co : Co → Co → Prop} {fu : Fu → Fu → Prop} {R : Pairing}
    {a : Act Co Fu (Await Fu)} {x : Await Fu} {m : Matter Co Fu} {r : Resume}
    (h : Matter.Same p T co fu R (.code a) m) (hx : a.Gives p x) (hr : Comes p s w m r) :
    ∃ x', x.Same T fu R x' ∧ x'.Comes p s w r := by
  cases h with
  | code hsame =>
    obtain ⟨x', hx', hr'⟩ := exists_await_of_comes hr
    exact ⟨x', hsame x x' hx hx', hr'⟩

variable {p s} in
/-- What comes of the coroutine that corresponds to one comes of where that has come. -/
theorem Matter.Same.exists_progress {co : Co → Co → Prop} {fu : Fu → Fu → Prop} {R : Pairing}
    {a : Act Co Fu (Progress Co)} {passes : Nat} {x : Progress Co} {m : Matter Co Fu} {r : Resume}
    (h : Matter.Same p T co fu R (.run a passes) m) (hx : a.Gives p x) (hr : Comes p s w m r) :
    ∃ x', x.Same T co R x' ∧ x'.Comes p s w passes r := by
  cases h with
  | run hsame =>
    obtain ⟨x', hx', hr'⟩ := exists_progress_of_comes hr
    exact ⟨x', hsame x x' hx hx', hr'⟩

/-- What comes in another run of whatever corresponds to the matter agrees with the answer. -/
def Matter.Upheld (T : Target → List Json → Prop) (co : Pairing → Co → Co → Prop)
    (fu : Pairing → Fu → Fu → Prop) (w w' : Reading Co Fu) (m : Matter Co Fu) (r : Resume) : Prop :=
  ∀ m' r', Matter.Same p T (co (Paired p T w w')) (fu (Paired p T w w')) (Paired p T w w') m m' →
    Comes p s w' m' r' → m.Agrees (Paired p T w w') r r'

/-! ### Corresponding user code -/

namespace Uniform

variable {p} {R : Pairing} (hu : Uniform p T known co fu)
include hu

theorem same_work {f f' : Fu} (h : fu R f f') :
    Matter.Same p T (co R) (fu R) R (.code (p.work f)) (.code (p.work f')) :=
  .code fun x x' hx hx' => hu.worked _ _ _ x x' h hx hx'

theorem same_advance {c c' : Co} {passes : Nat} (h : co R c c') :
    Matter.Same p T (co R) (fu R) R (.run (p.advance c) passes) (.run (p.advance c') passes) :=
  .run fun x x' hx hx' => hu.advanced _ _ _ x x' h hx hx'

theorem same_resume {c c' : Co} {r r' : Resume} {passes : Nat} (h : co R c c') (hr : Resume.Same R r r') :
    Matter.Same p T (co R) (fu R) R (.run (p.advance (p.resume c r)) passes)
      (.run (p.advance (p.resume c' r')) passes) :=
  hu.same_advance (hu.resumed _ _ _ _ _ h hr)

theorem same_invoke (hknown : ∀ t, known t → R t t) {target : Target} {args : List Json} (hT : T target args)
    {work work' : Invoked Co Fu} (hg : (p.invoke target args).Gives p work)
    (hg' : (p.invoke target args).Gives p work') :
    Matter.Same p T (co R) (fu R) R (.invoked work) (.invoked work') :=
  .invoked (hu.invoked _ _ _ _ _ hT hknown hg hg')

end Uniform

/-! ### Each way in which something comes -/

section

variable {p s} {r r' r'' : Resume}

section

variable {a : Act Co Fu (Await Fu)} (hu : Uniform p T known co fu)
include hu

theorem upheld_of_waited {x : Wait} {k : Resume → Fu} (hg : a.Gives p (.wait x k))
    (hx : Comes p s w (.wait x) r) (ihx : (Matter.wait x).Upheld p s T co fu w w' r)
    (ihk : (Matter.code (p.work (k r))).Upheld p s T co fu w w' r') :
    (Matter.code a).Upheld p s T co fu w w' r' := by
  intro m' r₂ hm h'
  obtain ⟨x', hsame, hr'⟩ := hm.exists_await hg h'
  cases hsame with
  | joined ht hk =>
    obtain ⟨r₁, hx', hk'⟩ := hr'
    cases ihx _ _ (.wait ht) hx'
    exact ihk _ _ (hu.same_work (hk _)) hk'
  | passed hpasses hpasses' hk =>
    obtain ⟨r₁, hx', hk'⟩ := hr'
    cases eq_null_of_passes hpasses hx
    cases eq_null_of_passes hpasses' hx'
    exact ihk _ _ (hu.same_work hk) hk'
  | waited hk =>
    obtain ⟨r₁, _, hk'⟩ := hr'
    exact ihk _ _ (hu.same_work (hk _ _)) hk'

theorem upheld_of_delegated {b : Builtin} {e : Effect} {k : Resume → Fu} (hg : a.Gives p (.delegate b e k))
    (ihe : (Matter.effect (.builtin b) e).Upheld p s T co fu w w' r)
    (ihk : (Matter.code (p.work (k r))).Upheld p s T co fu w w' r') :
    (Matter.code a).Upheld p s T co fu w w' r' := by
  intro m' r₂ hm h'
  obtain ⟨x', hsame, hr'⟩ := hm.exists_await hg h'
  cases hsame with
  | delegated he hk =>
    obtain ⟨r₁, he', hk'⟩ := hr'
    exact ihk _ _ (hu.same_work (hk _ _ (ihe _ _ (.effect he) he'))) hk'

theorem upheld_of_both {left right : Fu} {k : Resume → Resume → Fu} (hg : a.Gives p (.both left right k))
    (ihl : (Matter.code (p.work left)).Upheld p s T co fu w w' r)
    (ihr : (Matter.code (p.work right)).Upheld p s T co fu w w' r')
    (ihk : (Matter.code (p.work (k r r'))).Upheld p s T co fu w w' r'') :
    (Matter.code a).Upheld p s T co fu w w' r'' := by
  intro m' r₃ hm h'
  obtain ⟨x', hsame, hr'⟩ := hm.exists_await hg h'
  cases hsame with
  | both hl hr hk =>
    obtain ⟨r₁, r₂, hl', hr', hk'⟩ := hr'
    cases ihl _ _ (hu.same_work hl) hl'
    cases ihr _ _ (hu.same_work hr) hr'
    exact ihk _ _ (hu.same_work (hk _ _)) hk'

end

/-! A handle stands for the same work in both runs, or for a task of somebody else. -/

theorem upheld_of_joined (hu : Uniform p T known co fu) (hknown : ∀ t, known t → Paired p T w w' t t)
    {t : TaskHandle} {work : Invoked Co Fu} (hown : w.others t = none) (hforked : w.forked t = some work)
    (ih : (Matter.invoked work).Upheld p s T co fu w w' r) :
    (Matter.wait (.task t)).Upheld p s T co fu w w' r := by
  intro m' r₂ hm h'
  cases hm with
  | wait ht =>
    rcases ht with ⟨_, hown', target, args, work, work', hT, hg, hg', hwork, hwork'⟩ | ⟨o, ho, _⟩
    · cases hforked.symm.trans hwork
      cases h' with
      | joined _ hforked' hr' =>
        cases hforked'.symm.trans hwork'
        exact ih _ _ (hu.same_invoke hknown hT hg hg') hr'
      | other ho => cases hown'.symm.trans ho
    · cases hown.symm.trans ho

theorem upheld_of_other {t : TaskHandle} {o : Outcome} (ho : w.others t = some o) :
    (Matter.wait (.task t)).Upheld p s T co fu w w' (o.map .value) := by
  intro m' r₂ hm h'
  cases hm with
  | wait ht =>
    rcases ht with ⟨hown, _⟩ | ⟨o, ho₁, ho₂⟩
    · cases hown.symm.trans ho
    · cases ho.symm.trans ho₁
      cases h' with
      | joined hown' _ _ => cases hown'.symm.trans ho₂
      | other ho' =>
        cases ho'.symm.trans ho₂
        rfl

/-! An effect goes to its own processor, or fails in the same way. -/

theorem upheld_of_put (hsink : SinkAnswers p (p.scheduler s).sink) {event v : Json}
    (hv : (p.dispatch (p.scheduler s).sink event).Gives p v) :
    (Matter.effect (.builtin .put) (.put event)).Upheld p s T co fu w w' (.ok (.value v)) := by
  intro m' r₂ hm h'
  cases hm with
  | effect he =>
    cases he
    cases h' with
    | put hv' =>
      cases hsink _ _ _ hv hv'
      exact .value _
    | mismatch hkind => exact absurd rfl hkind

theorem upheld_of_call (hu : Uniform p T known co fu) (hknown : ∀ t, known t → Paired p T w w' t t)
    {target : Target} {args : List Json} {work : Invoked Co Fu} (hg : (p.invoke target args).Gives p work)
    (hr : Comes p s w (.invoked work) r) (ih : (Matter.invoked work).Upheld p s T co fu w w' r) :
    (Matter.effect (.builtin .call) (.call target args)).Upheld p s T co fu w w' r := by
  intro m' r₂ hm h'
  cases hm with
  | effect he =>
    cases he with
    | call hT =>
      cases h' with
      | call hg' hr' =>
        cases ih _ _ (hu.same_invoke hknown hT hg hg') hr'
        obtain ⟨o, rfl⟩ := exists_outcome_of_invoked hr
        exact Resume.Same.refl_outcome o
      | mismatch hkind => exact absurd rfl hkind

theorem upheld_of_fork {target : Target} {args : List Json} {work : Invoked Co Fu} {id : TaskId}
    (hg : (p.invoke target args).Gives p work) (hown : w.others ⟨s, id, target.name⟩ = none)
    (hforked : w.forked ⟨s, id, target.name⟩ = some work) :
    (Matter.effect (.builtin .fork) (.fork target args)).Upheld p s T co fu w w'
      (.ok (.task ⟨s, id, target.name⟩)) := by
  intro m' r₂ hm h'
  cases hm with
  | effect he =>
    cases he with
    | fork hT =>
      cases h' with
      | fork hg' hown' hforked' =>
        exact .task (.inl ⟨hown, hown', _, _, _, _, hT, hg, hg', hforked, hforked'⟩)
      | mismatch hkind => exact absurd rfl hkind

theorem upheld_of_join {t : TaskHandle} (hx : Comes p s w (.wait (.task t)) r)
    (ih : (Matter.wait (.task t)).Upheld p s T co fu w w' r) :
    (Matter.effect (.builtin .join) (.join t)).Upheld p s T co fu w w' r := by
  intro m' r₂ hm h'
  cases hm with
  | effect he =>
    cases he with
    | join ht =>
      cases h' with
      | join hx' =>
        cases ih _ _ (.wait ht) hx'
        obtain ⟨o, rfl⟩ := exists_outcome_of_task hx
        exact Resume.Same.refl_outcome o
      | mismatch hkind => exact absurd rfl hkind

theorem upheld_of_mismatch {b : Builtin} {e : Effect} (hkind : e.kind ≠ b.kind) :
    (Matter.effect (.builtin b) e).Upheld p s T co fu w w' (.error (EventLoop.mismatch b e)) := by
  intro m' r₂ hm h'
  cases hm with
  | effect he =>
    rw [he.kind_eq] at hkind
    cases h' with
    | mismatch _ =>
      unfold EventLoop.mismatch
      rw [he.kind_eq]
      exact .error _
    | _ => exact absurd rfl hkind

/-! Work goes on as what it consists of. -/

theorem upheld_of_pending (hu : Uniform p T known co fu) {f : Fu}
    (ih : (Matter.code (p.work f)).Upheld p s T co fu w w' r) :
    (Matter.invoked (.pending f)).Upheld p s T co fu w w' r.wired := by
  intro m' r₂ hm h'
  cases hm with
  | invoked hwork =>
    cases hwork with
    | pending hf =>
      cases h' with
      | pending h' =>
        cases ih _ _ (hu.same_work hf) h'
        rfl

theorem upheld_of_coroutine (hu : Uniform p T known co fu) {c : Co}
    (ih : (Matter.run (p.advance (p.resume c (.ok (.value .null)))) 0).Upheld p s T co fu w w' r) :
    (Matter.invoked (.coroutine c)).Upheld p s T co fu w w' r := by
  intro m' r₂ hm h'
  cases hm with
  | invoked hwork =>
    cases hwork with
    | coroutine hc =>
      cases h' with
      | coroutine h' => exact ih _ _ (hu.same_resume hc (.value _)) h'

/-! A coroutine goes from yield to yield. -/

section

variable {a : Act Co Fu (Progress Co)} {c : Co} {passes : Nat}

theorem upheld_of_more (hu : Uniform p T known co fu) (hg : a.Gives p (.more c))
    (ih : (Matter.run (p.advance c) passes).Upheld p s T co fu w w' r) :
    (Matter.run a passes).Upheld p s T co fu w w' r := by
  intro m' r₂ hm h'
  obtain ⟨x', hsame, hr'⟩ := hm.exists_progress hg h'
  cases hsame with
  | more hc => exact ih _ _ (hu.same_advance hc) hr'

theorem upheld_of_polled (hu : Uniform p T known co fu) {key : DriverKey} {k : Option Outcome → Co}
    (o : Option Outcome) (hg : a.Gives p (.poll key k))
    (ih : (Matter.run (p.advance (k o)) passes).Upheld p s T co fu w w' r) :
    (Matter.run a passes).Upheld p s T co fu w w' r := by
  intro m' r₂ hm h'
  obtain ⟨x', hsame, hr'⟩ := hm.exists_progress hg h'
  cases hsame with
  | polled hk =>
    obtain ⟨o', hr'⟩ := hr'
    exact ih _ _ (hu.same_advance (hk o o')) hr'

theorem upheld_of_passed (hu : Uniform p T known co fu) {o : Output} (hg : a.Gives p (.yield (.pass o) c))
    (hlimit : ∀ limit, (p.scheduler s).config.passThroughLimit = some limit → passes + 1 ≤ limit)
    (ih : (Matter.run (p.advance (p.resume c (.ok o))) (passes + 1)).Upheld p s T co fu w w' r) :
    (Matter.run a passes).Upheld p s T co fu w w' r := by
  intro m' r₂ hm h'
  obtain ⟨x', hsame, hr'⟩ := hm.exists_progress hg h'
  cases hsame with
  | passed ho hc =>
    rcases hr' with ⟨_, hr'⟩ | ⟨limit, hsome, hlt, _⟩
    · exact ih _ _ (hu.same_resume hc ho) hr'
    · exact absurd (hlimit limit hsome) (Nat.not_le.mpr hlt)

theorem upheld_of_exceeded {o : Output} {limit : Nat} (hg : a.Gives p (.yield (.pass o) c))
    (hsome : (p.scheduler s).config.passThroughLimit = some limit) (hlt : limit < passes + 1) :
    (Matter.run a passes).Upheld p s T co fu w w' (.error (EventLoop.exceeded limit)) := by
  intro m' r₂ hm h'
  obtain ⟨x', hsame, hr'⟩ := hm.exists_progress hg h'
  cases hsame with
  | passed _ _ =>
    rcases hr' with ⟨hlimit, _⟩ | ⟨limit, hsome', _, rfl⟩
    · exact absurd (hlimit _ hsome) (Nat.not_le.mpr hlt)
    · cases hsome.symm.trans hsome'
      rfl

theorem upheld_of_yielded (hu : Uniform p T known co fu) (hbuiltin : (p.scheduler s).processors = .builtin)
    {e : Effect} {ref : ProcessorRef} (hg : a.Gives p (.yield (.effect e) c))
    (href : (p.scheduler s).processors.get? e.kind = some ref)
    (ihe : (Matter.effect ref e).Upheld p s T co fu w w' r)
    (ihr : (Matter.run (p.advance (p.resume c r)) 0).Upheld p s T co fu w w' r') :
    (Matter.run a passes).Upheld p s T co fu w w' r' := by
  intro m' r₂ hm h'
  obtain ⟨x', hsame, hr'⟩ := hm.exists_progress hg h'
  cases hsame with
  | yielded he hc =>
    simp only [Progress.Comes, ← he.kind_eq, href] at hr'
    obtain ⟨r₁, he', hr'⟩ := hr'
    rw [hbuiltin] at href
    obtain ⟨b, rfl, _⟩ := ProcessorTable.eq_of_get?_builtin href
    exact ihr _ _ (hu.same_resume hc (ihe _ _ (.effect he) he')) hr'

theorem upheld_of_unknown {e : Effect} (hg : a.Gives p (.yield (.effect e) c))
    (href : (p.scheduler s).processors.get? e.kind = none) :
    (Matter.run a passes).Upheld p s T co fu w w' (.error (.unknownKind e.kind.tag)) := by
  intro m' r₂ hm h'
  obtain ⟨x', hsame, hr'⟩ := hm.exists_progress hg h'
  cases hsame with
  | yielded he _ =>
    simp only [Progress.Comes, ← he.kind_eq, href] at hr'
    exact hr'.symm

end

end

variable (hu : Uniform p T known co fu) (hsink : SinkAnswers p (p.scheduler s).sink)
  (hbuiltin : (p.scheduler s).processors = .builtin)
include hu hsink hbuiltin

/-- **What may come of corresponding matters in two runs agrees**, by induction on how it comes in one of
them. -/
theorem upheld_of_comes (hknown : ∀ t, known t → Paired p T w w' t t) {m : Matter Co Fu} {r : Resume}
    (h : Comes p s w m r) : m.Upheld p s T co fu w w' r := by
  induction h with
  | done hg =>
    intro m' r₂ hm h'
    obtain ⟨x', hsame, hr'⟩ := hm.exists_await hg h'
    cases hsame
    exact hr'.symm
  | waited hg hx _ ihx ihk => exact upheld_of_waited hu hg hx ihx ihk
  | delegated hg _ _ ihe ihk => exact upheld_of_delegated hu hg ihe ihk
  | both hg _ _ _ ihl ihr ihk => exact upheld_of_both hu hg ihl ihr ihk
  -- corresponding code waits for tasks, or for nothing that counts
  | slept deadline => exact fun _ _ hm _ => nomatch hm
  | turned => exact fun _ _ hm _ => nomatch hm
  | opened gate v => exact fun _ _ hm _ => nomatch hm
  | nested key r => exact fun _ _ hm _ => nomatch hm
  | joined hown hforked _ ih => exact upheld_of_joined hu hknown hown hforked ih
  | other ho => exact upheld_of_other ho
  | put hv => exact upheld_of_put hsink hv
  | call hg hr ih => exact upheld_of_call hu hknown hg hr ih
  | fork hg hown hforked => exact upheld_of_fork hg hown hforked
  | join hx ih => exact upheld_of_join hx ih
  | mismatch hkind => exact upheld_of_mismatch hkind
  | own _ _ => exact fun _ _ hm _ => nomatch hm
  | pending _ ih => exact upheld_of_pending hu ih
  | coroutine _ ih => exact upheld_of_coroutine hu ih
  | more hg _ ih => exact upheld_of_more hu hg ih
  | polled o hg _ ih => exact upheld_of_polled hu o hg ih
  | passed hg hlimit _ ih => exact upheld_of_passed hu hg hlimit ih
  | exceeded hg hsome hlt => exact upheld_of_exceeded hg hsome hlt
  | yielded hg href _ _ ihe ihr => exact upheld_of_yielded hu hbuiltin hg href ihe ihr
  | unknown hg href => exact upheld_of_unknown hg href
  | returned hg =>
    intro m' r₂ hm h'
    obtain ⟨x', hsame, hr'⟩ := hm.exists_progress hg h'
    cases hsame
    exact hr'.symm

/-- **One thing may come of a uniform target**, whatever the handles stand for. -/
theorem eq_of_invoked (hknown : ∀ t, known t → ∃ o, w.others t = some o ∧ w'.others t = some o)
    {target : Target} {args : List Json} (hT : T target args) {work work' : Invoked Co Fu}
    (hg : (p.invoke target args).Gives p work) (hg' : (p.invoke target args).Gives p work')
    {r r' : Resume} (h : Comes p s w (.invoked work) r) (h' : Comes p s w' (.invoked work') r') :
    r = r' :=
  have hpaired : ∀ t, known t → Paired p T w w' t t := fun t ht => .inr (hknown t ht)
  upheld_of_comes p s hu hsink hbuiltin hpaired h _ _ (hu.same_invoke hpaired hT hg hg') h'

end

end EffectLoop
