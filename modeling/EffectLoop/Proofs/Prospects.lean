import EffectLoop.Proofs.Handles

/-!
# What a target may come to

`Comes` is a reference for the loop: it says what may come of a target, a coroutine, a computation or an
effect, each taken by itself. No driver, queue or register occurs in it. An effect is answered with what
may come of it: a call with what may come of the target, a put with what the sink may return, a fork with
any handle that stands for what the target has given, and a join with what may come of the work that the
handle stands for. What handles stand for is up to a `Reading`, so nothing is said about their numbers.

A driver in the middle of its work has prospects (`Seat.May`): what may still come of it. `may_stride` is
the law: no step gives a driver prospects that it has not had before.
-/

namespace EffectLoop

variable {Co Fu α : Type}

/-- What the handles stand for that a target may come across. -/
structure Reading (Co Fu : Type) where
  /-- What a task works on that was entered on behalf of the target. -/
  forked : TaskHandle → Option (Invoked Co Fu)
  /-- The outcome of a task of somebody else. -/
  others : TaskHandle → Option Outcome

/-- Something that may come to an answer. -/
inductive Matter (Co Fu : Type)
  | code (a : Act Co Fu (Await Fu))
  | wait (w : Wait)
  | effect (ref : ProcessorRef) (e : Effect)
  | invoked (work : Invoked Co Fu)
  /-- A coroutine within a resume, after so many passes in a row. -/
  | run (a : Act Co Fu (Progress Co)) (passes : Nat)

/-- A handle as an answer of a call: what travels of it. -/
def Resume.wired (r : Resume) : Resume := r.map fun o => .value o.wire

/-- What may come of something under the scheduler `s`. An outcome comes as a value or an error. -/
inductive Comes (p : Program Co Fu) (s : SchedulerId) (w : Reading Co Fu) : Matter Co Fu → Resume → Prop
  -- A computation runs up to its end or its next stop,
  | done {a : Act Co Fu (Await Fu)} {r : Resume} (h : a.Gives p (.done r)) : Comes p s w (.code a) r
  | waited {a : Act Co Fu (Await Fu)} {x : Wait} {k : Resume → Fu} {r r' : Resume}
      (h : a.Gives p (.wait x k)) (hx : Comes p s w (.wait x) r)
      (hk : Comes p s w (.code (p.work (k r))) r') : Comes p s w (.code a) r'
  | delegated {a : Act Co Fu (Await Fu)} {b : Builtin} {e : Effect} {k : Resume → Fu} {r r' : Resume}
      (h : a.Gives p (.delegate b e k)) (he : Comes p s w (.effect (.builtin b) e) r)
      (hk : Comes p s w (.code (p.work (k r))) r') : Comes p s w (.code a) r'
  | both {a : Act Co Fu (Await Fu)} {left right : Fu} {k : Resume → Resume → Fu} {r r' r'' : Resume}
      (h : a.Gives p (.both left right k)) (hl : Comes p s w (.code (p.work left)) r)
      (hr : Comes p s w (.code (p.work right)) r')
      (hk : Comes p s w (.code (p.work (k r r'))) r'') : Comes p s w (.code a) r''
  -- where it waits for something that may end as follows,
  | slept (deadline : Nat) : Comes p s w (.wait (.sleep deadline)) (.ok (.value .null))
  | turned : Comes p s w (.wait .turn) (.ok (.value .null))
  | opened (gate : String) (v : Json) : Comes p s w (.wait (.gate gate)) (.ok (.value v))
  | nested (key : DriverKey) (r : Resume) : Comes p s w (.wait (.nested key)) r
  | joined {t : TaskHandle} {work : Invoked Co Fu} {r : Resume} (hown : w.others t = none)
      (h : w.forked t = some work) (hr : Comes p s w (.invoked work) r) :
      Comes p s w (.wait (.task t)) r
  | other {t : TaskHandle} {o : Outcome} (h : w.others t = some o) :
      Comes p s w (.wait (.task t)) (o.map .value)
  -- an effect is answered by its processor,
  | put {event v : Json} (h : (p.dispatch (p.scheduler s).sink event).Gives p v) :
      Comes p s w (.effect (.builtin .put) (.put event)) (.ok (.value v))
  | call {target : Target} {args : List Json} {work : Invoked Co Fu} {r : Resume}
      (h : (p.invoke target args).Gives p work) (hr : Comes p s w (.invoked work) r) :
      Comes p s w (.effect (.builtin .call) (.call target args)) r
  | fork {target : Target} {args : List Json} {work : Invoked Co Fu} {id : TaskId}
      (h : (p.invoke target args).Gives p work) (hown : w.others ⟨s, id, target.name⟩ = none)
      (ht : w.forked ⟨s, id, target.name⟩ = some work) :
      Comes p s w (.effect (.builtin .fork) (.fork target args)) (.ok (.task ⟨s, id, target.name⟩))
  | join {t : TaskHandle} {r : Resume} (h : Comes p s w (.wait (.task t)) r) :
      Comes p s w (.effect (.builtin .join) (.join t)) r
  | mismatch {b : Builtin} {e : Effect} (h : e.kind ≠ b.kind) :
      Comes p s w (.effect (.builtin b) e) (.error (EventLoop.mismatch b e))
  | own {number : Nat} {e : Effect} {r : Resume}
      (h : Comes p s w (.code (p.work (p.process number s e))) r) :
      Comes p s w (.effect (.own number) e) r
  -- what a target gives is worked on,
  | pending {fu : Fu} {r : Resume} (h : Comes p s w (.code (p.work fu)) r) :
      Comes p s w (.invoked (.pending fu)) r.wired
  | coroutine {co : Co} {r : Resume}
      (h : Comes p s w (.run (p.advance (p.resume co (.ok (.value .null)))) 0) r) :
      Comes p s w (.invoked (.coroutine co)) r
  -- and a coroutine goes from resume to resume.
  | more {a : Act Co Fu (Progress Co)} {co : Co} {passes : Nat} {r : Resume} (h : a.Gives p (.more co))
      (hr : Comes p s w (.run (p.advance co) passes) r) : Comes p s w (.run a passes) r
  | polled {a : Act Co Fu (Progress Co)} {key : DriverKey} {k : Option Outcome → Co} {passes : Nat}
      {r : Resume} (o : Option Outcome) (h : a.Gives p (.poll key k))
      (hr : Comes p s w (.run (p.advance (k o)) passes) r) : Comes p s w (.run a passes) r
  | passed {a : Act Co Fu (Progress Co)} {o : Output} {co : Co} {passes : Nat} {r : Resume}
      (h : a.Gives p (.yield (.pass o) co))
      (hlimit : ∀ limit, (p.scheduler s).config.passThroughLimit = some limit → passes + 1 ≤ limit)
      (hr : Comes p s w (.run (p.advance (p.resume co (.ok o))) (passes + 1)) r) :
      Comes p s w (.run a passes) r
  | exceeded {a : Act Co Fu (Progress Co)} {o : Output} {co : Co} {passes limit : Nat}
      (h : a.Gives p (.yield (.pass o) co))
      (hlimit : (p.scheduler s).config.passThroughLimit = some limit) (hlt : limit < passes + 1) :
      Comes p s w (.run a passes) (.error (EventLoop.exceeded limit))
  | yielded {a : Act Co Fu (Progress Co)} {e : Effect} {co : Co} {passes : Nat} {ref : ProcessorRef}
      {r r' : Resume} (h : a.Gives p (.yield (.effect e) co))
      (href : (p.scheduler s).processors.get? e.kind = some ref) (he : Comes p s w (.effect ref e) r)
      (hr : Comes p s w (.run (p.advance (p.resume co r)) 0) r') : Comes p s w (.run a passes) r'
  | unknown {a : Act Co Fu (Progress Co)} {e : Effect} {co : Co} {passes : Nat}
      (h : a.Gives p (.yield (.effect e) co))
      (href : (p.scheduler s).processors.get? e.kind = none) :
      Comes p s w (.run a passes) (.error (.unknownKind e.kind.tag))
  | returned {a : Act Co Fu (Progress Co)} {o : Outcome} {co : Co} {passes : Nat}
      (h : a.Gives p (.done o co)) : Comes p s w (.run a passes) (o.map .value)

/-- What travels of an outcome is the outcome. -/
@[simp] theorem Resume.wired_map_value (o : Outcome) :
    Resume.wired (o.map .value) = o.map .value := by
  cases o <;> rfl

/-- What comes of a coroutine is an outcome. -/
theorem exists_outcome_of_comes {p : Program Co Fu} {s : SchedulerId} {w : Reading Co Fu}
    {a : Act Co Fu (Progress Co)} {passes : Nat} {r : Resume} (h : Comes p s w (.run a passes) r) :
    ∃ o : Outcome, r = o.map .value := by
  generalize hm : Matter.run a passes = m at h
  induction h generalizing a passes with
  | more _ _ ih => exact ih rfl
  | polled _ _ _ ih => exact ih rfl
  | passed _ _ _ ih => exact ih rfl
  | exceeded _ _ _ => exact ⟨.error _, rfl⟩
  | yielded _ _ _ _ _ ih => exact ih rfl
  | unknown _ _ => exact ⟨.error _, rfl⟩
  | returned _ => exact ⟨_, rfl⟩
  | _ => cases hm

theorem wired_of_comes {p : Program Co Fu} {s : SchedulerId} {w : Reading Co Fu} {co : Co} {r : Resume}
    (h : Comes p s w (.invoked (.coroutine co)) r) : r.wired = r := by
  cases h with
  | coroutine h =>
    obtain ⟨o, rfl⟩ := exists_outcome_of_comes h
    exact Resume.wired_map_value o

/-! ## What may come of a computation in the middle of its work -/

section

variable (p : Program Co Fu) (s : SchedulerId) (w : Reading Co Fu) (called : DriverKey → Co → Prop)

/-- What a wait may end with: for a driver that was entered for a call, with what may come of the
coroutine it drives. -/
def Wait.Brings : Wait → Resume → Prop
  | .nested key, r => ∀ co, called key co → Comes p s w (.invoked (.coroutine co)) r
  | x, r => Comes p s w (.wait x) r

/-- What an answer may become on its way through frames. -/
def Leads : List (Frame Fu) → Resume → Resume → Prop
  | [], r, r' => r' = r
  | .code k :: frames, r, r' => ∃ r₁, Comes p s w (.code (p.work (k r))) r₁ ∧ Leads frames r₁ r'
  | .call :: frames, r, r' => Leads frames r.wired r'
  | .deliver event :: frames, _, r' =>
    ∃ v, (p.dispatch (p.scheduler s).sink event).Gives p v ∧ Leads frames (.ok (.value v)) r'

def Branch.Brings : Branch Fu → Resume → Prop
  | .unbegun fu, r => Comes p s w (.code (p.work fu)) r
  | .waiting x frames, r => ∃ r₁, x.Brings p s w called r₁ ∧ Leads p s w frames r₁ r
  | .both left right k frames, r => ∃ r₁ r₂ r₃, left.Brings r₁ ∧ right.Brings r₂ ∧
      Comes p s w (.code (p.work (k r₁ r₂))) r₃ ∧ Leads p s w frames r₃ r
  | .finished r₁, r => r = r₁

/-- What an answer may become on its way out of forks. -/
def LeadsOut : List (Fork Fu) → Resume → Resume → Prop
  | [], r, r' => r' = r
  | .left right k frames :: forks, r, r' => ∃ r₁ r₂ r₃, right.Brings p s w called r₁ ∧
      Comes p s w (.code (p.work (k r r₁))) r₂ ∧ Leads p s w frames r₂ r₃ ∧ LeadsOut forks r₃ r'
  | .right left k frames :: forks, r, r' => ∃ r₁ r₂ r₃, left.Brings p s w called r₁ ∧
      Comes p s w (.code (p.work (k r₁ r))) r₂ ∧ Leads p s w frames r₂ r₃ ∧ LeadsOut forks r₃ r'

/-- What an answer at a place may become. -/
def Spot.Leads (spot : Spot Fu) (r r' : Resume) : Prop :=
  ∃ r₁, EffectLoop.Leads p s w spot.frames r r₁ ∧ LeadsOut p s w called spot.forks r₁ r'

/-- What an invoked target is answered with: a fork with a handle that stands for what the target has
given, a call with what may come of that. -/
def Invoked.Answers (b : Builtin) (target : Target) (work : Invoked Co Fu) (r : Resume) : Prop :=
  match b with
  | .fork => ∃ id, r = .ok (.task ⟨s, id, target.name⟩) ∧ w.others ⟨s, id, target.name⟩ = none ∧
      w.forked ⟨s, id, target.name⟩ = some work
  | _ => Comes p s w (.invoked work) r

/-- What the computation of a driver may be answered with. -/
def Doing.Brings : Doing Co Fu → Resume → Prop
  | .visit branch forks, r | .pause branch forks, r =>
    ∃ r₁, branch.Brings p s w called r₁ ∧ LeadsOut p s w called forks r₁ r
  | .work a spot, r => ∃ r₁, Comes p s w (.code a) r₁ ∧ spot.Leads p s w called r₁ r
  | .process ref e spot, r => ∃ r₁, Comes p s w (.effect ref e) r₁ ∧ spot.Leads p s w called r₁ r
  | .invoke b target a spot, r => ∃ work r₁, a.Gives p work ∧ work.Answers p s w b target r₁ ∧
      spot.Leads p s w called r₁ r
  | .dispatch a spot, r => ∃ v, a.Gives p v ∧ spot.Leads p s w called (.ok (.value v)) r
  | .await x spot, r => ∃ r₁, x.Brings p s w called r₁ ∧ spot.Leads p s w called r₁ r
  | .answer r₁ spot, r => spot.Leads p s w called r₁ r
  | _, _ => False

/-- What the computation of a driver at this seat may be answered with. -/
def Seat.Brings : Seat Co Fu → Resume → Prop
  | .working doing, r => doing.Brings p s w called r
  | .polling key spot, r => ∃ r₁, (Wait.nested key).Brings p s w called r₁ ∧ spot.Leads p s w called r₁ r
  | .resting (.pending branch), r => branch.Brings p s w called r
  | _, _ => False

/-- What may come of a driver whose computation is answered. -/
def Job.Ends (job : Job Co) (r : Resume) (o : Outcome) : Prop :=
  match job with
  | .coroutine co passes _ => Comes p s w (.run (p.advance (p.resume co r)) passes) (o.map .value)
  | .plain => o = r.map Output.wire

/-- What may come of a driver whose coroutine runs. -/
def Job.Runs (job : Job Co) (a : Act Co Fu (Progress Co)) (o : Outcome) : Prop :=
  match job with
  | .coroutine _ passes _ => Comes p s w (.run a passes) (o.map .value)
  | .plain => True

/-- What may come of a driver that is about to be resumed. -/
def Job.Resumes (job : Job Co) (r : Resume) (o : Outcome) : Prop :=
  match job with
  | .coroutine co passes _ => Comes p s w (.run (p.advance (p.resume co r)) passes) (o.map .value)
  | .plain => True

/-- What may still come of a driver with this job at this seat. -/
def Seat.May (job : Job Co) (o : Outcome) : Seat Co Fu → Prop
  | .working (.resume r) => job.Resumes p s w r o
  | .working (.advance a) => job.Runs p s w a o
  | .working (.finish o') => o = o'
  | .body _ k => ∃ out, job.Runs p s w (p.advance (k out)) o
  | .resting .fresh => job.Resumes p s w (.ok (.value .null)) o
  | seat => ∃ r, seat.Brings p s w called r ∧ job.Ends p s w r o

end

/-- The wait that a driver looks at. -/
def Doing.wait? : Doing Co Fu → Option Wait
  | .await x _ => some x
  | .visit (.waiting x _) _ => some x
  | _ => none

namespace EventLoop

section

variable (p : Program Co Fu) (s : SchedulerId) (w : Reading Co Fu) (called : DriverKey → Co → Prop)
  {l : EventLoop Co Fu} {d : Driver Co Fu} {doing : Doing Co Fu} {job : Job Co} {seat : Seat Co Fu}
  {r : Resume} {o : Outcome} {frames : List (Frame Fu)} {forks : List (Fork Fu)}

/-- The loop is as the handles are read, as far as a driver that is about to act gets to see. -/
structure Meets (l : EventLoop Co Fu) (d : Driver Co Fu) (doing : Doing Co Fu) : Prop where
  scheduler : d.task.scheduler = s
  /-- A task that it waits for has the outcome of the work that the handle stands for. -/
  joins : ∀ t o, doing.wait? = some (.task t) → l.outcome? t = some o →
    Comes p s w (.wait (.task t)) (o.map .value)
  /-- The handle that it is about to get stands for what the target has given. -/
  forks : ∀ target work spot, doing = .invoke .fork target (.ret work) spot →
    w.others ⟨s, (l.activeTasks s).nextId, target.name⟩ = none ∧
      w.forked ⟨s, (l.activeTasks s).nextId, target.name⟩ = some work
  /-- The driver that it is about to enter for a call is noted for the coroutine. -/
  calls : ∀ b target co spot, b ≠ .fork → doing = .invoke b target (.ret (.coroutine co)) spot →
    called ⟨l.lastKey + 1⟩ co

theorem leads_nil {r' : Resume} :
    (⟨[], forks⟩ : Spot Fu).Leads p s w called r r' ↔ LeadsOut p s w called forks r r' := by
  constructor
  · rintro ⟨_, rfl, h⟩
    exact h
  · intro h
    exact ⟨r, rfl, h⟩

theorem leads_code {k : Resume → Fu} {r' : Resume} :
    (⟨.code k :: frames, forks⟩ : Spot Fu).Leads p s w called r r' ↔
      ∃ r₁, Comes p s w (.code (p.work (k r))) r₁ ∧
        (⟨frames, forks⟩ : Spot Fu).Leads p s w called r₁ r' := by
  constructor
  · rintro ⟨r₂, ⟨r₁, h₁, h₂⟩, h₃⟩
    exact ⟨r₁, h₁, r₂, h₂, h₃⟩
  · rintro ⟨r₁, h₁, r₂, h₂, h₃⟩
    exact ⟨r₂, ⟨r₁, h₁, h₂⟩, h₃⟩

theorem leads_deliver {event : Json} {r' : Resume} :
    (⟨.deliver event :: frames, forks⟩ : Spot Fu).Leads p s w called r r' ↔
      ∃ v, (p.dispatch (p.scheduler s).sink event).Gives p v ∧
        (⟨frames, forks⟩ : Spot Fu).Leads p s w called (.ok (.value v)) r' := by
  constructor
  · rintro ⟨r₁, ⟨v, hv, h₁⟩, h₂⟩
    exact ⟨v, hv, r₁, h₁, h₂⟩
  · rintro ⟨v, hv, r₁, h₁, h₂⟩
    exact ⟨r₁, ⟨v, hv, h₁⟩, h₂⟩

/-- What a wait may end with for whoever was not entered for a call, it may end with at all. -/
theorem comes_of_brings {x : Wait} (h : x.Brings p s w called r) : Comes p s w (.wait x) r := by
  cases x with
  | nested key => exact .nested key r
  | _ => exact h

/-- What a wait is over with is what it may end with. -/
theorem brings_of_peek {x : Wait} (hm : Meets p s w called l d doing) (hx : doing.wait? = some x)
    (hr : l.peek x = some r) : x.Brings p s w called r := by
  cases x with
  | sleep deadline =>
    unfold peek at hr
    dsimp only at hr
    split at hr
    · cases hr
      exact .slept deadline
    · cases hr
  | gate name =>
    obtain ⟨v, _, rfl⟩ := Option.map_eq_some_iff.mp hr
    exact .opened name v
  | task t =>
    obtain ⟨o, ho, rfl⟩ := Option.map_eq_some_iff.mp hr
    exact hm.joins t o hx ho
  | _ => cases hr

/-- A built-in processor answers with nothing but what its effect may be answered with. -/
theorem brings_builtinDoing {b : Builtin} {e : Effect} {spot : Spot Fu}
    (h : (builtinDoing p b e spot).Brings p s w called r) :
    (Doing.process (.builtin b) e spot : Doing Co Fu).Brings p s w called r := by
  have hmismatch : e.kind ≠ b.kind →
      (Doing.answer (.error (mismatch b e)) spot : Doing Co Fu).Brings p s w called r →
      (Doing.process (.builtin b) e spot : Doing Co Fu).Brings p s w called r := fun hne h =>
    ⟨_, .mismatch hne, h⟩
  cases b with
  | put =>
    cases e with
    | put event =>
      obtain ⟨r₁, _, h⟩ := h
      obtain ⟨v, hv, h⟩ := (leads_deliver p s w called).mp h
      exact ⟨_, .put hv, h⟩
    | _ => exact hmismatch nofun h
  | call =>
    cases e with
    | call target args =>
      obtain ⟨work, r₁, hwork, hanswers, h⟩ := h
      exact ⟨r₁, .call hwork hanswers, h⟩
    | _ => exact hmismatch nofun h
  | fork =>
    cases e with
    | fork target args =>
      obtain ⟨work, r₁, hwork, ⟨id, rfl, hown, ht⟩, h⟩ := h
      exact ⟨_, .fork hwork hown ht, h⟩
    | _ => exact hmismatch nofun h
  | join =>
    cases e with
    | join t =>
      obtain ⟨r₁, hr, h⟩ := h
      exact ⟨r₁, .join hr, h⟩
    | _ => exact hmismatch nofun h

section

variable {spot : Spot Fu}

/-- A branch that is taken up is answered with what it may end with. -/
theorem brings_visit {branch : Branch Fu} (h : Stride p l d (.visit branch forks) job seat)
    (hm : Meets p s w called l d (.visit branch forks)) (hr : seat.Brings p s w called r) :
    (Doing.visit branch forks : Doing Co Fu).Brings p s w called r := by
  cases h with
  | begun fu forks =>
    obtain ⟨r₁, h₁, h⟩ := hr
    exact ⟨r₁, h₁, (leads_nil p s w called).mp h⟩
  | visitsNested key frames forks =>
    obtain ⟨r₁, h₁, r₂, h₂, h⟩ := hr
    exact ⟨r₂, ⟨r₁, h₁, h₂⟩, h⟩
  | visitsTurn frames forks =>
    obtain ⟨r₂, h₂, h⟩ := hr
    exact ⟨r₂, ⟨_, .turned, h₂⟩, h⟩
  | visitsReady frames forks hpeek =>
    obtain ⟨r₂, h₂, h⟩ := hr
    exact ⟨r₂, ⟨_, brings_of_peek p s w called hm rfl hpeek, h₂⟩, h⟩
  | visitsWaiting _ _ _ _ => exact hr
  | visitsBoth left right k frames forks =>
    obtain ⟨r₁, h₁, r₂, r₃, r₄, h₂, h₃, h₄, h⟩ := hr
    exact ⟨r₄, ⟨r₁, r₂, r₃, h₁, h₂, h₃, h₄⟩, h⟩
  | visitsFinished r₁ forks => exact ⟨r₁, rfl, (leads_nil p s w called).mp hr⟩

theorem brings_pause {branch : Branch Fu} (h : Stride p l d (.pause branch forks) job seat)
    (hr : seat.Brings p s w called r) :
    (Doing.pause branch forks : Doing Co Fu).Brings p s w called r := by
  cases h with
  | pausesLeft branch right k frames forks =>
    obtain ⟨r₁, h₁, r₂, r₃, r₄, h₂, h₃, h₄, h⟩ := hr
    exact ⟨r₂, h₂, r₁, r₃, r₄, h₁, h₃, h₄, h⟩
  | pausesRight branch left k frames forks =>
    obtain ⟨r₄, ⟨r₁, r₂, r₃, h₁, h₂, h₃, h₄⟩, h⟩ := hr
    exact ⟨r₂, h₂, r₁, r₃, r₄, h₁, h₃, h₄, h⟩
  | rests branch => exact ⟨r, hr, rfl⟩

/-- User code of a computation comes to nothing that its act may not come to. -/
theorem brings_work {a : Act Co Fu (Await Fu)} (h : Stride p l d (.work a spot) job seat)
    (hr : seat.Brings p s w called r) : (Doing.work a spot : Doing Co Fu).Brings p s w called r := by
  cases h with
  | works ha spot =>
    obtain ⟨r₁, h₁, h⟩ := hr
    refine ⟨r₁, ?_, h⟩
    cases h₁ with
    | done hg => exact .done (gives_of_perform l _ hg)
    | waited hg hx hk => exact .waited (gives_of_perform l _ hg) hx hk
    | delegated hg he hk => exact .delegated (gives_of_perform l _ hg) he hk
    | both hg hl hr hk => exact .both (gives_of_perform l _ hg) hl hr hk
  | workPanics _ => exact hr.elim
  | workDone r₁ spot => exact ⟨r₁, .done (.ret _), hr⟩
  | workWaits x k spot =>
    obtain ⟨r₁, h₁, h⟩ := hr
    obtain ⟨r₂, h₂, h⟩ := (leads_code p s w called).mp h
    exact ⟨r₂, .waited (.ret _) (comes_of_brings p s w called h₁) h₂, h⟩
  | workDelegates b e k spot =>
    obtain ⟨r₁, h₁, h⟩ := hr
    obtain ⟨r₂, h₂, h⟩ := (leads_code p s w called).mp h
    exact ⟨r₂, .delegated (.ret _) h₁ h₂, h⟩
  | workForks left right k spot =>
    obtain ⟨r₁, h₁, h⟩ := hr
    obtain ⟨r₂, r₃, r₄, h₂, h₃, h₄, h⟩ := (leads_nil p s w called).mp h
    exact ⟨r₃, .both (.ret _) h₁ h₂ h₃, r₄, h₄, h⟩

/-- An invoked target is answered with its handle, or with what may come of what it gives. -/
theorem brings_invoke {b : Builtin} {target : Target} {a : Act Co Fu (Invoked Co Fu)}
    (h : Stride p l d (.invoke b target a spot) job seat)
    (hm : Meets p s w called l d (.invoke b target a spot)) (hr : seat.Brings p s w called r) :
    (Doing.invoke b target a spot : Doing Co Fu).Brings p s w called r := by
  cases h with
  | invokes b target ha spot =>
    obtain ⟨work, r₁, hwork, h₁, h⟩ := hr
    exact ⟨work, r₁, gives_of_perform l _ hwork, h₁, h⟩
  | invokePanics _ _ _ => exact hr.elim
  | forked target work spot =>
    obtain ⟨hown, ht⟩ := hm.forks target work spot rfl
    rw [hm.scheduler] at hr
    exact ⟨work, _, .ret work, ⟨_, rfl, hown, ht⟩, hr⟩
  | calledPending hb target fu spot =>
    obtain ⟨r₁, h₁, h⟩ := hr
    refine ⟨_, r₁.wired, .ret _, ?_, h⟩
    cases b with
    | fork => exact absurd rfl hb
    | _ => exact .pending h₁
  | calledCoroutine hb target co spot =>
    obtain ⟨r₁, h₁, h⟩ := hr
    have hcomes := h₁ co (hm.calls b target co spot hb rfl)
    refine ⟨.coroutine co, r₁, .ret _, ?_, ?_⟩
    · cases b with
      | fork => exact absurd rfl hb
      | _ => exact hcomes
    · rw [← wired_of_comes hcomes]
      exact h

/-- An answer goes through the frames and out of the forks that it finds. -/
theorem brings_answer {r₁ : Resume} (h : Stride p l d (.answer r₁ spot) job seat)
    (hm : Meets p s w called l d (.answer r₁ spot)) (hr : seat.Brings p s w called r) :
    (Doing.answer r₁ spot : Doing Co Fu).Brings p s w called r := by
  cases h with
  | answersCode r₁ k frames forks =>
    obtain ⟨r₂, h₂, h⟩ := hr
    exact (leads_code p s w called).mpr ⟨r₂, h₂, h⟩
  | answersCall r₁ frames forks => exact hr
  | delivers r₁ event frames forks =>
    obtain ⟨v, hv, h⟩ := hr
    rw [hm.scheduler] at hv
    exact (leads_deliver p s w called).mpr ⟨v, hv, h⟩
  | answersLeft r₁ right k frames forks =>
    obtain ⟨r₂, h₂, _, r₃, r₄, rfl, h₃, h₄, h⟩ := hr
    exact (leads_nil p s w called).mpr ⟨r₂, r₃, r₄, h₂, h₃, h₄, h⟩
  | answersBoth r₁ r' k frames forks =>
    obtain ⟨r₃, h₃, r₄, h₄, h⟩ := hr
    exact (leads_nil p s w called).mpr ⟨r', r₃, r₄, rfl, h₃, h₄, h⟩
  | answersRight r₁ _ k frames forks =>
    obtain ⟨r₄, ⟨r₂, _, r₃, h₂, rfl, h₃, h₄⟩, h⟩ := hr
    exact (leads_nil p s w called).mpr ⟨r₂, r₃, r₄, h₂, h₃, h₄, h⟩
  | resolves _ r₁ => exact hr.elim
  | ends _ r₁ => exact hr.elim

end

/-- **No step of a computation adds to what it may be answered with.** -/
theorem brings_stride (h : Stride p l d doing job seat) (hm : Meets p s w called l d doing)
    (hresume : ∀ input, doing ≠ .resume input) (hadvance : ∀ a, doing ≠ .advance a)
    (hr : seat.Brings p s w called r) : doing.Brings p s w called r := by
  cases doing with
  | resume input => exact absurd rfl (hresume input)
  | advance a => exact absurd rfl (hadvance a)
  | visit branch forks => exact brings_visit p s w called h hm hr
  | pause branch forks => exact brings_pause p s w called h hr
  | work a spot => exact brings_work p s w called h hr
  | process ref e spot =>
    cases h with
    | processesOwn number e spot =>
      obtain ⟨r₁, h₁, h⟩ := hr
      rw [hm.scheduler] at h₁
      exact ⟨r₁, .own h₁, h⟩
    | processes b e spot => exact brings_builtinDoing p s w called hr
  | invoke b target a spot => exact brings_invoke p s w called h hm hr
  | dispatch a spot =>
    cases h with
    | dispatches ha spot =>
      obtain ⟨v, hv, h⟩ := hr
      exact ⟨v, gives_of_perform l _ hv, h⟩
    | dispatchPanics _ => exact hr.elim
    | dispatched v spot => exact ⟨v, .ret v, hr⟩
  | await x spot =>
    cases h with
    | awaitsNested key spot => exact hr
    | awaitsReady spot hpeek => exact ⟨_, brings_of_peek p s w called hm rfl hpeek, hr⟩
    | awaits spot _ =>
      obtain ⟨r₂, ⟨r₁, h₁, h₂⟩, h⟩ := hr
      exact ⟨r₁, h₁, r₂, h₂, h⟩
  | answer r₁ spot => exact brings_answer p s w called h hm hr
  | _ => cases h

theorem comes_of_perform {current : Option DriverKey} {a : Act Co Fu (Progress Co)} {passes : Nat}
    (h : Comes p s w (.run (l.perform p current a).2 passes) r) : Comes p s w (.run a passes) r := by
  cases h with
  | more hg hr => exact .more (gives_of_perform l _ hg) hr
  | polled o hg hr => exact .polled o (gives_of_perform l _ hg) hr
  | passed hg hlimit hr => exact .passed (gives_of_perform l _ hg) hlimit hr
  | exceeded hg hlimit hlt => exact .exceeded (gives_of_perform l _ hg) hlimit hlt
  | yielded hg href he hr => exact .yielded (gives_of_perform l _ hg) href he hr
  | unknown hg href => exact .unknown (gives_of_perform l _ hg) href
  | returned hg => exact .returned (gives_of_perform l _ hg)

/-- What may come of a driver of a plain computation that rests may come of it while its coroutine runs,
which it never does. -/
theorem runs_of_plain {a : Act Co Fu (Progress Co)} (h : job = .plain) : job.Runs p s w a o := by
  rw [h]
  trivial

theorem resumes_of_plain (h : job = .plain) : job.Resumes p s w r o := by
  rw [h]
  trivial

/-- **No step gives a driver prospects that it has not had before.** -/
theorem may_stride (h : Stride p l d doing job seat) (hm : Meets p s w called l d doing)
    (hseat : seat.May p s w called job o) : (Seat.working doing).May p s w called d.job o := by
  have hcomputes : job = d.job → (∀ input, doing ≠ .resume input) → (∀ a, doing ≠ .advance a) →
      (∃ r, seat.Brings p s w called r ∧ job.Ends p s w r o) →
      (Seat.working doing).May p s w called d.job o := by
    rintro rfl hresume hadvance ⟨r, hr, hends⟩
    have hbrings := brings_stride p s w called h hm hresume hadvance hr
    cases doing with
    | resume input => exact absurd rfl (hresume input)
    | advance a => exact absurd rfl (hadvance a)
    | finish o' => exact hbrings.elim
    | _ => exact ⟨r, hbrings, hends⟩
  cases h with
  | @resumed co passes kind hjob input =>
    rw [hjob]
    exact hseat
  | unresumed hjob input => exact resumes_of_plain p s w hjob
  | more co =>
    cases hjob : d.job with
    | plain => trivial
    | coroutine co₀ passes kind =>
      rw [hjob] at hseat
      exact .more (.ret _) hseat
  | body key k =>
    obtain ⟨out, hseat⟩ := hseat
    cases hjob : d.job with
    | plain => trivial
    | coroutine co₀ passes kind =>
      rw [hjob] at hseat
      exact .polled out (.ret _) hseat
  | advances ha =>
    cases hjob : d.job with
    | plain => trivial
    | coroutine co₀ passes kind =>
      rw [hjob] at hseat
      exact comes_of_perform p s w hseat
  | advancePanics =>
    obtain ⟨r, hr, _⟩ := hseat
    exact hr.elim
  | returns o' co =>
    cases (show o = o' from hseat)
    cases hjob : d.job with
    | plain => trivial
    | coroutine co₀ passes kind => exact .returned (.ret _)
  | passed hjob v co hlimit =>
    rw [hjob]
    rw [hm.scheduler] at hlimit
    exact .passed (.ret _) hlimit hseat
  | exceeds hjob v co hlimit hlt =>
    cases (show o = _ from hseat)
    rw [hjob]
    rw [hm.scheduler] at hlimit
    exact .exceeded (.ret _) hlimit hlt
  | routed hjob e co href =>
    obtain ⟨r, ⟨r₁, he, hleads⟩, hends⟩ := hseat
    cases (leads_nil p s w called).mp hleads
    rw [hjob]
    rw [hm.scheduler] at href
    exact .yielded (.ret _) href he hends
  | unknown hjob e co href =>
    cases (show o = _ from hseat)
    rw [hjob]
    rw [hm.scheduler] at href
    exact .unknown (.ret _) href
  | unyielded hjob y co => exact runs_of_plain p s w hjob
  | resolves hjob r =>
    rw [hjob] at hseat ⊢
    exact ⟨r, ⟨r, rfl, rfl⟩, hseat⟩
  | ends hjob r =>
    rw [hjob] at hseat ⊢
    exact ⟨r, ⟨r, rfl, rfl⟩, hseat⟩
  | processes b e spot =>
    refine hcomputes rfl nofun nofun ?_
    cases b <;> cases e <;> exact hseat
  | _ => exact hcomputes rfl nofun nofun hseat

end

end EventLoop

end EffectLoop
