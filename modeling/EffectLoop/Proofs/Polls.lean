import EffectLoop.Coroutine.Code
import EffectLoop.Loop.Run

/-!
# Polls of a block

A poll takes the code of a block from one stop to the next. `PollStep` lists what one step of it can
be, together with what happens to suspension points in it; the steps are exactly those of
`Block.advance` (`PollStep.ends`, `exists_pollStep`). `Polls` is a whole poll that finishes, and
`Story` any number of resumes one after the other, with any inputs.

What the world replies to the requests of the code is left open (`Act.Ends`), so a poll here covers
every poll that a loop makes: `polls_of_resumeByHand`.
-/

namespace EffectLoop

variable {F Co Fu α β : Type}

/-! ## Acts -/

/-- Some replies of the world lead the act to this value. -/
inductive Act.Ends : Act Co Fu α → α → Prop
  | ret (a : α) : Ends (.ret a) a
  | ask {q : Request} {k : q.Reply → Act Co Fu α} {a : α} (r : q.Reply) (h : Ends (k r) a) :
      Ends (.ask q k) a
  | invoke {target : Target} {args : List Json} {k : Invoked Co Fu → Act Co Fu α} {a : α}
      (i : Invoked Co Fu) (h : Ends (k i) a) : Ends (.invoke target args k) a
  | dispatch {sink : SinkId} {event : Json} {k : Json → Act Co Fu α} {a : α} (v : Json)
      (h : Ends (k v) a) : Ends (.dispatch sink event k) a
  | start {s : SchedulerId} {name : String} {co : Co} {k : TaskHandle → Act Co Fu α} {a : α}
      (t : TaskHandle) (h : Ends (k t) a) : Ends (.start s name co k) a
  | spawn {s : SchedulerId} {name : String} {fu : Fu} {k : TaskHandle → Act Co Fu α} {a : α}
      (t : TaskHandle) (h : Ends (k t) a) : Ends (.spawn s name fu k) a
  | nest {s : SchedulerId} {name : String} {co : Co} {k : DriverKey → Act Co Fu α} {a : α}
      (key : DriverKey) (h : Ends (k key) a) : Ends (.nest s name co k) a

namespace Act

theorem ends_ret {a b : α} : (ret a : Act Co Fu α).Ends b ↔ b = a := by
  constructor
  · intro h
    cases h
    rfl
  · rintro rfl
    exact .ret b

theorem Ends.bind {a : Act Co Fu α} {f : α → Act Co Fu β} {u : α} {v : β} (h : a.Ends u)
    (hf : (f u).Ends v) : (a.bind f).Ends v := by
  induction h with
  | ret a => exact hf
  | ask r _ ih => exact .ask r (ih hf)
  | invoke i _ ih => exact .invoke i (ih hf)
  | dispatch v _ ih => exact .dispatch v (ih hf)
  | start t _ ih => exact .start t (ih hf)
  | spawn t _ ih => exact .spawn t (ih hf)
  | nest key _ ih => exact .nest key (ih hf)

theorem exists_of_ends_bind {a : Act Co Fu α} {f : α → Act Co Fu β} {v : β}
    (h : (a.bind f).Ends v) : ∃ u, a.Ends u ∧ (f u).Ends v := by
  induction a with
  | ret a => exact ⟨a, .ret a, h⟩
  | panic => cases h
  | ask q k ih =>
    cases h with
    | ask r h =>
      obtain ⟨u, hu, hv⟩ := ih r h
      exact ⟨u, .ask r hu, hv⟩
  | invoke target args k ih =>
    cases h with
    | invoke i h =>
      obtain ⟨u, hu, hv⟩ := ih i h
      exact ⟨u, .invoke i hu, hv⟩
  | dispatch sink event k ih =>
    cases h with
    | dispatch w h =>
      obtain ⟨u, hu, hv⟩ := ih w h
      exact ⟨u, .dispatch w hu, hv⟩
  | start s name co k ih =>
    cases h with
    | start t h =>
      obtain ⟨u, hu, hv⟩ := ih t h
      exact ⟨u, .start t hu, hv⟩
  | spawn s name fu k ih =>
    cases h with
    | spawn t h =>
      obtain ⟨u, hu, hv⟩ := ih t h
      exact ⟨u, .spawn t hu, hv⟩
  | nest s name co k ih =>
    cases h with
    | nest key h =>
      obtain ⟨u, hu, hv⟩ := ih key h
      exact ⟨u, .nest key hu, hv⟩

end Act

namespace EventLoop

/-- A loop carries an act out as some replies of the world do. -/
theorem ends_of_perform (p : Program Co Fu) (l : EventLoop Co Fu) (current : Option DriverKey)
    {a : Act Co Fu α} {v : α} (h : (l.perform p current a).2.Ends v) : a.Ends v := by
  cases a with
  | ret a => exact h
  | panic => exact h
  | ask q k => exact .ask _ h
  | invoke target args k =>
    obtain ⟨i, _, hi⟩ := Act.exists_of_ends_bind h
    exact .invoke i hi
  | dispatch sink event k =>
    obtain ⟨w, _, hw⟩ := Act.exists_of_ends_bind h
    exact .dispatch w hw
  | start s name co k => exact .start _ h
  | spawn s name fu k => exact .spawn _ h
  | nest s name co k => exact .nest _ h

theorem ends_of_runAct (p : Program Co Fu) {fuel : Nat} {l : EventLoop Co Fu} {a : Act Co Fu α}
    {v : α} (h : (l.runAct p fuel a).2 = some v) : a.Ends v := by
  induction fuel generalizing l a with
  | zero => cases h
  | succ fuel ih =>
    cases a with
    | ret a =>
      cases h
      exact .ret v
    | panic => cases h
    | _ => exact ends_of_perform p l none (ih h)

end EventLoop

/-! ## Suspension points -/

/-- A branch of two. -/
inductive Side
  | left
  | right
deriving DecidableEq

def Crumb.side : Crumb F → Side
  | .left _ _ => .left
  | .right _ _ => .right

/-- The branches taken to where a poll is, outermost first. -/
def placeOf (path : List (Crumb F)) : List Side := (path.map Crumb.side).reverse

/-- A suspension point: the branch it stands in, and how the code goes on with what it returns. -/
structure Point (F : Type) where
  place : List Side
  next : Resume → F

/-- What happens to suspension points in a poll. -/
inductive PollEvent (F : Type)
  /-- Polled for the first time, it hands its yield out and waits. -/
  | accepted (y : Yielded) (point : Point F)
  /-- Polled for the first time while another yield is pending, it fails at once. -/
  | rejected (y : Yielded) (point : Point F)
  /-- The input is its result. -/
  | delivered (point : Point F) (input : Resume)
  /-- No suspension point, but the whole code has returned. -/
  | returned (r : Resume)

/-- What a suspension point returns, if this is when it does. -/
def PollEvent.result? : PollEvent F → Option (Point F × Resume)
  | .rejected _ point => some (point, .error Block.yieldedTwice)
  | .delivered point input => some (point, input)
  | _ => none

namespace Block

/-- One step of a poll, with what happens in it. -/
inductive PollStep (run : F → Act Co Fu (Stage F)) :
    Block F → List (PollEvent F) → Progress (Block F) → Prop
  | done {ex : Exchange} {st : Bool} {path : List (Crumb F)} {f : F} {r : Resume}
      (h : (run f).Ends (.done r)) :
      PollStep run ⟨ex, st, .polling ⟨path, .code f, true⟩⟩ []
        (.more ⟨ex, st, .polling ⟨path, .finished r, false⟩⟩)
  | accepted {input : Option Resume} {st : Bool} {path : List (Crumb F)} {f : F} {y : Yielded}
      {k : Resume → F} (h : (run f).Ends (.suspend y k)) :
      PollStep run ⟨⟨none, input⟩, st, .polling ⟨path, .code f, true⟩⟩
        [.accepted y ⟨placeOf path, k⟩]
        (.more ⟨⟨some y, none⟩, st, .polling ⟨path, .suspended k, false⟩⟩)
  | rejected {pending : Yielded} {input : Option Resume} {st : Bool} {path : List (Crumb F)}
      {f : F} {y : Yielded} {k : Resume → F} (h : (run f).Ends (.suspend y k)) :
      PollStep run ⟨⟨some pending, input⟩, st, .polling ⟨path, .code f, true⟩⟩
        [.rejected y ⟨placeOf path, k⟩]
        (.more ⟨⟨some pending, input⟩, st,
          .polling ⟨path, .code (k (.error yieldedTwice)), true⟩⟩)
  | awaits {ex : Exchange} {st : Bool} {path : List (Crumb F)} {f : F} {w : Wait}
      {k : Resume → F} (h : (run f).Ends (.foreign w k)) :
      PollStep run ⟨ex, st, .polling ⟨path, .code f, true⟩⟩ []
        (.more (stop ⟨ex, st, .polling ⟨path, .code f, true⟩⟩ path (.foreign w k)))
  | both {ex : Exchange} {st : Bool} {path : List (Crumb F)} {f left right : F}
      {k : Resume → Resume → F} (h : (run f).Ends (.both left right k)) :
      PollStep run ⟨ex, st, .polling ⟨path, .code f, true⟩⟩ []
        (.more ⟨ex, st, .polling ⟨path, .both (.code left) (.code right) k, true⟩⟩)
  | delivered {pending : Option Yielded} {input : Resume} {st : Bool} {path : List (Crumb F)}
      {k : Resume → F} :
      PollStep run ⟨⟨pending, some input⟩, st, .polling ⟨path, .suspended k, true⟩⟩
        [.delivered ⟨placeOf path, k⟩ input]
        (.more ⟨⟨pending, none⟩, st, .polling ⟨path, .code (k input), true⟩⟩)
  | unanswered {pending : Option Yielded} {st : Bool} {path : List (Crumb F)} {k : Resume → F} :
      PollStep run ⟨⟨pending, none⟩, st, .polling ⟨path, .suspended k, true⟩⟩ []
        (.more ⟨⟨pending, none⟩, st, .polling ⟨path, .suspended k, false⟩⟩)
  | foreign {ex : Exchange} {st : Bool} {path : List (Crumb F)} {w : Wait} {k : Resume → F}
      {progress : Progress (Block F)}
      (h : (descend run ⟨ex, st, .polling ⟨path, .foreign w k, true⟩⟩ path (.foreign w k)).Ends
        progress) :
      PollStep run ⟨ex, st, .polling ⟨path, .foreign w k, true⟩⟩ [] progress
  | fork {ex : Exchange} {st : Bool} {path : List (Crumb F)} {left right : Tree F}
      {k : Resume → Resume → F} :
      PollStep run ⟨ex, st, .polling ⟨path, .both left right k, true⟩⟩ []
        (.more ⟨ex, st, .polling ⟨.left right k :: path, left, true⟩⟩)
  | finished {ex : Exchange} {st : Bool} {path : List (Crumb F)} {r : Resume} :
      PollStep run ⟨ex, st, .polling ⟨path, .finished r, true⟩⟩ []
        (.more ⟨ex, st, .polling ⟨path, .finished r, false⟩⟩)
  | turn {ex : Exchange} {st : Bool} {path : List (Crumb F)} {right focus : Tree F}
      {k : Resume → Resume → F} :
      PollStep run ⟨ex, st, .polling ⟨.left right k :: path, focus, false⟩⟩ []
        (.more ⟨ex, st, .polling ⟨.right focus k :: path, right, true⟩⟩)
  | join {ex : Exchange} {st : Bool} {path : List (Crumb F)} {r r' : Resume}
      {k : Resume → Resume → F} :
      PollStep run ⟨ex, st, .polling ⟨.right (.finished r) k :: path, .finished r', false⟩⟩ []
        (.more ⟨ex, st, .polling ⟨path, .code (k r r'), true⟩⟩)
  | rest {ex : Exchange} {st : Bool} {path : List (Crumb F)} {left focus : Tree F}
      {k : Resume → Resume → F}
      (h : ∀ r r', left = .finished r → focus ≠ .finished r') :
      PollStep run ⟨ex, st, .polling ⟨.right left k :: path, focus, false⟩⟩ []
        (.more ⟨ex, st, .polling ⟨path, .both left focus k, false⟩⟩)
  | returned {ex : Exchange} {st : Bool} {r : Resume} :
      PollStep run ⟨ex, st, .polling ⟨[], .finished r, false⟩⟩ [.returned r]
        (.done (r.map Output.wire) ⟨ex, st, .over⟩)
  | yielded {y : Yielded} {input : Option Resume} {st : Bool} {focus : Tree F}
      (h : ∀ r, focus ≠ .finished r) :
      PollStep run ⟨⟨some y, input⟩, st, .polling ⟨[], focus, false⟩⟩ []
        (.yield y ⟨⟨none, input⟩, st, .resting focus⟩)
  | stuck {input : Option Resume} {st : Bool} {focus : Tree F} (h : ∀ r, focus ≠ .finished r) :
      PollStep run ⟨⟨none, input⟩, st, .polling ⟨[], focus, false⟩⟩ []
        (.done (.error foreignAwait) ⟨⟨none, input⟩, st, .over⟩)
  | begin {ex : Exchange} {st : Bool} {tree : Tree F} :
      PollStep run ⟨ex, st, .resting tree⟩ [] (.more ⟨ex, st, .polling ⟨[], tree, true⟩⟩)
  | completed {ex : Exchange} {st : Bool} :
      PollStep run ⟨ex, st, .over⟩ [] (.done (.error completed) ⟨ex, st, .over⟩)

variable {run : F → Act Co Fu (Stage F)} {b b' : Block F} {events : List (PollEvent F)}
  {progress : Progress (Block F)}

theorem ascend_rest (b : Block F) {left focus : Tree F} (path : List (Crumb F))
    (k : Resume → Resume → F) (h : ∀ r r', left = .finished r → focus ≠ .finished r') :
    b.ascend focus (.right left k :: path) = .more (b.pollAt path (.both left focus k) false) := by
  cases left with
  | finished r =>
    cases focus with
    | finished r' => exact absurd rfl (h r r' rfl)
    | _ => rfl
  | _ => rfl

theorem ascend_yielded (b : Block F) {focus : Tree F} {y : Yielded} (h : ∀ r, focus ≠ .finished r)
    (hy : b.exchange.yielded = some y) :
    b.ascend focus [] = .yield y
      { b with exchange := { b.exchange with yielded := none }, state := .resting focus } := by
  cases focus with
  | finished r => exact absurd rfl (h r)
  | _ =>
    unfold ascend
    rw [hy]

theorem ascend_stuck (b : Block F) {focus : Tree F} (h : ∀ r, focus ≠ .finished r)
    (hy : b.exchange.yielded = none) :
    b.ascend focus [] = .done (.error foreignAwait) { b with state := .over } := by
  cases focus with
  | finished r => exact absurd rfl (h r)
  | _ =>
    unfold ascend
    rw [hy]

/-- Every step is one that the block makes. -/
theorem PollStep.ends (h : PollStep run b events progress) : (b.advance run).Ends progress := by
  cases h with
  | done h => exact h.bind (.ret _)
  | accepted h => exact h.bind (.ret _)
  | rejected h => exact h.bind (.ret _)
  | awaits h => exact h.bind (.ret _)
  | both h => exact h.bind (.ret _)
  | foreign h => exact h
  | rest h =>
    apply Act.ends_ret.mpr
    symm
    exact ascend_rest _ _ _ h
  | yielded h =>
    apply Act.ends_ret.mpr
    symm
    exact ascend_yielded _ h rfl
  | stuck h =>
    apply Act.ends_ret.mpr
    symm
    exact ascend_stuck _ h rfl
  | _ => exact .ret _

/-- With the result of a suspension point its code goes on at once. -/
theorem PollStep.next_of_result (h : PollStep run b events progress) {event : PollEvent F}
    (hevent : event ∈ events) {point : Point F} {r : Resume}
    (hr : event.result? = some (point, r)) :
    ∃ ex st path, point.place = placeOf path ∧
      progress = .more ⟨ex, st, .polling ⟨path, .code (point.next r), true⟩⟩ := by
  cases h with
  | rejected h =>
    cases List.mem_singleton.mp hevent
    cases hr
    exact ⟨_, _, _, rfl, rfl⟩
  | delivered =>
    cases List.mem_singleton.mp hevent
    cases hr
    exact ⟨_, _, _, rfl, rfl⟩
  | accepted h =>
    cases List.mem_singleton.mp hevent
    cases hr
  | returned =>
    cases List.mem_singleton.mp hevent
    cases hr
  | _ => cases hevent

/-- A step down into a part, as the block makes it, is one of these. -/
theorem exists_pollStep_down {ex : Exchange} {st : Bool} {path : List (Crumb F)} {focus : Tree F}
    (h : (advance run ⟨ex, st, .polling ⟨path, focus, true⟩⟩).Ends progress) :
    ∃ events, PollStep run ⟨ex, st, .polling ⟨path, focus, true⟩⟩ events progress := by
  obtain ⟨pending, input⟩ := ex
  cases focus with
  | code f =>
    obtain ⟨stage, hstage, h⟩ := Act.exists_of_ends_bind h
    cases Act.ends_ret.mp h
    cases stage with
    | done r => exact ⟨_, .done hstage⟩
    | suspend y k =>
      cases pending with
      | none => exact ⟨_, .accepted hstage⟩
      | some pending => exact ⟨_, .rejected hstage⟩
    | foreign w k => exact ⟨_, .awaits hstage⟩
    | both left right k => exact ⟨_, .both hstage⟩
  | suspended k =>
    cases input with
    | none =>
      cases Act.ends_ret.mp h
      exact ⟨_, .unanswered⟩
    | some input =>
      cases Act.ends_ret.mp h
      exact ⟨_, .delivered⟩
  | foreign w k => exact ⟨_, .foreign h⟩
  | both left right k =>
    cases Act.ends_ret.mp h
    exact ⟨_, .fork⟩
  | finished r =>
    cases Act.ends_ret.mp h
    exact ⟨_, .finished⟩

/-- A step up from a part, as the block makes it, is one of these. -/
theorem exists_pollStep_up {ex : Exchange} {st : Bool} {path : List (Crumb F)} {focus : Tree F}
    (h : (advance run ⟨ex, st, .polling ⟨path, focus, false⟩⟩).Ends progress) :
    ∃ events, PollStep run ⟨ex, st, .polling ⟨path, focus, false⟩⟩ events progress := by
  cases path with
  | nil =>
    by_cases hfocus : ∃ r, focus = .finished r
    · obtain ⟨r, rfl⟩ := hfocus
      cases Act.ends_ret.mp h
      exact ⟨_, .returned⟩
    · have hfocus : ∀ r, focus ≠ .finished r := fun r hr => hfocus ⟨r, hr⟩
      have hprogress := Act.ends_ret.mp h
      obtain ⟨pending, input⟩ := ex
      cases pending with
      | none =>
        rw [ascend_stuck _ hfocus rfl] at hprogress
        subst hprogress
        exact ⟨_, .stuck hfocus⟩
      | some y =>
        rw [ascend_yielded _ hfocus rfl] at hprogress
        subst hprogress
        exact ⟨_, .yielded hfocus⟩
  | cons crumb path =>
    cases crumb with
    | left right k =>
      cases Act.ends_ret.mp h
      exact ⟨_, .turn⟩
    | right left k =>
      by_cases hboth : ∃ r r', left = .finished r ∧ focus = .finished r'
      · obtain ⟨r, r', rfl, rfl⟩ := hboth
        cases Act.ends_ret.mp h
        exact ⟨_, .join⟩
      · have hboth : ∀ r r', left = .finished r → focus ≠ .finished r' :=
          fun r r' hl hr => hboth ⟨r, r', hl, hr⟩
        have hprogress := Act.ends_ret.mp h
        rw [ascend_rest _ _ _ hboth] at hprogress
        subst hprogress
        exact ⟨_, .rest hboth⟩

/-- **The steps are those that a block makes**, no fewer and no more. -/
theorem exists_pollStep_iff : (∃ events, PollStep run b events progress) ↔
    (b.advance run).Ends progress := by
  refine ⟨fun ⟨_, h⟩ => h.ends, fun h => ?_⟩
  obtain ⟨ex, st, state⟩ := b
  cases state with
  | resting tree =>
    cases Act.ends_ret.mp h
    exact ⟨_, .begin⟩
  | polling poll =>
    obtain ⟨path, focus, down⟩ := poll
    cases down with
    | false => exact exists_pollStep_up h
    | true => exact exists_pollStep_down h
  | broken => cases h
  | _ =>
    cases Act.ends_ret.mp h
    exact ⟨_, .completed⟩

/-! ## Whole polls -/

/-- A poll that finishes, with what happens in it and what it comes to. A nested driver that is
polled from inside has an outcome or not. -/
inductive Polls (run : F → Act Co Fu (Stage F)) :
    Block F → List (PollEvent F) → Step → Block F → Prop
  | yield {b b' : Block F} {events : List (PollEvent F)} {y : Yielded}
      (h : PollStep run b events (.yield y b')) : Polls run b events (.yield y) b'
  | done {b b' : Block F} {events : List (PollEvent F)} {o : Outcome}
      (h : PollStep run b events (.done o b')) : Polls run b events (.done o) b'
  | more {b b' b'' : Block F} {events events' : List (PollEvent F)} {step : Step}
      (h : PollStep run b events (.more b')) (hp : Polls run b' events' step b'') :
      Polls run b (events ++ events') step b''
  | nested {b b'' : Block F} {events events' : List (PollEvent F)} {step : Step}
      {key : DriverKey} {k : Option Outcome → Block F} (o : Option Outcome)
      (h : PollStep run b events (.poll key k)) (hp : Polls run (k o) events' step b'') :
      Polls run b (events ++ events') step b''

/-- One resume: its input, what happened and what it came to. -/
structure Turn (F : Type) where
  input : Resume
  events : List (PollEvent F)
  step : Step

/-- Resumes one after the other, each with a poll that finishes. -/
inductive Story (run : F → Act Co Fu (Stage F)) (first : Block F) : List (Turn F) → Block F → Prop
  | nil : Story run first [] first
  | snoc {turns : List (Turn F)} {b b' : Block F} {turn : Turn F} (h : Story run first turns b)
      (hp : Polls run (b.resume turn.input) turn.events turn.step b') :
      Story run first (turns ++ [turn]) b'

end Block

/-! ## Resuming by hand -/

namespace EventLoop

variable {run : F → Act (Block F) Fu (Stage F)} {p : Program (Block F) Fu}

/-- A poll that a loop makes by hand is one of these. -/
theorem polls_of_advanceByHand (hp : ∀ b, p.advance b = b.advance run) {fuel stages : Nat}
    {l : EventLoop (Block F) Fu} {b b' : Block F} {step : Step}
    (h : (l.advanceByHand p fuel stages b).2 = some (step, b')) :
    ∃ events, b.Polls run events step b' := by
  induction stages generalizing l b with
  | zero => cases h
  | succ stages ih =>
    unfold advanceByHand at h
    rcases hrun : l.runAct p fuel (p.advance b) with ⟨l', _ | progress⟩
    · rw [hrun] at h
      cases h
    · rw [hrun] at h
      have hends : (b.advance run).Ends progress := by
        rw [← hp b]
        exact ends_of_runAct p (by rw [hrun])
      obtain ⟨events, hstep⟩ := Block.exists_pollStep_iff.mpr hends
      cases progress with
      | more b₁ =>
        obtain ⟨events', hpolls⟩ := ih h
        exact ⟨events ++ events', .more hstep hpolls⟩
      | poll key k =>
        dsimp only at h
        split at h
        · cases h
        · obtain ⟨events', hpolls⟩ := ih h
          exact ⟨events ++ events', .nested _ hstep hpolls⟩
      | yield y b₁ =>
        cases h
        exact ⟨events, .yield hstep⟩
      | done o b₁ =>
        cases h
        exact ⟨events, .done hstep⟩

/-- **A resume by hand that gives a result is a poll that finishes**, whatever the loop replies. -/
theorem polls_of_resumeByHand (hp : ∀ b, p.advance b = b.advance run) (hr : p.resume = Block.resume)
    {fuel : Nat} {l l' : EventLoop (Block F) Fu} {b b' : Block F} {input : Resume} {step : Step}
    (h : l.resumeByHand p fuel b input = (l', b', some step)) :
    ∃ events, (b.resume input).Polls run events step b' := by
  unfold resumeByHand at h
  rw [hr] at h
  dsimp only at h
  rcases hadvance : l.advanceByHand p fuel fuel (b.resume input) with ⟨l₁, _ | ⟨step₁, b₁⟩⟩
  · rw [hadvance] at h
    cases h
  · rw [hadvance] at h
    cases h
    exact polls_of_advanceByHand hp (by rw [hadvance])

end EventLoop

end EffectLoop
