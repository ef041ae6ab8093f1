import EffectLoop.Proofs.Seats

/-!
# What a step makes of the driver that takes it

`seat_move` says which driver acts in a move; `Stride` says what becomes of it. There is one constructor
for each thing a step can do, with the guard under which it does so, what the driver keeps about its
coroutine afterwards and the seat it comes to. The rest of the loop occurs only where the step reads it:
in the reply to a request, in what a wait resolves with, and in the numbers of new tasks and drivers.

What is followed through the steps of one driver is so followed by cases on its strides, without
unfolding the step (`stride_stepDriver`).
-/

namespace EffectLoop

variable {Co Fu : Type}

namespace EventLoop

/-- What a step makes of the driver `d` that takes it: its job and its seat afterwards. -/
inductive Stride (p : Program Co Fu) (l : EventLoop Co Fu) (d : Driver Co Fu) :
    Doing Co Fu → Job Co → Seat Co Fu → Prop
  -- Its coroutine runs,
  | resumed {co : Co} {passes : Nat} {kind : EffectKind} (hjob : d.job = .coroutine co passes kind)
      (input : Resume) :
      Stride p l d (.resume input) (.coroutine (p.resume co input) passes kind)
        (.working (.advance (p.advance (p.resume co input))))
  | unresumed (hjob : d.job = .plain) (input : Resume) :
      Stride p l d (.resume input) d.job (.resting d.activity)
  | more (co : Co) :
      Stride p l d (.advance (.ret (.more co))) d.job (.working (.advance (p.advance co)))
  | body (key : DriverKey) (k : Option Outcome → Co) :
      Stride p l d (.advance (.ret (.poll key k))) d.job (.body key k)
  | advances {a : Act Co Fu (Progress Co)} (ha : a.asks = true) :
      Stride p l d (.advance a) d.job (.working (.advance (l.perform p (some d.key) a).2))
  | advancePanics : Stride p l d (.advance .panic) d.job (.working .crash)
  | returns (o : Outcome) (co : Co) :
      Stride p l d (.advance (.ret (.done o co))) d.job (.working (.finish o))
  -- it has yielded,
  | passed {co₀ : Co} {passes : Nat} {kind : EffectKind} (hjob : d.job = .coroutine co₀ passes kind)
      (o : Output) (co : Co)
      (h : ∀ limit, (p.scheduler d.task.scheduler).config.passThroughLimit = some limit →
        passes + 1 ≤ limit) :
      Stride p l d (.advance (.ret (.yield (.pass o) co))) (.coroutine co (passes + 1) kind)
        (.working (.resume (.ok o)))
  | exceeds {co₀ : Co} {passes : Nat} {kind : EffectKind}
      (hjob : d.job = .coroutine co₀ passes kind) (o : Output) (co : Co) {limit : Nat}
      (h : (p.scheduler d.task.scheduler).config.passThroughLimit = some limit)
      (hlt : limit < passes + 1) :
      Stride p l d (.advance (.ret (.yield (.pass o) co))) (.coroutine co (passes + 1) kind)
        (.working (.finish (.error (exceeded limit))))
  | routed {co₀ : Co} {passes : Nat} {kind : EffectKind} (hjob : d.job = .coroutine co₀ passes kind)
      (e : Effect) (co : Co) {ref : ProcessorRef}
      (h : (p.scheduler d.task.scheduler).processors.get? e.kind = some ref) :
      Stride p l d (.advance (.ret (.yield (.effect e) co))) (.coroutine co 0 e.kind)
        (.working (.process ref e {}))
  | unknown {co₀ : Co} {passes : Nat} {kind : EffectKind}
      (hjob : d.job = .coroutine co₀ passes kind) (e : Effect) (co : Co)
      (h : (p.scheduler d.task.scheduler).processors.get? e.kind = none) :
      Stride p l d (.advance (.ret (.yield (.effect e) co))) (.coroutine co 0 e.kind)
        (.working (.finish (.error (.unknownKind e.kind.tag))))
  | unyielded (hjob : d.job = .plain) (y : Yielded) (co : Co) :
      Stride p l d (.advance (.ret (.yield y co))) d.job (.resting d.activity)
  -- a branch is taken up,
  | begun (fu : Fu) (forks : List (Fork Fu)) :
      Stride p l d (.visit (.unbegun fu) forks) d.job (.working (.work (p.work fu) { forks }))
  | visitsNested (key : DriverKey) (frames : List (Frame Fu)) (forks : List (Fork Fu)) :
      Stride p l d (.visit (.waiting (.nested key) frames) forks) d.job
        (.polling key ⟨frames, forks⟩)
  | visitsTurn (frames : List (Frame Fu)) (forks : List (Fork Fu)) :
      Stride p l d (.visit (.waiting .turn frames) forks) d.job
        (.working (.answer (.ok (.value .null)) ⟨frames, forks⟩))
  | visitsReady {w : Wait} (frames : List (Frame Fu)) (forks : List (Fork Fu)) {r : Resume}
      (h : l.peek w = some r) :
      Stride p l d (.visit (.waiting w frames) forks) d.job (.working (.answer r ⟨frames, forks⟩))
  | visitsWaiting {w : Wait} (frames : List (Frame Fu)) (forks : List (Fork Fu)) (ht : w ≠ .turn)
      (h : l.peek w = none) :
      Stride p l d (.visit (.waiting w frames) forks) d.job
        (.working (.pause (.waiting w frames) forks))
  | visitsBoth (left right : Branch Fu) (k : Resume → Resume → Fu) (frames : List (Frame Fu))
      (forks : List (Fork Fu)) :
      Stride p l d (.visit (.both left right k frames) forks) d.job
        (.working (.visit left (.left right k frames :: forks)))
  | visitsFinished (r : Resume) (forks : List (Fork Fu)) :
      Stride p l d (.visit (.finished r) forks) d.job (.working (.answer r { forks }))
  -- and put down,
  | pausesLeft (branch right : Branch Fu) (k : Resume → Resume → Fu) (frames : List (Frame Fu))
      (forks : List (Fork Fu)) :
      Stride p l d (.pause branch (.left right k frames :: forks)) d.job
        (.working (.visit right (.right branch k frames :: forks)))
  | pausesRight (branch left : Branch Fu) (k : Resume → Resume → Fu) (frames : List (Frame Fu))
      (forks : List (Fork Fu)) :
      Stride p l d (.pause branch (.right left k frames :: forks)) d.job
        (.working (.pause (.both left branch k frames) forks))
  | rests (branch : Branch Fu) :
      Stride p l d (.pause branch []) d.job (.resting (.pending branch))
  -- user code of a computation runs,
  | works {a : Act Co Fu (Await Fu)} (ha : a.asks = true) (spot : Spot Fu) :
      Stride p l d (.work a spot) d.job (.working (.work (l.perform p (some d.key) a).2 spot))
  | workPanics (spot : Spot Fu) : Stride p l d (.work .panic spot) d.job (.working .crash)
  | workDone (r : Resume) (spot : Spot Fu) :
      Stride p l d (.work (.ret (.done r)) spot) d.job (.working (.answer r spot))
  | workWaits (w : Wait) (k : Resume → Fu) (spot : Spot Fu) :
      Stride p l d (.work (.ret (.wait w k)) spot) d.job
        (.working (.await w { spot with frames := .code k :: spot.frames }))
  | workDelegates (b : Builtin) (e : Effect) (k : Resume → Fu) (spot : Spot Fu) :
      Stride p l d (.work (.ret (.delegate b e k)) spot) d.job
        (.working (.process (.builtin b) e { spot with frames := .code k :: spot.frames }))
  | workForks (left right : Fu) (k : Resume → Resume → Fu) (spot : Spot Fu) :
      Stride p l d (.work (.ret (.both left right k)) spot) d.job
        (.working (.work (p.work left) { forks := .left (.unbegun right) k spot.frames :: spot.forks }))
  -- an effect is processed,
  | processesOwn (number : Nat) (e : Effect) (spot : Spot Fu) :
      Stride p l d (.process (.own number) e spot) d.job
        (.working (.work (p.work (p.process number d.task.scheduler e)) spot))
  | processes (b : Builtin) (e : Effect) (spot : Spot Fu) :
      Stride p l d (.process (.builtin b) e spot) d.job (.working (builtinDoing p b e spot))
  | invokes (b : Builtin) (target : Target) {a : Act Co Fu (Invoked Co Fu)} (ha : a.asks = true)
      (spot : Spot Fu) :
      Stride p l d (.invoke b target a spot) d.job
        (.working (.invoke b target (l.perform p (some d.key) a).2 spot))
  | invokePanics (b : Builtin) (target : Target) (spot : Spot Fu) :
      Stride p l d (.invoke b target .panic spot) d.job (.working .crash)
  | forked (target : Target) (invoked : Invoked Co Fu) (spot : Spot Fu) :
      Stride p l d (.invoke .fork target (.ret invoked) spot) d.job
        (.working (.answer (.ok (.task ⟨d.task.scheduler, (l.activeTasks d.task.scheduler).nextId,
          target.name⟩)) spot))
  | calledPending {b : Builtin} (hb : b ≠ .fork) (target : Target) (fu : Fu) (spot : Spot Fu) :
      Stride p l d (.invoke b target (.ret (.pending fu)) spot) d.job
        (.working (.work (p.work fu) { spot with frames := .call :: spot.frames }))
  | calledCoroutine {b : Builtin} (hb : b ≠ .fork) (target : Target) (co : Co) (spot : Spot Fu) :
      Stride p l d (.invoke b target (.ret (.coroutine co)) spot) d.job
        (.working (.await (.nested ⟨l.lastKey + 1⟩) { spot with frames := .call :: spot.frames }))
  | dispatches {a : Act Co Fu Json} (ha : a.asks = true) (spot : Spot Fu) :
      Stride p l d (.dispatch a spot) d.job (.working (.dispatch (l.perform p (some d.key) a).2 spot))
  | dispatchPanics (spot : Spot Fu) : Stride p l d (.dispatch .panic spot) d.job (.working .crash)
  | dispatched (v : Json) (spot : Spot Fu) :
      Stride p l d (.dispatch (.ret v) spot) d.job (.working (.answer (.ok (.value v)) spot))
  -- a wait begins,
  | awaitsNested (key : DriverKey) (spot : Spot Fu) :
      Stride p l d (.await (.nested key) spot) d.job (.polling key spot)
  | awaitsReady {w : Wait} (spot : Spot Fu) {r : Resume} (h : l.peek w = some r) :
      Stride p l d (.await w spot) d.job (.working (.answer r spot))
  | awaits {w : Wait} (spot : Spot Fu) (h : l.peek w = none) :
      Stride p l d (.await w spot) d.job (.working (.pause (.waiting w spot.frames) spot.forks))
  -- or an answer is there.
  | answersCode (r : Resume) (k : Resume → Fu) (frames : List (Frame Fu)) (forks : List (Fork Fu)) :
      Stride p l d (.answer r ⟨.code k :: frames, forks⟩) d.job
        (.working (.work (p.work (k r)) ⟨frames, forks⟩))
  | answersCall (r : Resume) (frames : List (Frame Fu)) (forks : List (Fork Fu)) :
      Stride p l d (.answer r ⟨.call :: frames, forks⟩) d.job
        (.working (.answer (r.map fun o => .value o.wire) ⟨frames, forks⟩))
  | delivers (r : Resume) (event : Json) (frames : List (Frame Fu)) (forks : List (Fork Fu)) :
      Stride p l d (.answer r ⟨.deliver event :: frames, forks⟩) d.job
        (.working (.dispatch (p.dispatch (p.scheduler d.task.scheduler).sink event) ⟨frames, forks⟩))
  | answersLeft (r : Resume) (right : Branch Fu) (k : Resume → Resume → Fu)
      (frames : List (Frame Fu)) (forks : List (Fork Fu)) :
      Stride p l d (.answer r ⟨[], .left right k frames :: forks⟩) d.job
        (.working (.visit right (.right (.finished r) k frames :: forks)))
  | answersBoth (r r' : Resume) (k : Resume → Resume → Fu) (frames : List (Frame Fu))
      (forks : List (Fork Fu)) :
      Stride p l d (.answer r ⟨[], .right (.finished r') k frames :: forks⟩) d.job
        (.working (.work (p.work (k r' r)) ⟨frames, forks⟩))
  | answersRight (r : Resume) {left : Branch Fu} (hleft : ∀ r', left ≠ .finished r')
      (k : Resume → Resume → Fu) (frames : List (Frame Fu)) (forks : List (Fork Fu)) :
      Stride p l d (.answer r ⟨[], .right left k frames :: forks⟩) d.job
        (.working (.pause (.both left (.finished r) k frames) forks))
  | resolves {co : Co} {passes : Nat} {kind : EffectKind} (hjob : d.job = .coroutine co passes kind)
      (r : Resume) : Stride p l d (.answer r {}) d.job (.working (.resume r))
  | ends (hjob : d.job = .plain) (r : Resume) :
      Stride p l d (.answer r {}) d.job (.working (.finish (r.map Output.wire)))

variable (p : Program Co Fu) {l : EventLoop Co Fu} {pollers : List (Poller Co Fu)}
  {d d' : Driver Co Fu} {doing : Doing Co Fu}

/-- A driver whose poll ends rests where it has been. -/
theorem seat_focusOn_leave (ho : Orderly l) (hfocus : l.focus = .active pollers d.key doing)
    (hw : doing.works = true) (hk : d'.key = d.key) (l' : EventLoop Co Fu) (outcome : Option Outcome) :
    (l'.focusOn pollers d.key (.leave outcome)).seat d' = .resting d'.activity := by
  have hdistinct := ho.distinct
  rw [held_of_works hfocus hw, List.nodup_cons, ← hk] at hdistinct
  rw [seat_focusOn_of_not_works _ _ rfl, seatIn_of_not_mem hdistinct.1]

section

variable (ho : Orderly l) (hd : d ∈ l.drivers)
include ho hd

/-- A step that spares the driver leaves its job as it is and gives it something to do. -/
theorem stride_on {l' : EventLoop Co Fu} {doing' : Doing Co Fu} (hl : Spares l l')
    (hw : doing'.works = true) (h : Stride p l d doing d.job (.working doing'))
    (hd' : d' ∈ (l'.focusOn pollers d.key doing').drivers) (hk : d'.key = d.key) :
    Stride p l d doing d'.job ((l'.focusOn pollers d.key doing').seat d') := by
  rw [seat_focusOn_of_works _ _ hk hw,
    hl.eq_of_key (fun x hx => ho.eq_of_key hx hd) (ho.proper d hd).1 hd' hk]
  exact h

theorem stride_polls {key : DriverKey} {spot : Spot Fu}
    (h : Stride p l d doing d.job (.polling key spot))
    (hd' : d' ∈ (l.focusOn (.waiting d.key spot :: pollers) key .poll).drivers)
    (hk : d'.key = d.key) : Stride p l d doing d'.job
      ((l.focusOn (.waiting d.key spot :: pollers) key .poll).seat d') := by
  rw [seat_focusOn_polling _ _ hk, ho.eq_of_key hd' hd hk]
  exact h

theorem stride_yield (hfocus : l.focus = .active pollers d.key doing) (hw : doing.works = true)
    {y : Yielded} {co : Co} (he : doing = .advance (.ret (.yield y co)))
    (hd' : d' ∈ (l.stepDriver p pollers d doing).drivers) (hk : d'.key = d.key) :
    Stride p l d doing d'.job ((l.stepDriver p pollers d doing).seat d') := by
  subst he
  cases hjob : d.job with
  | plain =>
    have hl : l.stepDriver p pollers d (.advance (.ret (.yield y co))) =
        l.focusOn pollers d.key (.leave none) := by
      unfold stepDriver
      rw [hjob]
    rw [hl] at hd' ⊢
    rw [seat_focusOn_leave ho hfocus hw hk, ho.eq_of_key hd' hd hk]
    exact .unyielded hjob y co
  | coroutine co₀ passes kind =>
    have hl : l.stepDriver p pollers d (.advance (.ret (.yield y co))) =
        l.stepYield p pollers d passes kind co y := by
      unfold stepDriver
      rw [hjob]
    rw [hl] at hd' ⊢
    have hown := stepYield_own p (fun x hx => ho.eq_of_key hx hd) passes kind co y hd' hk
    have hdjob : d'.job = jobAfter passes kind co y := by rw [hown]
    clear hd'
    rw [hdjob]
    unfold stepYield
    cases y with
    | pass o =>
      dsimp only
      cases hlimit : (p.scheduler d.task.scheduler).config.passThroughLimit with
      | none =>
        dsimp only
        rw [seat_focusOn_of_works _ _ hk rfl]
        refine .passed hjob o co fun limit h => ?_
        rw [hlimit] at h
        cases h
      | some limit =>
        dsimp only
        by_cases hlt : limit < passes + 1
        · rw [if_pos hlt, seat_focusOn_of_works _ _ hk rfl]
          exact .exceeds hjob o co hlimit hlt
        · rw [if_neg hlt, seat_focusOn_of_works _ _ hk rfl]
          refine .passed hjob o co fun limit' h => ?_
          rw [hlimit] at h
          cases h
          exact Nat.not_lt.mp hlt
    | effect e =>
      dsimp only
      cases hget : (p.scheduler d.task.scheduler).processors.get? e.kind with
      | none =>
        dsimp only
        rw [seat_focusOn_of_works _ _ hk rfl]
        exact .unknown hjob e co hget
      | some ref =>
        dsimp only
        rw [seat_focusOn_of_works _ _ hk rfl]
        exact .routed hjob e co hget

theorem stride_advance (hfocus : l.focus = .active pollers d.key doing) (hw : doing.works = true)
    {a : Act Co Fu (Progress Co)} (he : doing = .advance a)
    (hd' : d' ∈ (l.stepDriver p pollers d doing).drivers) (hk : d'.key = d.key) :
    Stride p l d doing d'.job ((l.stepDriver p pollers d doing).seat d') := by
  have hle := (ho.proper d hd).1
  cases a with
  | ret progress =>
    cases progress with
    | more co =>
      subst he
      exact stride_on p ho hd (.refl l) rfl (.more co) hd' hk
    | poll key k =>
      subst he
      rw [show (l.stepDriver p pollers d (.advance (.ret (.poll key k)))).seat d' = .body key k from
        (seat_focusOn_of_not_works _ _ rfl _ _).trans (if_pos hk.symm), ho.eq_of_key hd' hd hk]
      exact .body key k
    | yield y co => exact stride_yield p ho hd hfocus hw he hd' hk
    | done o co =>
      subst he
      exact stride_on p ho hd (l.spares_dropNested d.key) rfl (.returns o co) hd' hk
  | panic =>
    subst he
    exact stride_on p ho hd (.refl l) rfl .advancePanics hd' hk
  | _ =>
    subst he
    rw [stepDriver_advance p l pollers d rfl] at hd' ⊢
    exact stride_on p ho hd (l.spares_perform p _ (current_le hle) _) rfl (.advances rfl) hd' hk

theorem stride_visit {branch : Branch Fu} {forks : List (Fork Fu)}
    (hd' : d' ∈ (l.stepDriver p pollers d (.visit branch forks)).drivers) (hk : d'.key = d.key) :
    Stride p l d (.visit branch forks) d'.job
      ((l.stepDriver p pollers d (.visit branch forks)).seat d') := by
  cases branch with
  | unbegun fu => exact stride_on p ho hd (.refl l) rfl (.begun fu forks) hd' hk
  | both left right k frames =>
    exact stride_on p ho hd (.refl l) rfl (.visitsBoth left right k frames forks) hd' hk
  | finished r => exact stride_on p ho hd (.refl l) rfl (.visitsFinished r forks) hd' hk
  | waiting w frames =>
    by_cases ht : w = .turn
    · subst ht
      exact stride_on p ho hd (.refl l) rfl (.visitsTurn frames forks) hd' hk
    · rcases l.stepDriver_visit_waiting p pollers d w frames forks with
        ⟨key, rfl, hl⟩ | ⟨r, hr, hl⟩ | ⟨hr, hl⟩
      · rw [hl] at hd' ⊢
        exact stride_polls p ho hd (.visitsNested key frames forks) hd' hk
      · rw [hl] at hd' ⊢
        exact stride_on p ho hd (.refl l) rfl
          (.visitsReady frames forks (hr.resolve_left ht)) hd' hk
      · rw [hl] at hd' ⊢
        exact stride_on p ho hd (.refl l) rfl (.visitsWaiting frames forks ht hr) hd' hk

theorem stride_await {w : Wait} {spot : Spot Fu}
    (hd' : d' ∈ (l.stepDriver p pollers d (.await w spot)).drivers) (hk : d'.key = d.key) :
    Stride p l d (.await w spot) d'.job ((l.stepDriver p pollers d (.await w spot)).seat d') := by
  rcases l.stepDriver_await p pollers d w spot with ⟨key, rfl, hl⟩ | ⟨r, hr, hl⟩ | ⟨hr, hl⟩
  · rw [hl] at hd' ⊢
    exact stride_polls p ho hd (.awaitsNested key spot) hd' hk
  · rw [hl] at hd' ⊢
    exact stride_on p ho hd (.refl l) rfl (.awaitsReady spot hr) hd' hk
  · rw [hl] at hd' ⊢
    exact stride_on p ho hd (l.spares_wait pollers d w) rfl (.awaits spot hr) hd' hk

theorem stride_work {a : Act Co Fu (Await Fu)} {spot : Spot Fu}
    (hd' : d' ∈ (l.stepDriver p pollers d (.work a spot)).drivers) (hk : d'.key = d.key) :
    Stride p l d (.work a spot) d'.job ((l.stepDriver p pollers d (.work a spot)).seat d') := by
  have hle := (ho.proper d hd).1
  cases a with
  | ret await =>
    cases await with
    | done r => exact stride_on p ho hd (.refl l) rfl (.workDone r spot) hd' hk
    | wait w k => exact stride_on p ho hd (.refl l) rfl (.workWaits w k spot) hd' hk
    | delegate b e k => exact stride_on p ho hd (.refl l) rfl (.workDelegates b e k spot) hd' hk
    | both left right k => exact stride_on p ho hd (.refl l) rfl (.workForks left right k spot) hd' hk
  | panic => exact stride_on p ho hd (.refl l) rfl (.workPanics spot) hd' hk
  | _ =>
    rw [stepDriver_work p l pollers d rfl] at hd' ⊢
    exact stride_on p ho hd (l.spares_perform p _ (current_le hle) _) rfl (.works rfl spot) hd' hk

theorem stride_invoke {b : Builtin} {target : Target} {a : Act Co Fu (Invoked Co Fu)} {spot : Spot Fu}
    (hd' : d' ∈ (l.stepDriver p pollers d (.invoke b target a spot)).drivers) (hk : d'.key = d.key) :
    Stride p l d (.invoke b target a spot) d'.job
      ((l.stepDriver p pollers d (.invoke b target a spot)).seat d') := by
  have hle := (ho.proper d hd).1
  cases a with
  | ret invoked =>
    by_cases hb : b = .fork
    · subst hb
      cases invoked with
      | pending fu => exact stride_on p ho hd (l.spares_spawn ..) rfl (.forked target _ spot) hd' hk
      | coroutine co => exact stride_on p ho hd (l.spares_start ..) rfl (.forked target _ spot) hd' hk
    · cases invoked with
      | pending fu =>
        have hl : l.stepDriver p pollers d (.invoke b target (.ret (.pending fu)) spot) =
            l.focusOn pollers d.key (.work (p.work fu) { spot with frames := .call :: spot.frames }) := by
          cases b <;> first | rfl | exact absurd rfl hb
        rw [hl] at hd' ⊢
        exact stride_on p ho hd (.refl l) rfl (.calledPending hb target fu spot) hd' hk
      | coroutine co =>
        have hl : l.stepDriver p pollers d (.invoke b target (.ret (.coroutine co)) spot) =
            (l.nest (p.scheduler d.task.scheduler) (some d.key) d.task.scheduler target.name co).1.focusOn
              pollers d.key (.await (.nested ⟨l.lastKey + 1⟩)
                { spot with frames := .call :: spot.frames }) := by
          cases b <;> first | rfl | exact absurd rfl hb
        rw [hl] at hd' ⊢
        exact stride_on p ho hd (l.spares_nest _ (current_le hle) ..) rfl
          (.calledCoroutine hb target co spot) hd' hk
  | panic => exact stride_on p ho hd (.refl l) rfl (.invokePanics b target spot) hd' hk
  | _ =>
    rw [stepDriver_invoke p l pollers d b target rfl] at hd' ⊢
    exact stride_on p ho hd (l.spares_perform p _ (current_le hle) _) rfl
      (.invokes b target rfl spot) hd' hk

theorem stride_dispatch {a : Act Co Fu Json} {spot : Spot Fu}
    (hd' : d' ∈ (l.stepDriver p pollers d (.dispatch a spot)).drivers) (hk : d'.key = d.key) :
    Stride p l d (.dispatch a spot) d'.job
      ((l.stepDriver p pollers d (.dispatch a spot)).seat d') := by
  have hle := (ho.proper d hd).1
  cases a with
  | ret v => exact stride_on p ho hd (.refl l) rfl (.dispatched v spot) hd' hk
  | panic => exact stride_on p ho hd (.refl l) rfl (.dispatchPanics spot) hd' hk
  | _ =>
    rw [stepDriver_dispatch p l pollers d rfl] at hd' ⊢
    exact stride_on p ho hd (l.spares_perform p _ (current_le hle) _) rfl (.dispatches rfl spot) hd' hk

theorem stride_answer {r : Resume} {spot : Spot Fu}
    (hd' : d' ∈ (l.stepDriver p pollers d (.answer r spot)).drivers) (hk : d'.key = d.key) :
    Stride p l d (.answer r spot) d'.job ((l.stepDriver p pollers d (.answer r spot)).seat d') := by
  obtain ⟨frames, forks⟩ := spot
  cases frames with
  | cons frame frames =>
    cases frame with
    | code k => exact stride_on p ho hd (.refl l) rfl (.answersCode r k frames forks) hd' hk
    | call => exact stride_on p ho hd (.refl l) rfl (.answersCall r frames forks) hd' hk
    | deliver event => exact stride_on p ho hd (.refl l) rfl (.delivers r event frames forks) hd' hk
  | nil =>
    cases forks with
    | cons fork forks =>
      cases fork with
      | left right k frames =>
        exact stride_on p ho hd (.refl l) rfl (.answersLeft r right k frames forks) hd' hk
      | right left k frames =>
        cases left with
        | finished r' => exact stride_on p ho hd (.refl l) rfl (.answersBoth r r' k frames forks) hd' hk
        | _ =>
          exact stride_on p ho hd (.refl l) rfl
            (.answersRight r (by intro _ h; cases h) k frames forks) hd' hk
    | nil =>
      rw [show l.stepDriver p pollers d (.answer r ⟨[], []⟩) = l.stepAnswer p pollers d r {} from rfl]
        at hd' ⊢
      cases hjob : d.job with
      | plain =>
        have hl : l.stepAnswer p pollers d r {} =
            l.focusOn pollers d.key (.finish (r.map Output.wire)) := by
          unfold stepAnswer
          rw [hjob]
        rw [hl] at hd' ⊢
        exact stride_on p ho hd (.refl l) rfl (.ends hjob r) hd' hk
      | coroutine co passes kind =>
        obtain ⟨l', hl, hspares⟩ : ∃ l', l.stepAnswer p pollers d r {} =
            l'.focusOn pollers d.key (.resume r) ∧ Spares l l' := by
          unfold stepAnswer
          rw [hjob]
          cases r with
          | ok o => exact ⟨_, rfl, .refl l⟩
          | error e => exact ⟨_, rfl, .of_eq rfl rfl⟩
        rw [hl] at hd' ⊢
        exact stride_on p ho hd hspares rfl (.resolves hjob r) hd' hk

theorem stride_resume {input : Resume} (hfocus : l.focus = .active pollers d.key doing)
    (hw : doing.works = true)
    (hd' : d' ∈ (l.stepDriver p pollers d (.resume input)).drivers) (hk : d'.key = d.key) :
    Stride p l d (.resume input) d'.job ((l.stepDriver p pollers d (.resume input)).seat d') := by
  cases hjob : d.job with
  | plain =>
    have hl : l.stepDriver p pollers d (.resume input) = l.focusOn pollers d.key (.leave none) := by
      unfold stepDriver
      rw [hjob]
    rw [hl] at hd' ⊢
    rw [seat_focusOn_leave ho hfocus hw hk, ho.eq_of_key hd' hd hk]
    exact .unresumed hjob input
  | coroutine co passes kind =>
    have hl : l.stepDriver p pollers d (.resume input) =
        (((l.setState d.task .running).setActivity d.key .busy).setJob d.key
          (.coroutine (p.resume co input) passes kind)).focusOn pollers d.key
            (.advance (p.advance (p.resume co input))) := by
      unfold stepDriver
      rw [hjob]
    rw [hl] at hd' ⊢
    have hown := eq_of_mem_resume (fun x hx => ho.eq_of_key hx hd) _ hd' hk
    rw [seat_focusOn_of_works _ _ hk rfl, hown]
    exact .resumed hjob input

/-- **What a step makes of the driver that takes it**, if it is still there afterwards. -/
theorem stride_stepDriver (hfocus : l.focus = .active pollers d.key doing)
    (hw : doing.works = true) (hd' : d' ∈ (l.stepDriver p pollers d doing).drivers)
    (hk : d'.key = d.key) : Stride p l d doing d'.job ((l.stepDriver p pollers d doing).seat d') := by
  cases doing with
  | poll => cases hw
  | leave outcome => cases hw
  | resume input => exact stride_resume p ho hd hfocus hw hd' hk
  | advance a => exact stride_advance p ho hd hfocus hw rfl hd' hk
  | visit branch forks => exact stride_visit p ho hd hd' hk
  | work a spot => exact stride_work p ho hd hd' hk
  | process ref e spot =>
    cases ref with
    | own number => exact stride_on p ho hd (.refl l) rfl (.processesOwn number e spot) hd' hk
    | builtin b =>
      have hworks : (builtinDoing p b e spot).works = true := by cases b <;> cases e <;> rfl
      exact stride_on p ho hd (.refl l) hworks (.processes b e spot) hd' hk
  | invoke b target a spot => exact stride_invoke p ho hd hd' hk
  | dispatch a spot => exact stride_dispatch p ho hd hd' hk
  | await w spot => exact stride_await p ho hd hd' hk
  | answer r spot => exact stride_answer p ho hd hd' hk
  | pause branch forks =>
    cases forks with
    | nil =>
      have hown : d' = { d with activity := .pending branch } :=
        eq_of_mem_modifyDriver (fun x hx => ho.eq_of_key hx hd) hd' hk
      rw [show (l.stepDriver p pollers d (.pause branch [])).seat d' = .resting (.pending branch) from
        seat_of_rest ho hfocus hw hd hd' hk, show d'.job = d.job by rw [hown]]
      exact .rests branch
    | cons fork forks =>
      cases fork with
      | left right k frames =>
        exact stride_on p ho hd (.refl l) rfl (.pausesLeft branch right k frames forks) hd' hk
      | right left k frames =>
        exact stride_on p ho hd (.refl l) rfl (.pausesRight branch left k frames forks) hd' hk
  | finish o => exact absurd hk (key_ne_of_mem_conclude hd')
  | crash =>
    refine absurd hk ((mem_foldl_abandon.mp hd').2 d ?_)
    exact List.mem_reverse.mpr (List.mem_filter.mpr ⟨hd, decide_eq_true rfl⟩)

end

end EventLoop

end EffectLoop
