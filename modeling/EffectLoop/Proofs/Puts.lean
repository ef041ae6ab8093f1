import EffectLoop.Proofs.Arrivals
import EffectLoop.Proofs.Polls
import EffectLoop.Proofs.Strides

/-!
# What becomes of a put

The built-in processor of puts hands the event of the effect to the sink of the scheduler one round
later. `putLog` is the history of a driver with the calls of its sink in between; it leaves out what a
processor of the program has the built-in one do on its behalf. `PutPhase.Next` says how such a log goes
on: the yield, the call with the event, its return, and the resume with what was returned, each of them
once and nothing else between. `Delivered` is that over a whole run.

Where a driver is in this is read off its seat: a computation that has been given a put has only the
frame that delivers the event (`Seat.Defers`), and no other computation of a coroutine ends in such a
frame (`Seat.Clear`).
-/

namespace EffectLoop

variable {Co Fu : Type}

/-- What happens on the way of a put. -/
inductive PutEvent (Co : Type)
  /-- An event of the coroutine. -/
  | told (e : TaskEvent Co)
  /-- The sink is called with an event, -/
  | called (event : Json)
  /-- and returns. -/
  | returned (v : Json)

namespace PutEvent

/-- The event of a put that is yielded. -/
def yielded? : PutEvent Co → Option Json
  | .told (.yielded (.effect (.put event)) _) => some event
  | _ => none

def called? : PutEvent Co → Option Json
  | .called event => some event
  | _ => none

def told? : PutEvent Co → Option (TaskEvent Co)
  | .told e => some e
  | _ => none

end PutEvent

/-- The call of the sink that a put of the coroutine itself has come to, or its return. -/
def Doing.sink? (d : Driver Co Fu) (doing : Doing Co Fu) : Option (PutEvent Co) :=
  match d.job, doing with
  | .coroutine _ _ _, .answer _ ⟨[.deliver event], []⟩ => some (.called event)
  | .coroutine _ _ _, .dispatch (.ret v) ⟨[], []⟩ => some (.returned v)
  | _, _ => none

/-- What a driver is about to do, as events on the way of a put. -/
def Doing.putEvents (d : Driver Co Fu) (doing : Doing Co Fu) : List (PutEvent Co) :=
  (doing.event? d).toList.map .told ++ (doing.sink? d).toList

/-- How far a put of a coroutine has come. -/
inductive PutPhase
  | free
  /-- The effect is about to be given to its processor. -/
  | routed (event : Json)
  | owed (event : Json)
  | calling (event : Json)
  | answered (v : Json)
  /-- The coroutine is about to be resumed with what the sink has returned. -/
  | delivered (v : Json)

namespace PutPhase

/-- How a log goes on, with `dispatch` for the sink. -/
inductive Next (dispatch : Json → Act Co Fu Json) : PutPhase → PutEvent Co → PutPhase → Prop
  | other {e : TaskEvent Co} (h : (PutEvent.told e).yielded? = none) :
      Next dispatch .free (.told e) .free
  | yielded (event : Json) (co : Co) :
      Next dispatch .free (.told (.yielded (.effect (.put event)) co)) (.routed event)
  | given (event : Json) :
      Next dispatch (.routed event) (.told (.given (.builtin .put) (.put event))) (.owed event)
  | called (event : Json) : Next dispatch (.owed event) (.called event) (.calling event)
  | returned (event : Json) {v : Json} (h : (dispatch event).Ends v) :
      Next dispatch (.calling event) (.returned v) (.answered v)
  | resolved (v : Json) :
      Next dispatch (.answered v) (.told (.resolved (.ok (.value v)))) (.delivered v)
  | resumed (v : Json) (co : Co) :
      Next dispatch (.delivered v) (.told (.resumed co (.ok (.value v)))) .free

/-- How a log goes on for several events. -/
inductive Goes (dispatch : Json → Act Co Fu Json) :
    PutPhase → List (PutEvent Co) → PutPhase → Prop
  | nil (ph : PutPhase) : Goes dispatch ph [] ph
  | cons {ph ph' ph'' : PutPhase} {x : PutEvent Co} {xs : List (PutEvent Co)}
      (h : Next dispatch ph x ph') (hrest : Goes dispatch ph' xs ph'') : Goes dispatch ph (x :: xs) ph''

variable {dispatch : Json → Act Co Fu Json}

theorem Goes.append {ph ph' ph'' : PutPhase} {xs ys : List (PutEvent Co)}
    (h : Goes dispatch ph xs ph') (h' : Goes dispatch ph' ys ph'') :
    Goes dispatch ph (xs ++ ys) ph'' := by
  induction h with
  | nil => exact h'
  | cons hn _ ih => exact .cons hn (ih h')

theorem Goes.split {ph ph'' : PutPhase} {xs ys : List (PutEvent Co)}
    (h : Goes dispatch ph (xs ++ ys) ph'') :
    ∃ ph', Goes dispatch ph xs ph' ∧ Goes dispatch ph' ys ph'' := by
  induction xs generalizing ph with
  | nil => exact ⟨ph, .nil ph, h⟩
  | cons x xs ih =>
    cases h with
    | cons hn hrest =>
      obtain ⟨ph', hxs, hys⟩ := ih hrest
      exact ⟨ph', .cons hn hxs, hys⟩

/-- The events of puts that the sink has not been called with yet. -/
@[simp] def uncalled : PutPhase → List Json
  | .routed event | .owed event => [event]
  | _ => []

/-- **The sink is called with the events of the puts in the order of the yields**: what was due before
and what is yielded is called for, or still due. -/
theorem Goes.calls {ph ph' : PutPhase} {xs : List (PutEvent Co)} (h : Goes dispatch ph xs ph') :
    ph.uncalled ++ xs.filterMap PutEvent.yielded? =
      xs.filterMap PutEvent.called? ++ ph'.uncalled := by
  induction h with
  | nil ph => exact List.append_nil _
  | cons hn _ ih =>
    cases hn with
    | other h =>
      rw [List.filterMap_cons_none h, List.filterMap_cons_none rfl]
      exact ih
    | yielded event co =>
      rw [List.filterMap_cons_some (f := PutEvent.yielded?) rfl, List.filterMap_cons_none rfl]
      exact ih
    | called event =>
      rw [List.filterMap_cons_none rfl, List.filterMap_cons_some (f := PutEvent.called?) rfl]
      exact congrArg (event :: ·) ih
    | _ =>
      rw [List.filterMap_cons_none rfl, List.filterMap_cons_none rfl]
      exact ih

/-- What follows the yield of a put, up to the answer of its processor. -/
def round (event v : Json) : List (PutEvent Co) :=
  [.told (.given (.builtin .put) (.put event)), .called event, .returned v,
    .told (.resolved (.ok (.value v)))]

/-- **What follows the yield of a put** is its round: the sink has not returned yet, or it has returned
`v`, and then what follows is part of the round with that value, or the round and then the resume with
that value. -/
theorem Goes.round_of_routed {event : Json} {ph : PutPhase} {xs : List (PutEvent Co)}
    (h : Goes dispatch (.routed event) xs ph) :
    xs <+: [.told (.given (.builtin .put) (.put event)), .called event] ∨
    ∃ v, (dispatch event).Ends v ∧ (xs <+: round event v ∨
      ∃ co rest, xs = round event v ++ .told (.resumed co (.ok (.value v))) :: rest) := by
  -- each phase but the free one allows one event only
  cases h with
  | nil => exact .inl List.nil_prefix
  | cons hn h =>
    cases hn
    cases h with
    | nil => exact .inl ⟨[.called event], rfl⟩
    | cons hn h =>
      cases hn
      cases h with
      | nil => exact .inl (List.prefix_refl _)
      | cons hn h =>
        cases hn with
        | returned _ hv =>
          refine .inr ⟨_, hv, ?_⟩
          cases h with
          | nil => exact .inl ⟨[_], rfl⟩
          | cons hn h =>
            cases hn
            cases h with
            | nil => exact .inl (List.prefix_refl _)
            | cons hn h =>
              cases hn with
              | resumed _ co => exact .inr ⟨co, _, rfl⟩

end PutPhase

/-! ## Which computations end in the delivery of an event -/

/-- The frame delivers an event to the sink. -/
def Frame.delivers : Frame Fu → Bool
  | .deliver _ => true
  | _ => false

/-- The frames below a branch. -/
def Branch.frames : Branch Fu → List (Frame Fu)
  | .waiting _ frames | .both _ _ _ frames => frames
  | _ => []

/-- The frames below both branches of a fork. -/
def Fork.frames : Fork Fu → List (Frame Fu)
  | .left _ _ frames | .right _ _ frames => frames

/-- The last thing that the computation of a driver does at a place with these frames and forks is to
deliver an event. -/
def delivering : List (Frame Fu) → List (Fork Fu) → Bool
  | frames, [] => frames.getLast?.any Frame.delivers
  | _, fork :: forks => delivering fork.frames forks

@[simp] theorem delivering_fork (frames : List (Frame Fu)) (fork : Fork Fu) (forks : List (Fork Fu)) :
    delivering frames (fork :: forks) = delivering fork.frames forks := rfl

/-- A frame on top of others changes nothing about the last. -/
theorem delivering_cons_of_ne {frames : List (Frame Fu)} {forks : List (Fork Fu)}
    (h : (⟨frames, forks⟩ : Spot Fu) ≠ {}) (frame : Frame Fu) :
    delivering (frame :: frames) forks = delivering frames forks := by
  cases forks with
  | cons fork forks => rfl
  | nil =>
    cases frames with
    | nil => exact absurd rfl h
    | cons first frames => simp [delivering, List.getLast?_cons_cons]

theorem delivering_cons {frame : Frame Fu} (h : frame.delivers = false) (frames : List (Frame Fu))
    (forks : List (Fork Fu)) : delivering (frame :: frames) forks = delivering frames forks := by
  cases forks with
  | cons fork forks => rfl
  | nil =>
    cases frames with
    | nil => simp [delivering, h]
    | cons first frames => simp [delivering, List.getLast?_cons_cons]

/-- The computation that the driver works on does not end in the delivery of an event, nor is it one. -/
def Doing.Clear : Doing Co Fu → Prop
  | .visit branch forks | .pause branch forks => delivering branch.frames forks = false
  | .work _ spot | .invoke _ _ _ spot | .await _ spot | .answer _ spot =>
    delivering spot.frames spot.forks = false
  | .process ref e spot => delivering spot.frames spot.forks = false ∧
    (spot = {} → ref = .builtin .put → ∀ event, e ≠ .put event)
  | .dispatch _ spot => delivering spot.frames spot.forks = false ∧ spot ≠ {}
  | _ => True

/-- No computation of the driver ends in the delivery of an event. -/
def Seat.Clear : Seat Co Fu → Prop
  | .working doing => doing.Clear
  | .polling _ spot => delivering spot.frames spot.forks = false
  | .resting (.pending branch) => delivering branch.frames [] = false
  | _ => True

/-- The driver has been given a put and is still to call the sink with the event. -/
inductive Seat.Defers (event : Json) : Seat Co Fu → Prop
  | awaits : Defers event (.working (.await .turn ⟨[.deliver event], []⟩))
  | pauses : Defers event (.working (.pause (.waiting .turn [.deliver event]) []))
  | rests : Defers event (.resting (.pending (.waiting .turn [.deliver event])))
  | visits : Defers event (.working (.visit (.waiting .turn [.deliver event]) []))
  | answers (r : Resume) : Defers event (.working (.answer r ⟨[.deliver event], []⟩))

/-- The seats of a driver whose put has come so far. -/
def PutPhase.Sits (dispatch : Json → Act Co Fu Json) : PutPhase → Seat Co Fu → Prop
  | .free, seat => seat.Clear
  | .routed event, seat => seat = .working (.process (.builtin .put) (.put event) {})
  | .owed event, seat => seat.Defers event
  | .calling event, seat => seat = .working .crash ∨
    ∃ a, seat = .working (.dispatch a {}) ∧ ∀ v, a.Ends v → (dispatch event).Ends v
  | .answered v, seat => seat = .working (.answer (.ok (.value v)) {})
  | .delivered v, seat => seat = .working (.resume (.ok (.value v)))

namespace EventLoop

section

variable (p : Program Co Fu) {l : EventLoop Co Fu} {d d' : Driver Co Fu} {doing : Doing Co Fu}
  {job : Job Co} {seat : Seat Co Fu}

/-- What the built-in processors do first is not to deliver, unless it is a put of the coroutine
itself. -/
theorem clear_builtinDoing {b : Builtin} {e : Effect} {spot : Spot Fu}
    (h : (Doing.process (.builtin b) e spot : Doing Co Fu).Clear) :
    (builtinDoing p b e spot).Clear := by
  obtain ⟨hdelivering, hput⟩ := h
  cases b with
  | put =>
    cases e with
    | put event =>
      have hne : spot ≠ {} := fun he => hput he rfl event rfl
      exact (delivering_cons_of_ne hne _).trans hdelivering
    | _ => exact hdelivering
  | _ => cases e <;> exact hdelivering

/-- **A computation that does not end in the delivery of an event comes to none**, unless its coroutine
yields a put. -/
theorem clear_stride (h : Stride p l d doing job seat) (hjob : d.job ≠ .plain) (hc : doing.Clear)
    (hput : ∀ event co, doing ≠ .advance (.ret (.yield (.effect (.put event)) co))) :
    seat.Clear := by
  cases h with
  | unresumed hplain input => exact absurd hplain hjob
  | unyielded hplain y co => exact absurd hplain hjob
  | routed hjob e co h =>
    refine ⟨rfl, fun _ _ event he => ?_⟩
    subst he
    exact hput event co rfl
  | workWaits w k spot => exact (delivering_cons rfl _ _).trans hc
  | workDelegates b e k spot =>
    refine ⟨(delivering_cons rfl _ _).trans hc, fun he => ?_⟩
    cases he
  | processesOwn number e spot => exact hc.1
  | processes b e spot => exact clear_builtinDoing p hc
  | calledPending hb target fu spot => exact (delivering_cons rfl _ _).trans hc
  | calledCoroutine hb target co spot => exact (delivering_cons rfl _ _).trans hc
  | dispatched v spot => exact hc.1
  | answersCode r k frames forks => exact (delivering_cons rfl _ _).symm.trans hc
  | answersCall r frames forks => exact (delivering_cons rfl _ _).symm.trans hc
  | delivers r event frames forks =>
    have hne : (⟨frames, forks⟩ : Spot Fu) ≠ {} := by
      intro he
      cases he
      cases hc
    exact ⟨(delivering_cons_of_ne hne _).symm.trans hc, hne⟩
  | _ => first | exact hc | trivial

/-- What a driver does that does not deliver an event is no call of the sink. -/
theorem sink?_of_clear (hc : doing.Clear) : doing.sink? d = none := by
  unfold Doing.sink?
  split
  · cases hc
  · exact absurd rfl hc.2
  · rfl

/-! ## One step of a driver -/

/-- The built-in processor serves the puts of a scheduler. -/
def ServesPuts (s : SchedulerId) : Prop :=
  (p.scheduler s).processors.get? .put = some (.builtin .put)

/-- The sink of a scheduler. -/
def sinkOf (s : SchedulerId) (event : Json) : Act Co Fu Json :=
  p.dispatch (p.scheduler s).sink event

theorem putEvents_of_clear (hc : doing.Clear) :
    doing.putEvents d = (doing.event? d).toList.map .told := by
  rw [Doing.putEvents, sink?_of_clear hc, Option.toList_none, List.append_nil]

/-- While no put is under way, a step is any event, or the yield of a put. -/
theorem goes_of_clear (dispatch : Json → Act Co Fu Json) (hserves : ServesPuts p d.task.scheduler)
    (hjob : d.job ≠ .plain) (hc : doing.Clear) :
    ∃ ph, PutPhase.Goes dispatch .free (doing.putEvents d) ph ∧
      ∀ job seat, Stride p l d doing job seat → ph.Sits dispatch seat := by
  rw [putEvents_of_clear hc]
  by_cases hput : ∃ event co, doing = .advance (.ret (.yield (.effect (.put event)) co))
  · obtain ⟨event, co, rfl⟩ := hput
    refine ⟨.routed event, ?_, fun job seat h => ?_⟩
    · have he : (Doing.advance (.ret (.yield (.effect (.put event)) co)) : Doing Co Fu).event? d =
          some (.yielded (.effect (.put event)) co) := by
        unfold Doing.event?
        cases hd : d.job with
        | plain => exact absurd hd hjob
        | coroutine _ _ _ => rfl
      rw [he]
      exact .cons (.yielded event co) (.nil _)
    · cases h with
      | routed _ _ _ h =>
        cases hserves.symm.trans h
        rfl
      | unknown _ _ _ h => cases hserves.symm.trans h
      | unyielded hplain _ _ => exact absurd hplain hjob
      | advances ha => cases ha
  · have hput : ∀ event co, doing ≠ .advance (.ret (.yield (.effect (.put event)) co)) :=
      fun event co he => hput ⟨event, co, he⟩
    refine ⟨.free, ?_, fun job seat h => clear_stride p h hjob hc hput⟩
    cases he : doing.event? d with
    | none => exact .nil _
    | some e =>
      refine .cons (.other ?_) (.nil _)
      unfold PutEvent.yielded?
      split
      · rename_i event co heq
        cases heq
        unfold Doing.event? at he
        split at he <;> cases he
        exact absurd rfl (hput event co)
      · rfl

section

variable {co : Co} {passes : Nat} {kind : EffectKind}

theorem putEvents_of_job (hjob : d.job = .coroutine co passes kind) (doing : Doing Co Fu) :
    doing.putEvents d =
      (doing.event? { d with job := .coroutine co passes kind }).toList.map .told ++
        (doing.sink? { d with job := .coroutine co passes kind }).toList := by
  rw [← hjob]
  rfl

/-- A put that is owed waits for the next round, and then the sink is called with the event. -/
theorem goes_of_defers {event : Json} (hjob : d.job = .coroutine co passes kind)
    (hs : Seat.Defers event (.working doing)) :
    ∃ ph, PutPhase.Goes (sinkOf p d.task.scheduler) (.owed event) (doing.putEvents d) ph ∧
      ∀ job seat, Stride p l d doing job seat → ph.Sits (sinkOf p d.task.scheduler) seat := by
  rw [putEvents_of_job hjob]
  cases hs with
  | awaits =>
    refine ⟨.owed event, .nil _, fun job seat h => ?_⟩
    cases h with
    | awaitsReady _ h => cases h
    | awaits _ h => exact .pauses
  | pauses =>
    refine ⟨.owed event, .nil _, fun job seat h => ?_⟩
    cases h
    exact .rests
  | visits =>
    refine ⟨.owed event, .nil _, fun job seat h => ?_⟩
    cases h with
    | visitsTurn _ _ => exact .answers _
    | visitsReady _ _ h => cases h
    | visitsWaiting _ _ ht h => exact absurd rfl ht
  | answers r =>
    refine ⟨.calling event, .cons (.called event) (.nil _), fun job seat h => ?_⟩
    cases h
    exact .inr ⟨_, rfl, fun v hv => hv⟩

/-- A call of the sink goes on until the sink has returned, or has panicked. -/
theorem goes_of_calling {event : Json} {a : Act Co Fu Json} (hjob : d.job = .coroutine co passes kind)
    (hends : ∀ v, a.Ends v → (sinkOf p d.task.scheduler event).Ends v) :
    ∃ ph, PutPhase.Goes (sinkOf p d.task.scheduler) (.calling event)
        ((Doing.dispatch a {}).putEvents d) ph ∧
      ∀ job seat, Stride p l d (.dispatch a {}) job seat → ph.Sits (sinkOf p d.task.scheduler) seat := by
  rw [putEvents_of_job hjob]
  cases a with
  | ret v =>
    refine ⟨.answered v, .cons (.returned event (hends v (.ret v))) (.nil _), fun job seat h => ?_⟩
    cases h with
    | dispatched v spot => rfl
    | dispatches ha spot => cases ha
  | panic =>
    refine ⟨.calling event, .nil _, fun job seat h => ?_⟩
    cases h with
    | dispatchPanics spot => exact .inl rfl
    | dispatches ha spot => cases ha
  | _ =>
    refine ⟨.calling event, .nil _, fun job seat h => ?_⟩
    cases h
    exact .inr ⟨_, rfl, fun v hv => hends v (ends_of_perform p l _ hv)⟩

end

/-- **A step of a driver takes its put along.** -/
theorem goes_of_sits {ph : PutPhase} (hserves : ServesPuts p d.task.scheduler)
    (hjob : d.job ≠ .plain) (hs : ph.Sits (sinkOf p d.task.scheduler) (.working doing)) :
    ∃ ph', PutPhase.Goes (sinkOf p d.task.scheduler) ph (doing.putEvents d) ph' ∧
      ∀ job seat, Stride p l d doing job seat → ph'.Sits (sinkOf p d.task.scheduler) seat := by
  obtain ⟨co, passes, kind, hco⟩ : ∃ co passes kind, d.job = .coroutine co passes kind := by
    cases hd : d.job with
    | plain => exact absurd hd hjob
    | coroutine co passes kind => exact ⟨co, passes, kind, rfl⟩
  cases ph with
  | free => exact goes_of_clear p _ hserves hjob hs
  | routed event =>
    cases hs
    rw [putEvents_of_job hco]
    refine ⟨.owed event, .cons (.given event) (.nil _), fun job seat h => ?_⟩
    cases h
    exact .awaits
  | owed event => exact goes_of_defers p hco hs
  | calling event =>
    rcases hs with hs | ⟨a, hs, hends⟩
    · cases hs
      rw [putEvents_of_job hco]
      exact ⟨.calling event, .nil _, fun job seat h => nomatch h⟩
    · cases hs
      exact goes_of_calling p hco hends
  | answered v =>
    cases hs
    rw [putEvents_of_job hco]
    refine ⟨.delivered v, .cons (.resolved v) (.nil _), fun job seat h => ?_⟩
    cases h with
    | resolves hjob r => rfl
    | ends hplain r => exact absurd hplain hjob
  | delivered v =>
    cases hs
    rw [putEvents_of_job hco]
    refine ⟨.free, .cons (.resumed v co) (.nil _), fun job seat h => ?_⟩
    cases h with
    | resumed hjob input => trivial
    | unresumed hplain input => exact absurd hplain hjob

/-! ## Moves and runs -/

/-- What the driver `key` does in a move, as events on the way of a put. -/
def putEvents (l : EventLoop Co Fu) (m : Move Co Fu) (key : DriverKey) : List (PutEvent Co) :=
  match l.focus, m with
  | .active _ k doing, .step =>
    if k = key then ((l.driver? k).map fun d => doing.putEvents d).getD [] else []
  | _, _ => []

/-- What happens to the coroutine of the driver `key` and to its puts from a state on. -/
def putLogFrom (l : EventLoop Co Fu) (key : DriverKey) : List (Move Co Fu) → List (PutEvent Co)
  | [] => []
  | m :: moves =>
    (l.putEvents m key ++ (eventsOf key (newcomers l (l.move p m))).map .told) ++
      putLogFrom (l.move p m) key moves

/-- What happens to the coroutine of the driver `key` and to its puts in a run from the beginning. -/
def putLog (moves : List (Move Co Fu)) (key : DriverKey) : List (PutEvent Co) :=
  putLogFrom p {} key moves

theorem putLogFrom_append (l : EventLoop Co Fu) (key : DriverKey) (first rest : List (Move Co Fu)) :
    putLogFrom p l key (first ++ rest) =
      putLogFrom p l key first ++ putLogFrom p (l.after p first) key rest := by
  induction first generalizing l with
  | nil => rfl
  | cons m first ih =>
    rw [List.cons_append, putLogFrom, ih, putLogFrom, List.append_assoc _ (putLogFrom ..), after_cons]

theorem putLog_append (first rest : List (Move Co Fu)) (key : DriverKey) :
    putLog p (first ++ rest) key = putLog p first key ++ putLogFrom p (after p {} first) key rest :=
  putLogFrom_append p {} key first rest

theorem putLog_snoc (moves : List (Move Co Fu)) (m : Move Co Fu) (key : DriverKey) :
    putLog p (moves ++ [m]) key = putLog p moves key ++ ((after p {} moves).putEvents m key ++
      (eventsOf key (newcomers (after p {} moves) (after p {} (moves ++ [m])))).map .told) := by
  rw [putLog_append, putLogFrom, putLogFrom, List.append_nil, after_snoc]

variable {pollers : List (Poller Co Fu)}

theorem putEvents_of_driver (hfocus : l.focus = .active pollers d.key doing)
    (hd : l.driver? d.key = some d) : l.putEvents .step d.key = doing.putEvents d := by
  simp only [putEvents, hfocus, hd, if_true, Option.map_some, Option.getD_some]

theorem putEvents_of_not_acting {m : Move Co Fu} {key : DriverKey}
    (h : m = .step → ∀ pollers doing, l.focus ≠ .active pollers key doing) :
    l.putEvents m key = [] := by
  unfold putEvents
  split
  · rename_i pollers k doing hfocus
    split
    · rename_i hk
      exact absurd (hk ▸ hfocus) (h rfl pollers doing)
    · rfl
  · rfl

theorem putEvents_of_not_works (h : doing.works = false) : doing.putEvents d = [] := by
  unfold Doing.putEvents Doing.event? Doing.sink?
  cases doing with
  | poll => cases d.job <;> rfl
  | leave outcome => cases d.job <;> rfl
  | _ => cases h

/-- The log is the history of the coroutine, with the calls of the sink in between. -/
theorem told_putLog (moves : List (Move Co Fu)) (key : DriverKey) :
    (putLog p moves key).filterMap PutEvent.told? = history p moves key := by
  have hmap : ∀ es : List (TaskEvent Co),
      (es.map PutEvent.told).filterMap PutEvent.told? = es := by
    intro es
    simp [List.filterMap_map, Function.comp_def, PutEvent.told?]
  have hdoing : ∀ (d : Driver Co Fu) (doing : Doing Co Fu),
      (doing.putEvents d).filterMap PutEvent.told? = (doing.event? d).toList := by
    intro d doing
    rw [Doing.putEvents, List.filterMap_append, hmap]
    have hnone : (doing.sink? d).toList.filterMap PutEvent.told? = [] := by
      unfold Doing.sink?
      split <;> rfl
    rw [hnone, List.append_nil]
  induction moves using List.reverseRecOn with
  | nil => rfl
  | append_singleton moves m ih =>
    rw [putLog_snoc, history_snoc, List.filterMap_append, List.filterMap_append, ih, hmap, happenings,
      eventsOf_append, ← after_snoc]
    congr 2
    unfold putEvents acting
    cases (after p {} moves).focus with
    | idle => cases m <;> rfl
    | active pollers k doing =>
      cases m with
      | step =>
        dsimp only
        cases hd : (after p {} moves).driver? k with
        | none => simp [eventsOf]
        | some d =>
          dsimp only
          rw [eventsOf_toList]
          split
          · exact hdoing d doing
          · rfl
      | _ => rfl

/-- A driver whose seat does not change by a step of its own stays with its put. -/
theorem sits_of_seatMove {m : Move Co Fu} {ph : PutPhase} {dispatch : Json → Act Co Fu Json}
    (ho : Orderly l) (hd : d ∈ l.drivers) (hd' : d' ∈ (l.move p m).drivers) (hk : d'.key = d.key)
    (hacts : ∀ pollers doing, l.focus = .active pollers d.key doing → doing.works = false)
    (hs : ph.Sits dispatch (l.seat d)) : ph.Sits dispatch ((l.move p m).seat d') := by
  -- who does not work is between two puts, or rests with one
  have hcases : ∀ {seat : Seat Co Fu}, l.seat d = seat → (∀ doing, seat ≠ .working doing) →
      (ph = .free ∧ seat.Clear) ∨ ∃ event, ph = .owed event ∧
        seat = .resting (.pending (.waiting .turn [.deliver event])) := by
    intro seat hseat hw
    rw [hseat] at hs
    cases ph with
    | free => exact .inl ⟨rfl, hs⟩
    | owed event =>
      cases (show Seat.Defers event seat from hs) with
      | rests => exact .inr ⟨event, rfl, rfl⟩
      | _ => exact absurd rfl (hw _)
    | calling event =>
      rcases hs with hs | ⟨a, hs, _⟩
      · exact absurd hs (hw _)
      · exact absurd hs (hw _)
    | _ => exact absurd hs (hw _)
  cases seat_move p ho m hd hd' hk with
  | still he hseat _ =>
    subst he
    rwa [hseat]
  | broken he hactivity hidle hw =>
    subst he
    rw [seat_of_idle hidle, hactivity]
    rcases hcases rfl hw with ⟨rfl, _⟩ | ⟨event, _, hseat⟩
    · trivial
    · cases hactivity.symm.trans (activity_of_seat hseat)
  | @back polled spot outcome pollers doing he hseat hfocus hleft hl =>
    subst he
    rcases hcases hseat nofun with ⟨rfl, hc⟩ | ⟨_, _, h⟩
    · rw [hl, seat_focusOn_of_works _ _ rfl (by cases outcome <;> rfl)]
      cases outcome <;> exact hc
    · cases h
  | bodyBack he hseat hl =>
    subst he
    rcases hcases hseat nofun with ⟨rfl, _⟩ | ⟨_, _, h⟩
    · rw [hl, seat_focusOn_of_works _ _ rfl rfl]
      trivial
    · cases h
  | @begins pollers hfocus hseat hl =>
    rw [hl] at hd' ⊢
    cases hactivity : d.activity with
    | fresh =>
      rw [hactivity] at hseat
      rcases hcases hseat nofun with ⟨rfl, _⟩ | ⟨_, _, h⟩
      · rw [stepDriver_poll_fresh p pollers hactivity, seat_focusOn_of_works _ _ hk rfl]
        trivial
      · cases h
    | busy =>
      rw [stepDriver_poll_busy p pollers hactivity] at hd' ⊢
      cases ho.eq_of_key hd' hd hk
      rw [seat_of_not_works hfocus rfl] at hs hseat
      rwa [seat_focusOn_of_not_works _ _ rfl]
    | pending branch =>
      rw [hactivity] at hseat
      rw [stepDriver_poll_pending p pollers hactivity, seat_focusOn_of_works _ _ hk rfl]
      rcases hcases hseat nofun with ⟨rfl, hc⟩ | ⟨event, rfl, h⟩
      · exact hc
      · cases h
        exact .visits
  | acts hfocus hw hl =>
    rw [hacts _ _ hfocus] at hw
    cases hw

/-- **A move takes the put of a coroutine along.** -/
theorem sits_move {ph : PutPhase} (ho : Orderly l) (m : Move Co Fu) (hd : d ∈ l.drivers)
    (hserves : ServesPuts p d.task.scheduler) (hjob : d.job ≠ .plain)
    (hs : ph.Sits (sinkOf p d.task.scheduler) (l.seat d)) :
    ∃ ph', PutPhase.Goes (sinkOf p d.task.scheduler) ph (l.putEvents m d.key) ph' ∧
      ∀ d' ∈ (l.move p m).drivers, d'.key = d.key →
        ph'.Sits (sinkOf p d.task.scheduler) ((l.move p m).seat d') := by
  by_cases hacts : m = .step ∧ ∃ pollers doing, l.focus = .active pollers d.key doing ∧
      doing.works = true
  · obtain ⟨rfl, pollers, doing, hfocus, hw⟩ := hacts
    have hf := driver?_of_mem ho hd
    rw [seat_of_works hfocus hw] at hs
    obtain ⟨ph', hgoes, hsits⟩ := goes_of_sits p hserves hjob hs
    rw [putEvents_of_driver hfocus hf]
    refine ⟨ph', hgoes, fun d' hd' hk => ?_⟩
    have hl := move_step_of_driver p hfocus hf fun outcome he => by
      rw [he] at hw
      cases hw
    rw [hl] at hd' ⊢
    exact hsits _ _ (stride_stepDriver p ho hd hfocus hw hd' hk)
  · have hnone : l.putEvents m d.key = [] := by
      by_cases hfocus : m = .step ∧ ∃ pollers doing, l.focus = .active pollers d.key doing
      · obtain ⟨rfl, pollers, doing, hfocus⟩ := hfocus
        rw [putEvents_of_driver hfocus (driver?_of_mem ho hd)]
        refine putEvents_of_not_works (Bool.eq_false_iff.mpr fun hw => ?_)
        exact hacts ⟨rfl, pollers, doing, hfocus, hw⟩
      · exact putEvents_of_not_acting fun hm pollers doing hf => hfocus ⟨hm, pollers, doing, hf⟩
    rw [hnone]
    refine ⟨ph, .nil ph, fun d' hd' hk => ?_⟩
    by_cases hrefused : m ≠ .step ∧ l.focus ≠ .idle
    · obtain ⟨hm, hidle⟩ := hrefused
      obtain ⟨pollers, k, doing, hfocus⟩ : ∃ pollers k doing, l.focus = .active pollers k doing := by
        cases hfocus : l.focus with
        | idle => exact absurd hfocus hidle
        | active pollers k doing => exact ⟨pollers, k, doing, rfl⟩
      rw [move_of_active p hfocus hm] at hd' ⊢
      rwa [ho.eq_of_key hd' hd hk]
    · refine sits_of_seatMove p ho hd hd' hk (fun pollers doing hfocus => ?_) hs
      have hm : m = .step := by
        by_contra hm
        exact hrefused ⟨hm, by rw [hfocus]; exact nofun⟩
      exact Bool.eq_false_iff.mpr fun hw => hacts ⟨hm, pollers, doing, hfocus, hw⟩

/-- The log of a driver is empty, if it drives no coroutine, or it begins with the coroutine becoming a
task and goes on as puts do, and the driver sits where that leads if it is still there. -/
def Posted (l : EventLoop Co Fu) (key : DriverKey) (log : List (PutEvent Co)) : Prop :=
  (log = [] ∧ ∀ d ∈ l.drivers, d.key = key → d.job = .plain) ∨
  ∃ s co rest, log = .told (.entered s co) :: rest ∧ key.val ≤ l.lastKey ∧
    (ServesPuts p s → ∃ ph, PutPhase.Goes (sinkOf p s) .free rest ph ∧
      ∀ d ∈ l.drivers, d.key = key → ph.Sits (sinkOf p s) (l.seat d))

/-- A driver that no longer is there does nothing. -/
theorem putEvents_of_gone {key : DriverKey} (h : ∀ d ∈ l.drivers, d.key = key → d.job = .plain)
    (m : Move Co Fu) : l.putEvents m key = [] := by
  unfold putEvents
  split
  · rename_i pollers k doing hfocus
    split
    · rename_i hk
      cases hd : l.driver? k with
      | none => rfl
      | some d =>
        have hjob := h d (mem_of_driver? hd) ((key_of_driver? hd).trans hk)
        simp [Doing.putEvents, Doing.event?, Doing.sink?, hjob]
    · rfl
  · rfl

theorem posted_new (ho : Orderly l) {key : DriverKey} (hnew : l.lastKey < key.val) (m : Move Co Fu) :
    Posted p (l.move p m) key
      ((eventsOf key (newcomers l (l.move p m))).map PutEvent.told) := by
  have ho' := orderly_move p ho m
  by_cases hex : ∃ d ∈ (l.move p m).drivers, d.key = key
  · obtain ⟨d, hd, rfl⟩ := hex
    rw [eventsOf_newcomers_of_mem ho' hd hnew]
    have hone : ∀ d' ∈ (l.move p m).drivers, d'.key = d.key → d' = d :=
      fun d' hd' => ho'.eq_of_key hd' hd
    obtain ⟨current, x, hx, rfl⟩ := arrival_move p ho.proper m hd hnew
    have haway : (x.driver p l current).key ∉ (l.move p m).held := by
      intro hheld
      have := held_move_le p ho m _ hheld
      omega
    have hseat := seat_of_not_held haway
    unfold Driver.entry?
    rw [Arrival.job_driver]
    cases hwork : x.work with
    | pending fu =>
      refine .inl ⟨by simp [Arrival.job, hwork], fun d' hd' hk => ?_⟩
      rw [hone d' hd' hk, Arrival.job_driver, Arrival.job, hwork]
    | coroutine co =>
      refine .inr ⟨x.scheduler, co, [], by simp [Arrival.job, hwork], (ho'.proper _ hd).1, fun _ => ?_⟩
      refine ⟨.free, .nil _, fun d' hd' hk => ?_⟩
      rw [hone d' hd' hk, hseat, Arrival.activity_driver, Arrival.activity, hwork]
      trivial
  · have hnone : ∀ d ∈ (l.move p m).drivers, d.key ≠ key := fun d hd hk => hex ⟨d, hd, hk⟩
    refine .inl ⟨?_, fun d hd hk => absurd hk (hnone d hd)⟩
    rw [eventsOf_newcomers_of_forall_ne hnone, List.map_nil]

/-- The driver of a coroutine that became a task of a scheduler drives a coroutine for it. -/
theorem coroutine_of_entered {s : SchedulerId} {co : Co} {told : List (TaskEvent Co)}
    (h : Told p l d.key (.entered s co :: told)) (hd : d ∈ l.drivers) :
    d.job ≠ .plain ∧ d.task.scheduler = s := by
  rcases h with ⟨hnone, _⟩ | ⟨_, _, _, _, he, _, _, hstands⟩
  · cases hnone
  · cases he
    obtain ⟨hs, hst⟩ := hstands d hd rfl
    obtain ⟨_, _, _, hjob⟩ := exists_job_of_stands hst
    rw [hjob]
    exact ⟨nofun, hs⟩

theorem posted_move (ho : Orderly l) {key : DriverKey} {log : List (PutEvent Co)}
    (h : Posted p l key log) (htold : Told p l key (log.filterMap PutEvent.told?)) (m : Move Co Fu) :
    Posted p (l.move p m) key (log ++ (l.putEvents m key ++
      (eventsOf key (newcomers l (l.move p m))).map .told)) := by
  rcases h with ⟨rfl, hplain⟩ | ⟨s, co, rest, rfl, hle, hrest⟩
  · rw [putEvents_of_gone hplain, List.nil_append, List.nil_append]
    by_cases hnew : l.lastKey < key.val
    · exact posted_new p ho hnew m
    · have hle : key.val ≤ l.lastKey := Nat.not_lt.mp hnew
      rw [eventsOf_newcomers_old hle]
      refine .inl ⟨rfl, fun d' hd' hk => ?_⟩
      obtain ⟨d, hd, hkd, _, hjob⟩ := exists_before p ho m hd' (hk ▸ hle)
      exact hjob (hplain d hd (hkd.symm.trans hk))
  · rw [eventsOf_newcomers_old hle, List.map_nil, List.append_nil, List.cons_append]
    obtain ⟨_, _, htouches⟩ := touches_move p ho.proper m
    refine .inr ⟨s, co, _, rfl, Nat.le_trans hle htouches.lastKey_le, fun hserves => ?_⟩
    obtain ⟨ph, hgoes, hsits⟩ := hrest hserves
    by_cases hex : ∃ d ∈ l.drivers, d.key = key
    · obtain ⟨d, hd, rfl⟩ := hex
      obtain ⟨hjob, rfl⟩ := coroutine_of_entered p htold hd
      obtain ⟨ph', hgoes', hsits'⟩ := sits_move p ho m hd hserves hjob (hsits d hd rfl)
      exact ⟨ph', hgoes.append hgoes', hsits'⟩
    · rw [putEvents_of_gone fun d hd hk => absurd ⟨d, hd, hk⟩ hex, List.append_nil]
      refine ⟨ph, hgoes, fun d' hd' hk => ?_⟩
      obtain ⟨d, hd, hkd, _⟩ := exists_before p ho m hd' (hk ▸ hle)
      exact absurd ⟨d, hd, hkd.symm.trans hk⟩ hex

/-- **The log of every driver in every run goes on as puts do.** -/
theorem posted_after (moves : List (Move Co Fu)) (key : DriverKey) :
    Posted p (after p {} moves) key (putLog p moves key) := by
  induction moves using List.reverseRecOn with
  | nil => exact .inl ⟨rfl, fun _ h => nomatch h⟩
  | append_singleton moves m ih =>
    have htold := told_after p moves key
    rw [← told_putLog] at htold
    rw [putLog_snoc, after_snoc]
    exact posted_move p (orderly_after p moves) ih htold m

end

end EventLoop

end EffectLoop
