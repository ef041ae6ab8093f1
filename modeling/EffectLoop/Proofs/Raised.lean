import EffectLoop.Proofs.Answers
import EffectLoop.Proofs.Kin

/-!
# Where an unfit argument comes from

Whatever the loop answers a coroutine with on its own account is no `EffectError.invalidArgument`: not the
missing processor, the passes in a row, the wrong kind of effect, the early termination or the loss of a
driver. But an outcome is passed on as it is, through calls and joins of any depth. So whoever is resumed
with an unfit argument has called or joined something, and at the other end user code has ended with that
very error (`Raised`, `invalid_argument_was_raised`).

What is followed is where errors are kept: in outcomes, and in what a driver holds in the middle of its
work (`Seat.ErrorsIn`).
-/

namespace EffectLoop

variable {Co Fu α : Type}

/-! ## The errors that are kept -/

section

variable (E : EffectError → Prop)

/-- An error, if this is one, is among these. -/
def ErrorIn (r : Except EffectError α) : Prop := ∀ e, r = .error e → E e

def Branch.ErrorsIn : Branch Fu → Prop
  | .finished r => ErrorIn E r
  | .both left right _ _ => left.ErrorsIn ∧ right.ErrorsIn
  | .unbegun _ | .waiting _ _ => True

def Fork.ErrorsIn : Fork Fu → Prop
  | .left branch _ _ | .right branch _ _ => branch.ErrorsIn E

/-- The errors that a driver holds when it is about to do something. -/
def Doing.ErrorsIn : Doing Co Fu → Prop
  | .resume r => ErrorIn E r
  | .visit branch forks | .pause branch forks =>
    branch.ErrorsIn E ∧ ∀ fork ∈ forks, fork.ErrorsIn E
  | .work _ spot | .process _ _ spot | .invoke _ _ _ spot | .dispatch _ spot | .await _ spot =>
    ∀ fork ∈ spot.forks, fork.ErrorsIn E
  | .answer r spot => ErrorIn E r ∧ ∀ fork ∈ spot.forks, fork.ErrorsIn E
  | .finish o => ErrorIn E o
  | .poll | .advance _ | .leave _ | .crash => True

def Activity.ErrorsIn : Activity Fu → Prop
  | .pending branch => branch.ErrorsIn E
  | .fresh | .busy => True

def Seat.ErrorsIn : Seat Co Fu → Prop
  | .working doing => doing.ErrorsIn E
  | .polling _ spot => ∀ fork ∈ spot.forks, fork.ErrorsIn E
  | .resting activity => activity.ErrorsIn E
  | .body _ _ => True

end

theorem errorIn_ok {E : EffectError → Prop} (a : α) : ErrorIn E (.ok a) := fun _ h => nomatch h

theorem errorIn_error {E : EffectError → Prop} {e : EffectError} (h : E e) :
    ErrorIn E (.error e : Except EffectError α) := by
  rintro _ ⟨⟩
  exact h

theorem ErrorIn.map {E : EffectError → Prop} {β : Type} {r : Except EffectError α} (h : ErrorIn E r)
    (f : α → β) : ErrorIn E (r.map f) := by
  cases r with
  | ok a => exact errorIn_ok _
  | error e => exact errorIn_error (h e rfl)

/-- User code is about to end with an error: the coroutine of a driver, or its computation. -/
inductive Doing.Raises (e : EffectError) : Doing Co Fu → Prop
  | coroutine (co : Co) : Raises e (.advance (.ret (.done (.error e) co)))
  | computation (spot : Spot Fu) : Raises e (.work (.ret (.done (.error e))) spot)

namespace EventLoop

/-- In the course of a run user code has ended with an error. -/
def Raised (p : Program Co Fu) (moves : List (Move Co Fu)) (e : EffectError) : Prop :=
  ∃ first pollers key doing, first ++ [.step] <+: moves ∧
    (after p {} first).focus = .active pollers key doing ∧ doing.Raises e

section

variable (p : Program Co Fu) {l : EventLoop Co Fu} {d d' : Driver Co Fu} {doing : Doing Co Fu}
  {job : Job Co} {seat : Seat Co Fu} {E : EffectError → Prop}

/-- The errors that are kept in a state: by drivers and in outcomes. -/
structure ErrorsIn (E : EffectError → Prop) (l : EventLoop Co Fu) : Prop where
  seats : ∀ d ∈ l.drivers, (l.seat d).ErrorsIn E
  activities : ∀ d ∈ l.drivers, d.activity.ErrorsIn E
  outcomes : ∀ t o, l.outcome? t = some o → ErrorIn E o

theorem errorsIn_builtinDoing (hloop : ∀ e, (∀ reason, e ≠ .invalidArgument reason) → E e) {b : Builtin}
    {e : Effect} {spot : Spot Fu} (h : ∀ fork ∈ spot.forks, fork.ErrorsIn E) :
    (builtinDoing p b e spot : Doing Co Fu).ErrorsIn E := by
  have hmismatch : (Doing.answer (.error (mismatch b e)) spot : Doing Co Fu).ErrorsIn E :=
    ⟨errorIn_error (hloop _ fun _ => nofun), h⟩
  cases b with
  | _ => cases e <;> first | exact h | exact hmismatch

/-- What is waited for resolves with errors of outcomes only. -/
theorem errorIn_peek (houtcomes : ∀ t o, l.outcome? t = some o → ErrorIn E o) {w : Wait} {r : Resume}
    (h : l.peek w = some r) : ErrorIn E r := by
  cases w with
  | sleep deadline =>
    unfold peek at h
    dsimp only at h
    split at h
    · cases h
      exact errorIn_ok _
    · cases h
  | gate name =>
    obtain ⟨v, _, rfl⟩ := Option.map_eq_some_iff.mp h
    exact errorIn_ok _
  | task t =>
    obtain ⟨o, ho, rfl⟩ := Option.map_eq_some_iff.mp h
    exact (houtcomes t o ho).map _
  | _ => cases h

/-- **A step keeps no error that was not kept before**, but those of the loop and one that user code
raises in that step. -/
theorem errorsIn_stride (hloop : ∀ e, (∀ reason, e ≠ .invalidArgument reason) → E e)
    (h : Stride p l d doing job seat) (houtcomes : ∀ t o, l.outcome? t = some o → ErrorIn E o)
    (hrest : d.activity.ErrorsIn E) (hraises : ∀ e, doing.Raises e → E e) (hd : doing.ErrorsIn E) :
    seat.ErrorsIn E := by
  cases h with
  | resumed _ input => trivial
  | unresumed _ input => exact hrest
  | more co => trivial
  | body key k => trivial
  | advances ha => trivial
  | advancePanics => trivial
  | returns o co => exact fun e he => hraises e (he ▸ .coroutine co)
  | passed _ o co h => exact errorIn_ok o
  | exceeds _ o co h hlt => exact errorIn_error (hloop _ fun _ => nofun)
  | routed _ e co h => exact List.forall_mem_nil _
  | unknown _ e co h => exact errorIn_error (hloop _ fun _ => nofun)
  | unyielded _ y co => exact hrest
  | begun fu forks => exact hd.2
  | visitsNested key frames forks => exact hd.2
  | visitsTurn frames forks => exact ⟨errorIn_ok _, hd.2⟩
  | visitsReady frames forks h => exact ⟨errorIn_peek houtcomes h, hd.2⟩
  | visitsWaiting frames forks ht h => exact hd
  | visitsBoth left right k frames forks =>
    exact ⟨hd.1.1, List.forall_mem_cons.mpr ⟨hd.1.2, hd.2⟩⟩
  | visitsFinished r forks => exact hd
  | pausesLeft branch right k frames forks =>
    obtain ⟨hright, hforks⟩ := List.forall_mem_cons.mp hd.2
    exact ⟨hright, List.forall_mem_cons.mpr ⟨hd.1, hforks⟩⟩
  | pausesRight branch left k frames forks =>
    obtain ⟨hleft, hforks⟩ := List.forall_mem_cons.mp hd.2
    exact ⟨⟨hleft, hd.1⟩, hforks⟩
  | rests branch => exact hd.1
  | works ha spot => exact hd
  | workPanics spot => trivial
  | workDone r spot => exact ⟨fun e he => hraises e (he ▸ .computation spot), hd⟩
  | workWaits w k spot => exact hd
  | workDelegates b e k spot => exact hd
  | workForks left right k spot => exact List.forall_mem_cons.mpr ⟨trivial, hd⟩
  | processesOwn number e spot => exact hd
  | processes b e spot => exact errorsIn_builtinDoing p hloop hd
  | invokes b target ha spot => exact hd
  | invokePanics b target spot => trivial
  | forked target invoked spot => exact ⟨errorIn_ok _, hd⟩
  | calledPending hb target fu spot => exact hd
  | calledCoroutine hb target co spot => exact hd
  | dispatches ha spot => exact hd
  | dispatchPanics spot => trivial
  | dispatched v spot => exact ⟨errorIn_ok _, hd⟩
  | awaitsNested key spot => exact hd
  | awaitsReady spot h => exact ⟨errorIn_peek houtcomes h, hd⟩
  | awaits spot h => exact ⟨trivial, hd⟩
  | answersCode r k frames forks => exact hd.2
  | answersCall r frames forks => exact ⟨hd.1.map _, hd.2⟩
  | delivers r event frames forks => exact hd.2
  | answersLeft r right k frames forks =>
    obtain ⟨hright, hforks⟩ := List.forall_mem_cons.mp hd.2
    exact ⟨hright, List.forall_mem_cons.mpr ⟨hd.1, hforks⟩⟩
  | answersBoth r r' k frames forks => exact (List.forall_mem_cons.mp hd.2).2
  | answersRight r hleft k frames forks =>
    obtain ⟨hfirst, hforks⟩ := List.forall_mem_cons.mp hd.2
    exact ⟨⟨hfirst, hd.1⟩, hforks⟩
  | resolves _ r => exact hd.1
  | ends _ r => exact hd.1.map _

/-! ## Moves and runs -/

variable {moves : List (Move Co Fu)} {m : Move Co Fu}

/-- What a run keeps of errors: those of the loop itself, and those that user code has raised by then. -/
def Sourced (moves : List (Move Co Fu)) (e : EffectError) : Prop :=
  (∀ reason, e ≠ .invalidArgument reason) ∨ Raised p moves e

/-- A driver that was entered in a move has no error to keep yet. -/
theorem errorsIn_arrival (x : Arrival Co Fu) : x.activity.ErrorsIn E := by
  unfold Arrival.activity
  split <;> trivial

section

variable (hloop : ∀ e, (∀ reason, e ≠ .invalidArgument reason) → E e)
  (hraises : ∀ pollers key doing e, m = .step → (after p {} moves).focus = .active pollers key doing →
    doing.Raises e → E e) (h : (after p {} moves).ErrorsIn E)
include hloop h

/-- The outcomes after a move: a driver has ended with an error that it held, or the loop has decided. -/
theorem errorIn_outcome_move {t : TaskHandle} {o : Outcome}
    (ho : ((after p {} moves).move p m).outcome? t = some o) : ErrorIn E o := by
  cases hnow : (after p {} moves).outcome? t with
  | some o' =>
    rw [← after_snoc] at ho
    cases (outcome_after p hnow [m]).symm.trans ho
    exact h.outcomes t o hnow
  | none =>
    obtain ⟨a, ha, _, _, rfl⟩ := attempt_of_move p hnow ho
    cases a with
    | outcome duty o =>
      obtain ⟨_, pollers, d, hfocus, hd, _⟩ := finishing_of_posting p ha
      have hseat := h.seats d (mem_of_driver? hd)
      rw [seat_of_works hfocus rfl] at hseat
      exact hseat
    | abandon duty => exact errorIn_error (hloop _ fun _ => nofun)
    | terminate s id => exact errorIn_error (hloop _ fun _ => nofun)

include hraises in
/-- **A move of a driver keeps no error that was not kept before.** -/
theorem errorsIn_seat_move (hd : d ∈ (after p {} moves).drivers)
    (hd' : d' ∈ ((after p {} moves).move p m).drivers) (hk : d'.key = d.key) :
    (((after p {} moves).move p m).seat d').ErrorsIn E ∧ d'.activity.ErrorsIn E := by
  have ho := orderly_after p moves
  have hseats := h.seats d hd
  have hrest := h.activities d hd
  cases seat_move p ho m hd hd' hk with
  | still he hseat _ =>
    subst he
    exact ⟨hseat ▸ hseats, hrest⟩
  | broken he _ hidle _ =>
    subst he
    exact ⟨seat_of_idle hidle d' ▸ hrest, hrest⟩
  | @back polled spot outcome pollers doing he hseat hfocus hleft hl =>
    subst he
    refine ⟨?_, hrest⟩
    rw [hseat] at hseats
    rw [hl, seat_focusOn_of_works _ _ rfl (by cases outcome <;> rfl)]
    cases outcome with
    | none => exact ⟨trivial, hseats⟩
    | some o =>
      obtain rfl | ⟨hnone, _⟩ := hleft
      · obtain ⟨_, f, _, _, _, _, hover⟩ := outcome_of_over p hfocus
        exact ⟨(h.outcomes f.task o hover).map _, hseats⟩
      · cases hnone
  | @bodyBack polled k outcome pollers he hseat hl =>
    subst he
    rw [hl, seat_focusOn_of_works _ _ rfl rfl]
    exact ⟨trivial, hrest⟩
  | @begins pollers hfocus hseat hl =>
    rw [hl] at hd' ⊢
    cases hactivity : d.activity with
    | fresh =>
      rw [stepDriver_poll_fresh p pollers hactivity] at hd' ⊢
      cases ho.eq_of_key hd' hd hk
      rw [seat_focusOn_of_works _ _ rfl rfl]
      exact ⟨errorIn_ok _, hrest⟩
    | busy =>
      rw [stepDriver_poll_busy p pollers hactivity] at hd' ⊢
      cases ho.eq_of_key hd' hd hk
      refine ⟨?_, hrest⟩
      rw [seat_focusOn_of_not_works _ _ rfl, ← seat_of_not_works hfocus rfl]
      exact hseats
    | pending branch =>
      rw [stepDriver_poll_pending p pollers hactivity] at hd' ⊢
      have hown : d' = { d with activity := .busy } :=
        eq_of_mem_modifyDriver (fun x hx => ho.eq_of_key hx hd) hd' hk
      rw [seat_focusOn_of_works _ _ hk rfl, hown]
      rw [hactivity] at hrest
      exact ⟨⟨hrest, List.forall_mem_nil _⟩, trivial⟩
  | @acts pollers doing hfocus hw hl =>
    by_cases hm : m = .step
    · have hstride : Stride p (after p {} moves) d doing d'.job
          (((after p {} moves).move p m).seat d') := by
        rw [hl] at hd' ⊢
        exact stride_stepDriver p ho hd hfocus hw hd' hk
      rw [seat_of_works hfocus hw] at hseats
      have hseat := errorsIn_stride p hloop hstride h.outcomes hrest
        (fun e => hraises pollers d.key doing e hm hfocus) hseats
      refine ⟨hseat, ?_⟩
      rw [hl] at hd' hseat
      have hleave : ∀ outcome, doing ≠ .leave outcome := by
        rintro outcome rfl
        cases hw
      obtain he | he | he := (driverStep_stepDriver p _ pollers d (ho.proper d hd).1 hleave).activity p
        (fun x hx => ho.eq_of_key hx hd) (ho.proper d hd).1 hd' hk
      · exact he ▸ hrest
      · exact he ▸ trivial
      · have hdistinct := ho.distinct
        rw [held_of_works hfocus hw, List.nodup_cons, ← hk] at hdistinct
        rw [seat_of_not_works he rfl, seatIn_of_not_mem hdistinct.1] at hseat
        exact hseat
    · rw [move_of_active p hfocus hm] at hd' ⊢
      cases ho.eq_of_key hd' hd hk
      exact ⟨hseats, hrest⟩

include hraises in
/-- A move keeps no error that was not kept before, whoever keeps it. -/
theorem errorsIn_driver_move (hd' : d' ∈ ((after p {} moves).move p m).drivers) :
    (((after p {} moves).move p m).seat d').ErrorsIn E ∧ d'.activity.ErrorsIn E := by
  have ho := orderly_after p moves
  by_cases hold : d'.key.val ≤ (after p {} moves).lastKey
  · obtain ⟨d, hd, hk, _, _⟩ := exists_before p ho m hd' hold
    exact errorsIn_seat_move p hloop hraises h hd hd' hk
  · obtain ⟨current, x, _, rfl⟩ := arrival_move p ho.proper m hd' (Nat.lt_of_not_le hold)
    have haway : (x.driver p (after p {} moves) current).key ∉ ((after p {} moves).move p m).held :=
      fun hheld => hold (held_move_le p ho m _ hheld)
    rw [seat_of_not_held haway]
    exact ⟨errorsIn_arrival x, errorsIn_arrival x⟩

include hraises in
theorem errorsIn_move : ((after p {} moves).move p m).ErrorsIn E where
  seats := fun _ hd' => (errorsIn_driver_move p hloop hraises h hd').1
  activities := fun _ hd' => (errorsIn_driver_move p hloop hraises h hd').2
  outcomes := fun _ _ ho => errorIn_outcome_move p hloop h ho
end

/-- **Errors come from somewhere**: whatever a run keeps of errors is the loop's own, or user code has
ended with it. -/
theorem errorsIn_after {total : List (Move Co Fu)} (hmoves : moves <+: total) :
    (after p {} moves).ErrorsIn (Sourced p total) := by
  induction moves using List.reverseRecOn with
  | nil => exact ⟨nofun, nofun, nofun⟩
  | append_singleton moves m ih =>
    rw [after_snoc]
    refine errorsIn_move p (fun e he => .inl he) ?_ (ih ((List.prefix_append ..).trans hmoves))
    rintro pollers key doing e rfl hfocus he
    exact .inr ⟨moves, pollers, key, doing, hmoves, hfocus, he⟩

/-! ## Who is resumed with an unfit argument -/

theorem eq_error_of_map {o : Outcome} {e : EffectError}
    (h : (.error e : Resume) = o.map Output.value) : o = .error e := by
  cases o with
  | ok v => cases h
  | error e' =>
    cases h
    rfl

/-- With the built-in processors only a call and a join are answered with an unfit argument; and the join
because that is the outcome of the task. -/
theorem called_or_joined {key : DriverKey} {s : SchedulerId} {co₀ co : Co} {told : List (TaskEvent Co)}
    {ref : ProcessorRef} {e : Effect} {reason : String}
    (hbuiltin : (p.scheduler s).processors = .builtin)
    (href : (p.scheduler s).processors.get? e.kind = some ref)
    (h : history p moves key = .entered s co₀ :: told ++ [.yielded (.effect e) co, .given ref e,
      .resolved (.error (.invalidArgument reason))]) :
    (∃ target args, e = .call target args) ∨
      ∃ t, e = .join t ∧ (after p {} moves).outcome? t = some (.error (.invalidArgument reason)) := by
  rw [hbuiltin] at href
  obtain ⟨b, rfl, hkind⟩ := ProcessorTable.eq_of_get?_builtin href
  have hgiven : history p moves key = (.entered s co₀ :: told ++ [.yielded (.effect e) co]) ++
      .given (.builtin b) e :: .resolved (.error (.invalidArgument reason)) :: [] := by
    rw [h, List.append_assoc]
    rfl
  cases e with
  | call target args => exact .inl ⟨target, args, rfl⟩
  | put event =>
    obtain ⟨v, _, hv⟩ := resolved_of_put p (s := s) (show (p.scheduler s).processors.get? .put = _ by
      rw [hbuiltin]; rfl) h
    cases hv
  | fork target args =>
    cases b <;> cases hkind
    obtain ⟨t, ht, _⟩ := forked_of_resolved p hgiven
    cases ht
  | join t =>
    cases b <;> cases hkind
    obtain ⟨o, ho, hrest⟩ := (history_joined p moves hgiven).resolve_left nofun
    have hr : (.error (.invalidArgument reason) : Resume) = o.map .value := by
      rcases hrest with he | ⟨co', more, he⟩
      · exact TaskEvent.resolved.inj (List.cons.inj he).1
      · cases (List.cons.inj he).2
    cases eq_error_of_map hr
    exact .inr ⟨t, rfl, ho⟩
  | custom tag payload => cases b <;> cases hkind

/-- **An unfit argument that is delivered was raised elsewhere.** With the built-in processors a coroutine
is resumed with one only as the answer to a call or a join, and user code has ended with that very error
before: what the call has come to, or the task that was joined, is passed on as it is. -/
theorem invalid_argument_was_raised {key : DriverKey} {s : SchedulerId} {co₀ co : Co} {reason : String}
    {past rest : List (TaskEvent Co)} (hbuiltin : (p.scheduler s).processors = .builtin)
    (h : history p moves key =
      .entered s co₀ :: past ++ .resumed co (.error (.invalidArgument reason)) :: rest) :
    ∃ first told ref e, first ++ [.step] <+: moves ∧ history p first key = .entered s co₀ :: past ∧
      past = told ++ [.yielded (.effect e) co, .given ref e,
        .resolved (.error (.invalidArgument reason))] ∧
      Raised p first (.invalidArgument reason) ∧
      ((∃ target args, e = .call target args) ∨ ∃ t, e = .join t ∧
        (after p {} first).outcome? t = some (.error (.invalidArgument reason))) := by
  obtain ⟨first, pollers, d, doing, hle, hpast, rfl, hfocus, hd, he⟩ := exists_step_of_event p h rfl
  have hnext : history p (first ++ [.step]) d.key =
      .entered s co₀ :: (past ++ [.resumed co (.error (.invalidArgument reason))]) := by
    rw [history_step p hfocus hd, he, hpast]
    rfl
  obtain ⟨ph, hp⟩ := protocol_of_history p hnext
  obtain ⟨_, howed, hn⟩ := hp.last
  cases hn with
  | resumed _ _ passes =>
    rcases howed.cases_of_owed with ⟨_, hnull⟩ | ⟨_, o, _, hpassed⟩ | ⟨told, ref, e, rfl, href⟩
    · cases hnull
    · cases hpassed
    · have hraised : Raised p first (.invalidArgument reason) := by
        have hseat := (errorsIn_after p (List.prefix_refl first)).seats d (mem_of_driver? hd)
        obtain rfl : doing = .resume (.error (.invalidArgument reason)) := by
          unfold Doing.event? at he
          split at he <;> cases he
          rfl
        rw [seat_of_works hfocus rfl] at hseat
        exact (hseat _ rfl).resolve_left fun hne => hne reason rfl
      exact ⟨first, told, ref, e, hle, hpast, rfl, hraised, called_or_joined p hbuiltin href hpast⟩

end

/-- Coroutine 1 calls a target, which gives coroutine 2, which makes an effect without a tag and does not
catch the error. -/
def callsUnfit : Program Nat Unit where
  scheduler := fun _ => { sink := ⟨"sink"⟩ }
  resume := fun co _ => co
  advance := fun co =>
    if co = 1 then .ret (.yield (.effect (.call ⟨"target", .coroutine, ⟨"unfit", []⟩⟩ [])) 0)
    else if co = 2 then .ret (match Effect.custom? "" (.object []) with
      | .ok e => .yield (.effect e) 0
      | .error e => .done (.error e) 0)
    else .ret (.done (.ok .null) 0)
  work := fun _ => .ret (.done (.ok (.value .null)))
  invoke := fun _ _ => .ret (.coroutine 2)
  process := fun _ _ _ => ()
  dispatch := fun _ _ => .ret .null

/-- The caller is polled until it is over. -/
def toUnfit : List (Move Nat Unit) :=
  [.act (.start ⟨0⟩ "caller" 1 fun _ => .ret ()), .poll ⟨1⟩] ++ List.replicate 16 .step

/-- The error of a creator that is called with an empty tag. -/
def untagged : EffectError := .invalidArgument "custom effect kind must not be empty"

def callsTarget : Effect := .call ⟨"target", .coroutine, ⟨"unfit", []⟩⟩ []

/-- What has happened to the caller when its call is answered. -/
def calledTarget : List (TaskEvent Nat) :=
  [.resumed 1 (.ok (.value .null)), .yielded (.effect callsTarget) 0,
    .given (.builtin .call) callsTarget, .resolved (.error untagged)]

theorem history_toUnfit : history callsUnfit toUnfit ⟨1⟩ =
    .entered ⟨0⟩ 1 :: calledTarget ++ .resumed 0 (.error untagged) ::
      [.returned (.ok .null), .ended (.ok .null)] := rfl

/-- What the target has raised is what its caller is resumed with. -/
theorem callsUnfit_raised : (callsUnfit.scheduler ⟨0⟩).processors = .builtin ∧
    .resumed 0 (.error untagged) ∈ history callsUnfit toUnfit ⟨1⟩ ∧
    ∃ first, first ++ [.step] <+: toUnfit ∧ Raised callsUnfit first untagged := by
  obtain ⟨first, _, _, _, hle, _, _, hraised, _⟩ :=
    invalid_argument_was_raised callsUnfit (s := ⟨0⟩) rfl history_toUnfit
  refine ⟨rfl, ?_, first, hle, hraised⟩
  rw [history_toUnfit]
  simp

/-- Although there are only the built-in processors, a coroutine is resumed with an unfit argument. -/
theorem unfit_argument_delivered : (∀ s, (callsUnfit.scheduler s).processors = .builtin) ∧
    .resumed 0 (.error (.invalidArgument "custom effect kind must not be empty")) ∈
      history callsUnfit toUnfit ⟨1⟩ := by
  refine ⟨fun _ => rfl, ?_⟩
  rw [history_toUnfit]
  simp [untagged]

end EventLoop

end EffectLoop
