import EffectLoop.Proofs.Forks
import EffectLoop.Proofs.Tables

/-!
# Built-in processors of another kind

A table may give a built-in processor for a kind that it was not made for, and user code may delegate any
effect to any of them. The processor then answers at once with a failure: `Refused` says so of every place
an effect can be processed at, `Misrouted` follows an effect from where a coroutine yields it to where the
coroutine is resumed. `Uneventful` is what a refusal leaves as it was.
-/

namespace EffectLoop

variable {Co Fu : Type}

namespace EventLoop

/-- Between two states nothing was dispatched, deferred, woken or registered, and no handle changed: there
are new records in the journal at most. -/
structure Uneventful (l l' : EventLoop Co Fu) : Prop where
  journal : ∃ records : List LogRecord, l'.journal = l.journal ++ records.map .record
  sinks : l'.sinks = l.sinks
  deferred : l'.deferred = l.deferred
  queue : l'.queue = l.queue
  waiting : l'.waiting = l.waiting
  numbers : ∀ s, (l'.activeTasks s).lastId = (l.activeTasks s).lastId
  registered : ∀ s, ((l'.activeTasks s).entries.map fun e => (e.id, e.name)) =
    (l.activeTasks s).entries.map fun e => (e.id, e.name)
  drivers : l'.drivers.map Driver.duty = l.drivers.map Driver.duty
  outcomes : ∀ t, l'.outcome? t = l.outcome? t
  world : l'.now = l.now ∧ l'.gates = l.gates ∧ l'.board = l.board

namespace Uneventful

variable {l l' l'' : EventLoop Co Fu}

theorem refl (l : EventLoop Co Fu) : Uneventful l l :=
  ⟨⟨[], (List.append_nil _).symm⟩, rfl, rfl, rfl, rfl, fun _ => rfl, fun _ => rfl, rfl, fun _ => rfl,
    rfl, rfl, rfl⟩

theorem trans (h : Uneventful l l') (h' : Uneventful l' l'') : Uneventful l l'' where
  journal := by
    obtain ⟨records, hrecords⟩ := h.journal
    obtain ⟨more, hmore⟩ := h'.journal
    exact ⟨records ++ more, by rw [hmore, hrecords, List.map_append, List.append_assoc]⟩
  sinks := h'.sinks.trans h.sinks
  deferred := h'.deferred.trans h.deferred
  queue := h'.queue.trans h.queue
  waiting := h'.waiting.trans h.waiting
  numbers := fun s => (h'.numbers s).trans (h.numbers s)
  registered := fun s => (h'.registered s).trans (h.registered s)
  drivers := h'.drivers.trans h.drivers
  outcomes := fun t => (h'.outcomes t).trans (h.outcomes t)
  world := ⟨h'.world.1.trans h.world.1, h'.world.2.1.trans h.world.2.1, h'.world.2.2.trans h.world.2.2⟩

theorem focusOn (h : Uneventful l l') (pollers : List (Poller Co Fu)) (key : DriverKey) (doing : Doing Co Fu) :
    Uneventful l (l'.focusOn pollers key doing) :=
  h.trans { refl l' with }

theorem record (h : Uneventful l l') (spans : List Span) (level : Level) (source : Source) (message : String)
    (fields : List LogField) : Uneventful l (l'.record spans level source message fields) :=
  h.trans { refl l' with journal := ⟨[_], rfl⟩ }

theorem setJob (h : Uneventful l l') (key : DriverKey) (job : Job Co) : Uneventful l (l'.setJob key job) :=
  h.trans { refl l' with drivers := congrArg Books.duties (l'.books_setJob key job) }

theorem setState (h : Uneventful l l') (t : TaskHandle) (state : TaskState) :
    Uneventful l (l'.setState t state) := by
  -- What noting a state leaves of one register it leaves of all.
  have hkeeps : ∀ {β : Type} (f : ActiveTasks → β),
      (∀ tasks : ActiveTasks, f (tasks.setState t.id state).1 = f tasks) →
        ∀ s, f ((l'.setState t state).activeTasks s) = f (l'.activeTasks s) := by
    intro β f hf s
    rw [EventLoop.setState, activeTasks_setTasks, Function.update_apply]
    split
    · rename_i hs
      rw [hf, hs]
    · rfl
  refine h.trans { refl l' with
    numbers := hkeeps ActiveTasks.lastId fun _ => rfl
    registered := hkeeps (fun tasks => tasks.entries.map fun e => (e.id, e.name)) fun tasks => ?_
    outcomes := fun t' => hkeeps (fun tasks => tasks.outcome? t'.id) (fun _ => rfl) t'.scheduler }
  show (tasks.entries.map _).map _ = _
  rw [List.map_map]
  refine List.map_congr_left fun e _ => ?_
  rw [Function.comp_apply]
  split <;> rfl

end Uneventful

/-! ## A refusal -/

/-- A built-in processor has nothing to do with an effect of another kind. -/
theorem builtinDoing_of_ne (p : Program Co Fu) {b : Builtin} {e : Effect} (h : e.kind ≠ b.kind)
    (spot : Spot Fu) : builtinDoing p b e spot = .answer (.error (mismatch b e)) spot := by
  unfold builtinDoing
  split
  · exact absurd rfl h
  · exact absurd rfl h
  · exact absurd rfl h
  · exact absurd rfl h
  · rfl

/-- What can be relied on when a built-in processor is about to process an effect of another kind. -/
structure Refused (p : Program Co Fu) (moves : List (Move Co Fu)) (pollers : List (Poller Co Fu))
    (d : Driver Co Fu) (b : Builtin) (e : Effect) (spot : Spot Fu) : Prop where
  /-- The next step answers the effect with the failure, and does nothing else. -/
  answered : after p {} (stepping moves 1) =
    (after p {} moves).focusOn pollers d.key (.answer (.error (mismatch b e)) spot)
  /-- A computation that delegated the effect goes on with the failure, -/
  delegated : ∀ k frames forks, spot = ⟨.code k :: frames, forks⟩ →
    after p {} (stepping moves 2) = (after p {} moves).focusOn pollers d.key
      (.work (p.work (k (.error (mismatch b e)))) ⟨frames, forks⟩)
  /-- and a coroutine that yielded the effect is resumed with it. -/
  resumed : spot = {} → ∃ co passes kind, d.job = .coroutine co passes kind ∧
    Acts (after p {} (stepping moves 2)) pollers d (.resume (.error (mismatch b e))) ∧
    Uneventful (after p {} moves) (after p {} (stepping moves 2)) ∧
    history p (stepping moves 3) d.key = history p moves d.key ++
      [.given (.builtin b) e, .resolved (.error (mismatch b e)), .resumed co (.error (mismatch b e))]

/-- What can be relied on when a coroutine has yielded an effect that its scheduler gives to a built-in
processor of another kind. -/
structure Misrouted (p : Program Co Fu) (moves : List (Move Co Fu)) (pollers : List (Poller Co Fu))
    (d : Driver Co Fu) (b : Builtin) (e : Effect) (co : Co) : Prop where
  /-- The effect is routed, answered with the failure, and the coroutine is resumed with it: three steps -/
  routed : Acts (after p {} (stepping moves 1)) pollers { d with job := .coroutine co 0 e.kind }
    (.process (.builtin b) e {})
  answered : Acts (after p {} (stepping moves 2)) pollers { d with job := .coroutine co 0 e.kind }
    (.answer (.error (mismatch b e)) {})
  resumed : Acts (after p {} (stepping moves 3)) pollers { d with job := .coroutine co 0 e.kind }
    (.resume (.error (mismatch b e)))
  /-- that do nothing to anybody else. -/
  uneventful : ∀ k ≤ 3, Uneventful (after p {} moves) (after p {} (stepping moves k))
  told : history p (stepping moves 4) d.key = history p moves d.key ++
    [.yielded (.effect e) co, .given (.builtin b) e, .resolved (.error (mismatch b e)),
      .resumed co (.error (mismatch b e))]

section

variable (p : Program Co Fu) {moves : List (Move Co Fu)} {pollers : List (Poller Co Fu)} {d : Driver Co Fu}
  {b : Builtin} {e : Effect} {spot : Spot Fu} {co : Co}

theorem move_of_mismatch {l : EventLoop Co Fu} (h : Acts l pollers d (.process (.builtin b) e spot))
    (hkind : e.kind ≠ b.kind) :
    l.move p .step = l.focusOn pollers d.key (.answer (.error (mismatch b e)) spot) := by
  rw [move_step_of_driver p h.focus h.driver nofun, stepDriver, builtinDoing_of_ne p hkind]

/-- A coroutine gets its failure with a record of it. -/
theorem uneventful_of_failure {l : EventLoop Co Fu} {failure : EffectError}
    (h : Acts l pollers d (.answer (.error failure) {})) (hjob : d.job ≠ .plain) :
    Uneventful l (l.move p .step) := by
  have hstep : l.move p .step = l.stepAnswer p pollers d (.error failure) ⟨[], []⟩ :=
    move_step_of_driver p h.focus h.driver nofun
  rw [hstep]
  unfold stepAnswer
  cases hd : d.job with
  | plain => exact absurd hd hjob
  | coroutine co passes kind => exact ((Uneventful.refl l).record _ _ _ _ _).focusOn _ _ _

theorem refused_of_mismatch (h : Acts (after p {} moves) pollers d (.process (.builtin b) e spot))
    (hkind : e.kind ≠ b.kind) : Refused p moves pollers d b e spot := by
  have hanswered : after p {} (stepping moves 1) =
      (after p {} moves).focusOn pollers d.key (.answer (.error (mismatch b e)) spot) :=
    (after_snoc p {} moves .step).trans (move_of_mismatch p h hkind)
  have hacts : Acts (after p {} (stepping moves 1)) pollers d (.answer (.error (mismatch b e)) spot) := by
    rw [hanswered]
    exact ⟨rfl, h.driver⟩
  constructor
  case answered => exact hanswered
  case delegated =>
    rintro k frames forks rfl
    rw [after_stepping_succ, move_step_of_driver p hacts.focus hacts.driver nofun, hanswered]
    rfl
  case resumed =>
    rintro rfl
    have hplain : d.job ≠ .plain := job_of_ofCoroutine h.focus (mem_of_driver? h.driver) rfl trivial
    cases hjob : d.job with
    | plain => exact absurd hjob hplain
    | coroutine co passes kind =>
      have hresume := acts_answer p hjob hacts
      rw [← after_stepping_succ] at hresume
      refine ⟨co, passes, kind, rfl, hresume, ?_, ?_⟩
      · rw [after_stepping_succ]
        refine .trans ?_ (uneventful_of_failure p hacts hplain)
        rw [hanswered]
        exact (Uneventful.refl _).focusOn _ _ _
      · have hgiven : history p (stepping moves 1) d.key = _ := history_step p h.focus h.driver
        rw [stepping_succ, history_step p hresume.focus hresume.driver, stepping_succ,
          history_step p hacts.focus hacts.driver, hgiven]
        simp [Doing.event?, hjob]

/-- An effect goes to the processor that the table gives for its kind. -/
theorem routed_of_yield {ref : ProcessorRef}
    (h : Acts (after p {} moves) pollers d (.advance (.ret (.yield (.effect e) co))))
    (href : (p.scheduler d.task.scheduler).processors.get? e.kind = some ref) :
    Acts (after p {} (stepping moves 1)) pollers { d with job := .coroutine co 0 e.kind }
        (.process ref e {}) ∧
      Uneventful (after p {} moves) (after p {} (stepping moves 1)) ∧
      history p (stepping moves 1) d.key = history p moves d.key ++ [.yielded (.effect e) co] := by
  cases hd : d.job with
  | plain => exact absurd hd (job_of_ofCoroutine h.focus (mem_of_driver? h.driver) rfl trivial)
  | coroutine co₀ passes kind =>
    have hstep : after p {} (stepping moves 1) =
        ((((after p {} moves).setJob d.key (.coroutine co 0 e.kind)).record d.spans .debug .scheduler
          "Routing effect" [⟨"kind", e.kind.tag, false⟩]).setState d.task (.suspended e.kind)).focusOn
            pollers d.key (.process ref e {}) := by
      refine (after_snoc p {} moves .step).trans ?_
      rw [move_step_of_driver p h.focus h.driver nofun]
      unfold stepDriver
      rw [hd]
      simp only [stepYield, href]
    have hmem : { d with job := .coroutine co 0 e.kind } ∈ (after p {} (stepping moves 1)).drivers := by
      rw [hstep]
      exact List.mem_map.mpr ⟨d, mem_of_driver? h.driver, if_pos rfl⟩
    refine ⟨⟨by rw [hstep]; rfl, driver?_of_mem (orderly_after p _) hmem⟩, ?_, ?_⟩
    · rw [hstep]
      exact (((((Uneventful.refl _).setJob _ _).record _ _ _ _ _).setState _ _).focusOn _ _ _)
    · have htold : history p (stepping moves 1) d.key = _ := history_step p h.focus h.driver
      rw [htold]
      simp [Doing.event?, hd]

omit p in
theorem stepping_stepping (moves : List (Move Co Fu)) (j k : Nat) :
    stepping (stepping moves j) k = stepping moves (j + k) := by
  rw [stepping, stepping, stepping, List.append_assoc, List.replicate_append_replicate]

theorem misrouted_of_yield
    (h : Acts (after p {} moves) pollers d (.advance (.ret (.yield (.effect e) co))))
    (href : (p.scheduler d.task.scheduler).processors.get? e.kind = some (.builtin b))
    (hkind : e.kind ≠ b.kind) : Misrouted p moves pollers d b e co := by
  obtain ⟨hrouted, hquiet, htold⟩ := routed_of_yield p h href
  have hrefused := refused_of_mismatch p hrouted hkind
  have hanswered := hrefused.answered
  obtain ⟨_, _, _, hjob, hresumed, hquiet', hresult⟩ := hrefused.resumed rfl
  cases hjob
  rw [stepping_stepping] at hanswered hresumed hquiet' hresult
  constructor
  case routed => exact hrouted
  case answered =>
    rw [hanswered]
    exact ⟨rfl, hrouted.driver⟩
  case resumed => exact hresumed
  case uneventful =>
    intro k hk
    match k, hk with
    | 0, _ =>
      rw [stepping, List.replicate_zero, List.append_nil]
      exact .refl _
    | 1, _ => exact hquiet
    | 2, _ =>
      rw [hanswered]
      exact hquiet.focusOn _ _ _
    | 3, _ => exact hquiet.trans hquiet'
  case told =>
    rw [hresult, htold, List.append_assoc]
    rfl

/-- **A table serves each kind by what was registered for it last**, and a built-in processor that it gives
for another kind than its own fails and does nothing else. -/
theorem processors_serve_as_registered (sink : SinkId) (ops : List TableOp) :
    TableKept sink ops ∧
    ∀ {Co Fu : Type} (p : Program Co Fu) (moves : List (Move Co Fu)) (pollers : List (Poller Co Fu))
      (d : Driver Co Fu) (b : Builtin) (e : Effect), e.kind ≠ b.kind →
      (∀ spot, Acts (after p {} moves) pollers d (.process (.builtin b) e spot) →
        Refused p moves pollers d b e spot) ∧
      ∀ co, (p.scheduler d.task.scheduler).processors = (built sink ops).processors →
        LastFor (registrations ops) e.kind (.builtin b) →
        Acts (after p {} moves) pollers d (.advance (.ret (.yield (.effect e) co))) →
        Misrouted p moves pollers d b e co := by
  refine ⟨table_kept sink ops, fun p moves pollers d b e hkind =>
    ⟨fun spot h => refused_of_mismatch p h hkind, fun co htable hlast h => ?_⟩⟩
  refine misrouted_of_yield p h ?_ hkind
  rw [htable]
  exact ((table_kept sink ops).lookup e.kind (.builtin b)).mpr (.inl hlast)

end

/-- For logged events the processor of puts is registered last. -/
def logsAsPuts : List TableOp :=
  [.insert (.custom "LOG") (.own 0),
    .withProcessors [(.custom "PUT", .own 1), (.custom "LOG", .builtin .put)]]

def logged : Effect := .custom "LOG" (.object [])

/-- A coroutine that logs an event once. -/
def logs : Program Nat Unit where
  scheduler := fun _ => built ⟨"sink"⟩ logsAsPuts
  resume := fun co _ => co
  advance := fun co =>
    if co = 1 then .ret (.yield (.effect logged) 0) else .ret (.done (.ok .null) 0)
  work := fun _ => .ret (.done (.ok (.value .null)))
  invoke := fun _ _ => .ret (.pending ())
  process := fun _ _ _ => ()
  dispatch := fun _ _ => .ret .null

/-- The coroutine is polled until it has yielded. -/
def toLogged : List (Move Nat Unit) :=
  [.act (.start ⟨0⟩ "logger" 1 fun _ => .ret ()), .poll ⟨1⟩, .step, .step]

/-- The processor of puts fails on a logged event, in a run. -/
theorem logged_misrouted : ∃ d, Acts (after logs {} toLogged) [] d
      (.advance (.ret (.yield (.effect logged) 0))) ∧
    Misrouted logs toLogged [] d .put logged 0 := by
  have hacts : Acts (after logs {} toLogged) [] (((after logs {} toLogged).driver? ⟨1⟩).get rfl)
      (.advance (.ret (.yield (.effect logged) 0))) := ⟨rfl, rfl⟩
  have hlast : LastFor (registrations logsAsPuts) (.custom "LOG") (.builtin .put) :=
    ⟨[(.custom "LOG", .own 0), (.custom "PUT", .own 1)], [], rfl, nofun⟩
  have hserves := (processors_serve_as_registered ⟨"sink"⟩ logsAsPuts).2 logs toLogged []
    (((after logs {} toLogged).driver? ⟨1⟩).get rfl) .put logged nofun
  exact ⟨_, hacts, hserves.2 0 rfl hlast hacts⟩

end EventLoop

end EffectLoop
