import EffectLoop.Loop.Host
import EffectLoop.Proofs.Acts
import EffectLoop.Proofs.Lifecycle
import EffectLoop.Proofs.Puts

/-!
# At the host boundary

`Traffic` is any run of the loop with the items that hosts took in on the way, from around the loop or
from inside what a driver does. Each of them is a `Handling`: from the state in which the host got the
item to the one in which it answered, with the calls of sinks that the host itself made.

`Executes` is the judge of what a host does between these two states, and it leaves no choice
(`executes_event`, `executes_coroutine`, `executes_token`). What started coroutines put is not among
the calls of the host: it goes to the sink of their scheduler, in later steps of their own drivers.
`host_boundary` says both over every run.
-/

namespace EffectLoop

variable {Co Fu : Type}

/-- What the next stage is to get for an item, if anything. -/
def WorkItem.forwarded? : WorkItem Co → Option Json
  | .event v => some v
  | .coroutine _ => none
  | .terminate token =>
    some (.object [("kind", .str "TERMINATE"), ("payload", .object [("id", .nat token.id.val)])])

/-- How the scheduler behind a boundary came about. -/
inductive Host.Setup
  /-- It was built with the host, with the host's own processors over the built-in ones. -/
  | new (processors : List (EffectKind × ProcessorRef))
  | withConfig (processors : List (EffectKind × ProcessorRef)) (config : SchedulerConfig)
  /-- It was there before the host. -/
  | withScheduler (spec : SchedulerSpec)

namespace Host.Setup

/-- The scheduler of a host that is built before the stage `next`. -/
def spec (next : SinkId) : Host.Setup → SchedulerSpec
  | .new processors => { processors := ProcessorTable.builtin.extend processors, sink := next }
  | .withConfig processors config =>
    { config, processors := ProcessorTable.builtin.extend processors, sink := next }
  | .withScheduler spec => spec

/-- Where the puts of coroutines go that the host starts. -/
def sink (next : SinkId) : Host.Setup → SinkId
  | .new _ | .withConfig _ _ => next
  | .withScheduler spec => spec.sink

theorem sink_spec (next : SinkId) (setup : Host.Setup) : (setup.spec next).sink = setup.sink next := by
  cases setup <;> rfl

end Host.Setup

/-- A host has taken in an item. -/
structure Handling (Co Fu : Type) where
  host : Host
  item : WorkItem Co
  /-- The driver that handed it in, if it was not the program around the loop. -/
  current : Option DriverKey
  before : EventLoop Co Fu
  calls : List SinkCall
  /-- None if the next stage panicked. -/
  answer : Option Dispatched
  after : EventLoop Co Fu

namespace EventLoop

/-- Between two states the task `id` of a scheduler was ended early if it was active, and nothing else
happened to any task. -/
structure EndsOnly (s : SchedulerId) (id : TaskId) (l l' : EventLoop Co Fu) : Prop where
  elsewhere : ∀ s', s' ≠ s → l'.activeTasks s' = l.activeTasks s'
  entries : (l'.activeTasks s).entries = (l.activeTasks s).entries.filter (·.id ≠ id)
  others : ∀ id', id' ≠ id → (l'.activeTasks s).outcome? id' = (l.activeTasks s).outcome? id'
  ended : (l.activeTasks s).contains id = true →
    (l'.activeTasks s).outcome? id = some (.error (.terminated id))
  idle : (l.activeTasks s).contains id = false → l' = l
  drivers : l'.drivers = l.drivers

/-- A termination ends its task and nothing else. -/
theorem endsOnly_terminate {l : EventLoop Co Fu} (s : SchedulerId)
    (hs : (l.activeTasks s).Sound) (spans : List Span) (id : TaskId) :
    EndsOnly s id l (l.terminate spans s id).1 := by
  have htasks : (l.terminate spans s id).1.activeTasks =
      Function.update l.activeTasks s ((l.activeTasks s).settle id (.error (.terminated id))).1 := by
    rw [update_settle, terminate_eq]
    split <;> rfl
  refine ⟨fun s' hne => ?_, ?_, fun id' hne => ?_, fun hc => ?_, fun hc => ?_, terminate_drivers l spans s id⟩
  · rw [htasks, Function.update_of_ne hne]
  · rw [htasks, Function.update_self, ActiveTasks.entries_settle]
  · rw [htasks, Function.update_self, ActiveTasks.outcome?_settle_of_ne _ hne]
  · rw [htasks, Function.update_self]
    exact ActiveTasks.outcome?_settle_self hc (hs.outcome_eq_none hc) _
  · rw [terminate_eq, hc]
    rfl

end EventLoop

namespace Handling

open EventLoop

/-- The host hands an event to its next stage in the state `l`, and makes no other call. What the next
stage returns is the answer. -/
def Forwards (p : Program Co Fu) (x : Handling Co Fu) (l : EventLoop Co Fu) (event : Json) : Prop :=
  ∃ inner returned, Executes p x.current l (p.dispatch x.host.next event) inner x.after returned ∧
    x.calls = [⟨x.host.next, event, returned⟩] ∧ x.answer = returned.map .forwarded

/-- The task of a coroutine that the host starts. -/
def task (x : Handling Co Fu) : TaskHandle :=
  ⟨x.host.scheduler, (x.before.activeTasks x.host.scheduler).nextId, "coroutine"⟩

/-- The driver of a coroutine that the host starts. -/
def key (x : Handling Co Fu) : DriverKey := ⟨x.before.lastKey + 1⟩

/-- The state in which the host has started a coroutine. -/
def started (x : Handling Co Fu) (p : Program Co Fu) (co : Co) : EventLoop Co Fu :=
  (x.before.start (p.scheduler x.host.scheduler) x.current x.host.scheduler "coroutine" co).1

end Handling

namespace EventLoop

/-! ## What a host does -/

section

variable (p : Program Co Fu) {x : Handling Co Fu}

/-- A host carries out what it does with its item. -/
def Handles (x : Handling Co Fu) : Prop :=
  Executes p x.current x.before (x.host.handle x.item) x.calls x.after x.answer

/-- What a forwarded event comes to. -/
theorem forwards_of_executes {l : EventLoop Co Fu} {event : Json}
    (h : Executes p x.current l (.dispatch x.host.next event fun v => .ret (.forwarded v)) x.calls
      x.after x.answer) : x.Forwards p l event := by
  generalize hcalls : x.calls = calls, hanswer : x.answer = answer, hafter : x.after = l' at h
  cases h with
  | request ha _ => cases ha
  | dispatchPanics hsink => exact ⟨_, none, hafter ▸ hsink, hcalls, hanswer⟩
  | dispatch hsink hrest =>
    cases hrest with
    | request ha _ => cases ha
    | ret => exact ⟨_, some _, hafter ▸ hsink, hcalls, hanswer⟩

theorem executes_event {v : Json} (hitem : x.item = .event v) (h : Handles p x) :
    x.Forwards p x.before v := by
  unfold Handles at h
  rw [hitem] at h
  exact forwards_of_executes p h

/-- A token ends its task before it is forwarded. -/
theorem executes_token {token : TerminationToken} (hitem : x.item = .terminate token)
    (h : Handles p x) : x.Forwards p
      (x.before.terminate (x.before.spansOf x.current) x.host.scheduler token.id).1 token.wire := by
  unfold Handles at h
  rw [hitem] at h
  change Executes p x.current x.before (.ask (.terminate x.host.scheduler token.id) fun _ =>
    .dispatch x.host.next token.wire fun v => .ret (Dispatched.forwarded v)) _ _ _ at h
  cases h with
  | request _ h => exact forwards_of_executes p h

/-- A coroutine becomes a task, and that is noted. -/
theorem executes_coroutine {co : Co} (hitem : x.item = .coroutine co) (h : Handles p x) :
    x.calls = [] ∧ x.answer = some (.started x.task x.task.token) ∧
      ∃ e, x.after = (x.started p co).note e := by
  unfold Handles at h
  rw [hitem] at h
  change Executes p x.current x.before (.start x.host.scheduler "coroutine" co fun task =>
    .ask (.record .debug .host "Started coroutine at host boundary"
      [⟨"task", task.id.text, false⟩]) fun _ => .ret (Dispatched.started task task.token)) _ _ _ at h
  generalize x.calls = calls, x.answer = answer, x.after = l' at h ⊢
  cases h with
  | request _ h =>
    change Executes p x.current (x.started p co) (.ask (.record .debug .host
      "Started coroutine at host boundary" [⟨"task", x.task.id.text, false⟩]) fun _ =>
        .ret (Dispatched.started x.task x.task.token)) _ _ _ at h
    cases h with
    | request _ h =>
      cases h with
      | request ha _ => cases ha
      | ret => exact ⟨rfl, rfl, _, rfl⟩

end

/-! ## Runs with items on the way -/

/-- A run from the beginning, with the items that hosts have taken in, in order. -/
inductive Traffic (p : Program Co Fu) : List (Handling Co Fu) → EventLoop Co Fu → Prop
  | start : Traffic p [] {}
  | move {log : List (Handling Co Fu)} {l : EventLoop Co Fu} (h : Traffic p log l) (m : Move Co Fu) :
      Traffic p log (l.move p m)
  | handle {β : Type} {log : List (Handling Co Fu)} {x : Handling Co Fu} {site : Site Co Fu β}
      {k : Dispatched → Act Co Fu β}
      (h : Traffic p log (site.state x.before ((x.host.handle x.item).bind k)))
      (hsite : site.Apt x.before) (hcurrent : x.current = site.current) (hx : Handles p x) :
      Traffic p (log ++ [x]) (site.state x.after (rest k x.answer))

/-- After the moves `first` of a run the host gets the item, and the moves `more` take the loop from
there to the answer. Nothing happens to a coroutine in them but that some become tasks. -/
structure Takes (p : Program Co Fu) (x : Handling Co Fu) (first more : List (Move Co Fu)) : Prop where
  handles : Handles p x
  began : ∃ focus, after p {} first = { x.before with focus }
  ended : ∃ focus, after p {} (first ++ more) = { x.after with focus }
  dormant : ∀ e ∈ trace p (after p {} first) more, e.2.enters = true

section

variable (p : Program Co Fu)

theorem exists_focus {β : Type} (site : Site Co Fu β) (l : EventLoop Co Fu) (a : Act Co Fu β) :
    ∃ focus, site.state l a = { l with focus } := by
  cases site with
  | outside => exact ⟨l.focus, rfl⟩
  | inside pollers key doing => exact ⟨_, rfl⟩

/-- **Traffic is a run of the loop**, in which every item has its stretch. -/
theorem run_of_traffic {log : List (Handling Co Fu)} {l : EventLoop Co Fu} (h : Traffic p log l) :
    ∃ moves, after p {} moves = l ∧ ∀ x ∈ log, ∃ first more, first ++ more <+: moves ∧
      Takes p x first more := by
  induction h with
  | start => exact ⟨[], rfl, fun _ hx => nomatch hx⟩
  | @move log l _ m ih =>
    obtain ⟨moves, rfl, hlog⟩ := ih
    refine ⟨moves ++ [m], after_snoc p {} moves m, fun x hx => ?_⟩
    obtain ⟨first, more, hmore, htakes⟩ := hlog x hx
    exact ⟨first, more, hmore.trans (List.prefix_append moves [m]), htakes⟩
  | @handle β log x site k _ hsite hcurrent hx ih =>
    obtain ⟨moves, hmoves, hlog⟩ := ih
    have hx' : Executes p site.current x.before (x.host.handle x.item) x.calls x.after x.answer :=
      hcurrent ▸ hx
    obtain ⟨more, hmore, _, hdormant⟩ := Site.run_of_executes p hx' k hsite
    rw [← hmoves, ← after_append] at hmore
    rw [← hmoves] at hdormant
    refine ⟨moves ++ more, hmore, fun y hy => ?_⟩
    rcases List.mem_append.mp hy with hy | hy
    · obtain ⟨first, more', hpre, htakes⟩ := hlog y hy
      exact ⟨first, more', hpre.trans (List.prefix_append moves more), htakes⟩
    · cases List.mem_singleton.mp hy
      obtain ⟨began, hbegan⟩ := exists_focus site x.before ((x.host.handle x.item).bind k)
      obtain ⟨ended, hended⟩ := exists_focus site x.after (rest k x.answer)
      exact ⟨moves, more, List.prefix_refl _,
        ⟨hx, ⟨began, hmoves.trans hbegan⟩, ⟨ended, hmore.trans hended⟩, hdormant⟩⟩

/-! ## Started coroutines -/

/-- Nobody becomes a task twice. -/
theorem enters_eq_false {Co : Type} {spec : SchedulerSpec} {ph ph' : Phase Co} {e : TaskEvent Co}
    (h : Phase.Next spec ph e ph') : e.enters = false := by
  cases h <;> rfl

/-- Where a driver of a coroutine that was never polled stands, its coroutine is to be resumed. -/
theorem eq_of_stands_fresh {l : EventLoop Co Fu} {d : Driver Co Fu} {co co' : Co} {kind : EffectKind}
    (ho : Orderly l) (hd : d ∈ l.drivers) (hjob : d.job = .coroutine co 0 kind)
    (hfresh : d.activity = .fresh) (h : Stands l d (.owed co' (.ok (.value .null)) 0)) : co' = co := by
  rw [stands_iff hjob, hfresh] at h
  by_cases hheld : d.key ∈ l.held
  · rcases ho.busy d hd hheld with hbusy | ⟨pollers, input, hfocus⟩
    · cases hfresh.symm.trans hbusy
    · rw [place_of_works hfocus rfl] at h
      cases h
      rfl
  · rw [place_eq_away hheld] at h
    cases h
    rfl

/-- The deliveries of the built-in processor for the driver `key` go to a sink, and with this processor
for puts the sink is called with the event of every put, once and in order; at most the last of them is
still to come. -/
structure PutsTo (s : SchedulerId) (sink : SinkId) (moves : List (Move Co Fu)) (key : DriverKey) :
    Prop where
  delivered : ∀ pollers d r event frames forks, (after p {} moves).driver? key = some d →
    (after p {} moves).focus = .active pollers key (.answer r ⟨.deliver event :: frames, forks⟩) →
    (after p {} (moves ++ [.step])).focus =
      .active pollers key (.dispatch (p.dispatch sink event) ⟨frames, forks⟩)
  inOrder : ServesPuts p s → ∃ late, late.length ≤ 1 ∧
    (putLog p moves key).filterMap PutEvent.yielded? =
      (putLog p moves key).filterMap PutEvent.called? ++ late

theorem uncalled_length (ph : PutPhase) : ph.uncalled.length ≤ 1 := by
  cases ph <;> simp

/-- **What a coroutine puts goes to the sink of its scheduler.** -/
theorem putsTo_of_entered {s : SchedulerId} {co : Co} {told : List (TaskEvent Co)}
    {moves : List (Move Co Fu)} {key : DriverKey} (h : history p moves key = .entered s co :: told) :
    PutsTo p s (p.scheduler s).sink moves key := by
  refine ⟨fun pollers d r event frames forks hd hfocus => ?_, fun hserves => ?_⟩
  · cases key_of_driver? hd
    have htold := told_after p moves d.key
    rw [h] at htold
    obtain ⟨_, rfl⟩ := coroutine_of_entered p htold (mem_of_driver? hd)
    rw [after_snoc, move_step_of_driver p hfocus hd nofun]
    rfl
  · rcases posted_after p moves key with ⟨hnil, _⟩ | ⟨s', co', log, hlog, _, hgoes⟩
    · rw [← told_putLog, hnil] at h
      cases h
    · have hentered : s' = s := by
        rw [← told_putLog, hlog] at h
        cases h
        rfl
      obtain ⟨ph, hph, _⟩ := hgoes (hentered ▸ hserves)
      refine ⟨ph.uncalled, uncalled_length ph, ?_⟩
      rw [hlog, List.filterMap_cons_none rfl, List.filterMap_cons_none rfl]
      exact hph.calls

/-- The host has started the coroutine `co`: one task was entered, under a number that no task had, and
the coroutine has not been resumed. What it puts goes where the scheduler was set up to send it. -/
structure Starts (x : Handling Co Fu) (co : Co) (first more : List (Move Co Fu)) : Prop where
  silent : x.calls = []
  answer : x.answer = some (.started x.task x.task.token)
  fresh : ¬ (x.before.activeTasks x.host.scheduler).Allotted x.task.id
  registered : x.after.activeTasks = Function.update x.before.activeTasks x.host.scheduler
    ((x.before.activeTasks x.host.scheduler).register "coroutine")
  driven : ∃ d ∈ x.after.drivers, d.key = x.key ∧ d.task = x.task
  unresumed : history p (first ++ more) x.key = [.entered x.host.scheduler co]
  puts : ∀ rest (setup : Host.Setup), p.scheduler x.host.scheduler = setup.spec x.host.next →
    PutsTo p x.host.scheduler (setup.sink x.host.next) (first ++ more ++ rest) x.key

variable {x : Handling Co Fu} {first more : List (Move Co Fu)}

/-- **A host does not resume what it starts.** -/
theorem history_of_takes {co : Co} (hitem : x.item = .coroutine co) (h : Takes p x first more) :
    history p (first ++ more) x.key = [.entered x.host.scheduler co] := by
  obtain ⟨_, _, e, hafter⟩ := executes_coroutine p hitem h.handles
  obtain ⟨began, hbegan⟩ := h.began
  obtain ⟨ended, hended⟩ := h.ended
  have hfirst : history p first x.key = [] :=
    history_eq_nil p first (by rw [hbegan]; exact Nat.lt_succ_self _)
  have henters : ∀ e ∈ history p (first ++ more) x.key, e.enters = true := by
    intro e he
    rw [history_append, hfirst, List.nil_append] at he
    obtain ⟨y, hy, heq⟩ := List.mem_filterMap.mp he
    split at heq
    · cases heq
      exact h.dormant y hy
    · cases heq
  -- the driver that the host has entered
  obtain ⟨d, hd, hk, hjob, hfresh, htask⟩ : ∃ d ∈ (after p {} (first ++ more)).drivers, d.key = x.key ∧
      d.job = .coroutine co 0 .put ∧ d.activity = .fresh ∧ d.task = x.task := by
    rw [hended, hafter]
    exact ⟨_, List.mem_append_right _ (List.mem_singleton_self _), rfl, rfl, rfl, rfl⟩
  rcases told_after p (first ++ more) x.key with ⟨_, hplain⟩ | ⟨s, co', told, ph, htold, _, hp, hall⟩
  · cases hjob.symm.trans (hplain d hd hk)
  · obtain ⟨hs, hstands⟩ := hall d hd hk
    rw [htask] at hs
    cases hs
    rw [htold] at henters ⊢
    cases hp with
    | start =>
      cases eq_of_stands_fresh (orderly_after p _) hd hjob hfresh hstands
      rfl
    | next _ hn =>
      have htrue := henters _ (List.mem_cons_of_mem _ (List.mem_append_right _ (List.mem_singleton_self _)))
      cases (enters_eq_false hn).symm.trans htrue

theorem starts_of_takes {co : Co} (hitem : x.item = .coroutine co) (h : Takes p x first more) :
    Starts p x co first more := by
  obtain ⟨hcalls, hanswer, e, hafter⟩ := executes_coroutine p hitem h.handles
  have hhistory := history_of_takes p hitem h
  refine ⟨hcalls, hanswer, ActiveTasks.nextId_not_allotted _, ?_, ?_, hhistory, fun rest setup hsetup => ?_⟩
  · rw [hafter]
    exact activeTasks_setTasks _ _ _
  · rw [hafter]
    exact ⟨_, List.mem_append_right _ (List.mem_singleton_self _), rfl, rfl⟩
  · have hrest := history_append p (first ++ more) rest x.key
    rw [hhistory] at hrest
    have hputs := putsTo_of_entered p hrest
    rwa [hsetup, Host.Setup.sink_spec] at hputs

/-! ## The trace law -/

/-- What a host does with an item that it gets after the moves `first`, and has done with after
`first ++ more`. -/
def Heeds (x : Handling Co Fu) (first more : List (Move Co Fu)) : Prop :=
  match x.item with
  | .event v => x.Forwards p x.before v
  | .coroutine co => Starts p x co first more
  | .terminate token =>
    ∃ l, EndsOnly x.host.scheduler token.id x.before l ∧ x.Forwards p l token.wire

theorem sound_of_takes (h : Takes p x first more) (s : SchedulerId) : (x.before.activeTasks s).Sound := by
  obtain ⟨began, hbegan⟩ := h.began
  have hsound := (balanced_after p balanced_empty first).sound s
  rw [hbegan] at hsound
  exact hsound

theorem heeds_of_takes (h : Takes p x first more) : Heeds p x first more := by
  unfold Heeds
  split
  next hitem => exact executes_event p hitem h.handles
  next hitem => exact starts_of_takes p hitem h
  next token hitem =>
    exact ⟨_, endsOnly_terminate _ (sound_of_takes p h _) _ token.id, executes_token p hitem h.handles⟩

theorem calls_of_forwards {l : EventLoop Co Fu} {event : Json} (h : x.Forwards p l event) :
    (x.calls.map fun c => (c.sink, c.event)) = [(x.host.next, event)] := by
  obtain ⟨_, returned, _, hcalls, _⟩ := h
  rw [hcalls]
  rfl

/-- A host calls its next stage with what is to be forwarded, and no other sink. -/
theorem calls_of_handles (h : Handles p x) : (x.calls.map fun c => (c.sink, c.event)) =
    (x.item.forwarded?.map fun v => (x.host.next, v)).toList := by
  cases hitem : x.item with
  | event v => exact calls_of_forwards p (executes_event p hitem h)
  | coroutine co =>
    rw [(executes_coroutine p hitem h).1]
    rfl
  | terminate token => exact calls_of_forwards p (executes_token p hitem h)

theorem handles_of_traffic {log : List (Handling Co Fu)} {l : EventLoop Co Fu} (h : Traffic p log l) :
    ∀ x ∈ log, Handles p x := by
  induction h with
  | start => exact fun _ hx => nomatch hx
  | move _ _ ih => exact ih
  | handle _ _ _ hx ih =>
    intro y hy
    rcases List.mem_append.mp hy with hy | hy
    · exact ih y hy
    · cases List.mem_singleton.mp hy
      exact hx

/-- **What a host calls, starts and ends**, in every run and for every order of items. The calls that
hosts make are one for each event and each token that they get, in the order of the items, each of the
next stage of that host: with the event as it is, or with the token as it travels. Each is made on the
way from the item to the answer, which is what the next stage has returned. A coroutine is not
forwarded: it becomes one task under a number that no task had, it is not resumed on the way, and the
answer has its handle and token. When the next stage gets an event, all is as the host got it; when it
gets a token, at most the task with that number was ended early. What the coroutines put that were
started goes to the sink of the scheduler, which is the next stage unless the scheduler was there before
the host. -/
theorem host_boundary {log : List (Handling Co Fu)} {l : EventLoop Co Fu} (h : Traffic p log l) :
    (log.flatMap fun x => x.calls.map fun c => (c.sink, c.event)) =
      log.filterMap (fun x => x.item.forwarded?.map fun v => (x.host.next, v)) ∧
    ∃ moves, after p {} moves = l ∧ ∀ x ∈ log, ∃ first more, first ++ more <+: moves ∧
      Takes p x first more ∧ Heeds p x first more := by
  obtain ⟨moves, hmoves, hlog⟩ := run_of_traffic p h
  refine ⟨?_, moves, hmoves, fun x hx => ?_⟩
  · rw [List.filterMap_eq_flatMap_toList]
    exact List.flatMap_congr fun x hx => calls_of_handles p (handles_of_traffic p h x hx)
  · obtain ⟨first, more, hpre, htakes⟩ := hlog x hx
    exact ⟨first, more, hpre, htakes, heeds_of_takes p htakes⟩

/-! ## What a token ends -/

/-- The token was taken from the handle of a task, or is that of an answer with the handle. -/
def Issued (log : List (Handling Co Fu)) (t : TaskHandle) (token : TerminationToken) : Prop :=
  token = t.token ∨ ∃ x ∈ log, x.answer = some (.started t token)

/-- Between two states nothing happened to a task: what it was settled with and its entry stay. -/
def Untouched (t : TaskHandle) (l l' : EventLoop Co Fu) : Prop :=
  l'.outcome? t = l.outcome? t ∧ ∀ e : TaskEntry, e.id = t.id →
    (e ∈ (l'.activeTasks t.scheduler).entries ↔ e ∈ (l.activeTasks t.scheduler).entries)

/-- The token in an answer is that of the task in it. -/
theorem token_of_issued {log : List (Handling Co Fu)} {l : EventLoop Co Fu} (h : Traffic p log l)
    {t : TaskHandle} {token : TerminationToken} (hissued : Issued log t token) : token = t.token := by
  rcases hissued with rfl | ⟨x, hx, hanswer⟩
  · rfl
  · have hx := handles_of_traffic p h x hx
    have hforwarded {l : EventLoop Co Fu} {event : Json} (hf : x.Forwards p l event) :
        token = t.token := by
      obtain ⟨_, returned, _, _, hreturned⟩ := hf
      rw [hreturned] at hanswer
      cases returned <;> cases hanswer
    cases hitem : x.item with
    | event v => exact hforwarded (executes_event p hitem hx)
    | terminate token => exact hforwarded (executes_token p hitem hx)
    | coroutine co =>
      rw [(executes_coroutine p hitem hx).2.1] at hanswer
      cases hanswer
      rfl

/-- Whoever is not ended is untouched. -/
theorem EndsOnly.untouched {s : SchedulerId} {id : TaskId} {l l' : EventLoop Co Fu}
    (h : EndsOnly s id l l') {t : TaskHandle} (ht : t.scheduler = s → t.id ≠ id) :
    Untouched t l l' := by
  by_cases hs : t.scheduler = s
  · subst hs
    refine ⟨h.others t.id (ht rfl), fun e he => ?_⟩
    rw [h.entries, List.mem_filter]
    exact and_iff_left (by simpa [he] using ht rfl)
  · have htasks := h.elsewhere t.scheduler hs
    refine ⟨congrArg (·.outcome? t.id) htasks, fun e _ => ?_⟩
    rw [htasks]

/-- **A token ends its task or a namesake.** A host that gets a token touches no task but the one with
that number on its own scheduler, before it forwards the token; not even that one, if it is not active.
So on the scheduler that has issued the token it touches no other task than that of the token. On
another one it touches no task of the scheduler that has issued it, and none with another number. -/
theorem token_ends_by_number {log : List (Handling Co Fu)} {l : EventLoop Co Fu} (h : Traffic p log l) :
    ∀ x ∈ log, ∀ t token, Issued log t token → x.item = .terminate token →
      ∃ l', x.Forwards p l' token.wire ∧
        (x.host.scheduler = t.scheduler → ∀ t', (t' == t) = false → Untouched t' x.before l') ∧
        (x.host.scheduler ≠ t.scheduler → ∀ t' : TaskHandle,
          t'.scheduler ≠ x.host.scheduler ∨ t'.id ≠ t.id → Untouched t' x.before l') ∧
        ((x.before.activeTasks x.host.scheduler).contains t.id = false → l' = x.before) := by
  intro x hx t token hissued hitem
  obtain ⟨moves, _, hlog⟩ := run_of_traffic p h
  obtain ⟨first, more, _, htakes⟩ := hlog x hx
  cases token_of_issued p h hissued
  have hends := endsOnly_terminate x.host.scheduler (sound_of_takes p htakes _)
    (x.before.spansOf x.current) t.id
  refine ⟨_, executes_token p hitem htakes.handles, fun hs t' hne => ?_, fun _ t' hne => ?_, hends.idle⟩
  · refine hends.untouched fun hs' hid => ?_
    have hbeq : (t' == t) = (t'.scheduler == t.scheduler && t'.id == t.id) := rfl
    rw [hbeq, hs', hs, hid] at hne
    simp at hne
  · exact hends.untouched fun hs' hid => hne.elim (· hs') (· hid)

/-- What a host does for the program around the loop. -/
theorem traffic_of_runAct {log : List (Handling Co Fu)} {l l' : EventLoop Co Fu}
    (h : Traffic p log l) (hidle : l.focus = .idle) (host : Host) (item : WorkItem Co) (fuel : Nat)
    {answer : Dispatched} (hrun : l.runAct p fuel (host.handle item) = (l', some answer)) :
    ∃ calls, Traffic p (log ++ [⟨host, item, none, l, calls, some answer, l'⟩]) l' := by
  obtain ⟨calls, hx⟩ := executes_of_runAct p hrun
  exact ⟨calls, @Traffic.handle _ _ p Unit log ⟨host, item, none, l, calls, some answer, l'⟩ .outside
    (fun _ => .ret ()) h hidle rfl hx⟩

end

/-- Coroutines end at once, and sinks return what they get. -/
def echoes : Program Unit Unit where
  scheduler := fun _ => { sink := ⟨"next"⟩ }
  resume := fun co _ => co
  advance := fun co => .ret (.done (.ok .null) co)
  work := fun _ => .ret (.done (.ok (.value .null)))
  invoke := fun _ _ => .ret (.pending ())
  process := fun _ _ _ => ()
  dispatch := fun _ event => .ret event

/-- Before a scheduler and the sink of all schedulers. -/
def hostOf (s : SchedulerId) : Host := ⟨s, ⟨"next"⟩⟩

/-- A host gets a coroutine, an event like the token of its task, and that token twice: the next stage is
called three times with the same, and the task was ended by the first token. -/
theorem echoes_boundary : ∃ log l, Traffic echoes log l ∧
    log.map Handling.item = [.coroutine (), .event (TerminationToken.wire ⟨⟨1⟩⟩),
      .terminate ⟨⟨1⟩⟩, .terminate ⟨⟨1⟩⟩] ∧
    (log.flatMap fun x => x.calls.map fun c => (c.sink, c.event)) =
      List.replicate 3 (⟨"next"⟩, .object [("kind", .str "TERMINATE"),
        ("payload", .object [("id", .nat 1)])]) ∧
    l.outcome? ⟨⟨0⟩, ⟨1⟩, "coroutine"⟩ = some (.error (.terminated ⟨1⟩)) := by
  obtain ⟨_, h⟩ := traffic_of_runAct echoes .start rfl (hostOf ⟨0⟩) (.coroutine ()) 9 rfl
  obtain ⟨_, h⟩ := traffic_of_runAct echoes h rfl (hostOf ⟨0⟩) (.event (TerminationToken.wire ⟨⟨1⟩⟩)) 9 rfl
  obtain ⟨_, h⟩ := traffic_of_runAct echoes h rfl (hostOf ⟨0⟩) (.terminate ⟨⟨1⟩⟩) 9 rfl
  obtain ⟨_, h⟩ := traffic_of_runAct echoes h rfl (hostOf ⟨0⟩) (.terminate ⟨⟨1⟩⟩) 9 rfl
  exact ⟨_, _, h, rfl, (host_boundary echoes h).1, rfl⟩

/-- Two schedulers have each started a task, and the token of the first task goes to the host of the
second. -/
theorem exists_misdirected : ∃ log l, ∃ x ∈ log, Traffic echoes log l ∧
    Issued log ⟨⟨0⟩, ⟨1⟩, "coroutine"⟩ ⟨⟨1⟩⟩ ∧ x.host.scheduler = ⟨1⟩ ∧ x.item = .terminate ⟨⟨1⟩⟩ ∧
    x.before.outcome? ⟨⟨1⟩, ⟨1⟩, "coroutine"⟩ = none ∧
    x.after.outcome? ⟨⟨1⟩, ⟨1⟩, "coroutine"⟩ = some (.error (.terminated ⟨1⟩)) := by
  obtain ⟨_, h⟩ := traffic_of_runAct echoes .start rfl (hostOf ⟨0⟩) (.coroutine ()) 9 rfl
  obtain ⟨_, h⟩ := traffic_of_runAct echoes h rfl (hostOf ⟨1⟩) (.coroutine ()) 9 rfl
  obtain ⟨_, h⟩ := traffic_of_runAct echoes h rfl (hostOf ⟨1⟩) (.terminate ⟨⟨1⟩⟩) 9 rfl
  exact ⟨_, _, _, List.mem_append_right _ (List.mem_singleton_self _), h,
    .inr ⟨_, List.mem_cons_self, rfl⟩, rfl, rfl, rfl, rfl⟩

/-- A token ends the namesake of its task. -/
theorem token_ends_namesake : ¬ ∀ log l, Traffic echoes log l → ∀ x ∈ log, ∀ t token,
    Issued log t token → x.item = .terminate token →
      ∀ t' : TaskHandle, (t' == t) = false → Untouched t' x.before x.after := by
  intro hclaim
  obtain ⟨log, l, x, hx, h, hissued, _, hitem, hbefore, hafter⟩ := exists_misdirected
  have huntouched := hclaim log l h x hx _ _ hissued hitem ⟨⟨1⟩, ⟨1⟩, "coroutine"⟩ rfl
  cases hafter.symm.trans (huntouched.1.trans hbefore)

/-- The task whose token has gone astray is untouched. -/
theorem misdirected_untouched : ∃ log l, ∃ x ∈ log, Traffic echoes log l ∧
    Issued log ⟨⟨0⟩, ⟨1⟩, "coroutine"⟩ ⟨⟨1⟩⟩ ∧ x.host.scheduler = ⟨1⟩ ∧ x.item = .terminate ⟨⟨1⟩⟩ ∧
    ∃ l', x.Forwards echoes l' (TerminationToken.wire ⟨⟨1⟩⟩) ∧
      Untouched ⟨⟨0⟩, ⟨1⟩, "coroutine"⟩ x.before l' := by
  obtain ⟨log, l, x, hx, h, hissued, hhost, hitem, _, _⟩ := exists_misdirected
  obtain ⟨l', hforwards, _, helsewhere, _⟩ := token_ends_by_number echoes h x hx _ _ hissued hitem
  rw [hhost] at helsewhere
  exact ⟨log, l, x, hx, h, hissued, hhost, hitem, l', hforwards,
    helsewhere (by decide) _ (.inl (by decide))⟩

end EventLoop

end EffectLoop
