import EffectLoop.Proofs.Arrivals
import EffectLoop.Proofs.Driving
import EffectLoop.Proofs.Seats
import EffectLoop.Proofs.TaskStates
import EffectLoop.Proofs.Wakeups

/-!
# What the register says of a driven coroutine

States are stored in four places: when a task is entered, when a plain computation is started, before
every resume and before an effect is given to its processor. `TaskEvent.state?` says which events of a
coroutine these are, and `state_after` that the register shows the last of them while the task is
active. So the register goes by the protocol of drivers as their histories do, and whoever looks at it
sees where each coroutine is (`tasks_live_by_their_states`).
-/

namespace EffectLoop

variable {Co Fu : Type}

namespace TaskEvent

/-- The state in which the task is shown from this event on, if the event changes it. -/
def state? (spec : SchedulerSpec) : TaskEvent Co → Option TaskState
  | .entered _ _ => some .created
  | .resumed _ _ => some .running
  | .yielded (.effect e) _ => (spec.processors.get? e.kind).map fun _ => .suspended e.kind
  | _ => none

/-- The state in which a task is shown after all this has happened to its coroutine. Without a
coroutine it runs. -/
def shown (spec : SchedulerSpec) (told : List (TaskEvent Co)) : TaskState :=
  ((told.filterMap (state? spec)).getLast?).getD .running

theorem shown_append (spec : SchedulerSpec) (told more : List (TaskEvent Co)) :
    shown spec (told ++ more) =
      ((more.filterMap (state? spec)).getLast?).getD (shown spec told) := by
  rw [shown, List.filterMap_append, List.getLast?_append, Option.getD_or, shown]

end TaskEvent

/-- The states in which a task may be shown while its coroutine is in this phase. -/
def Phase.Shows : Phase Co → TaskState → Prop
  | .owed _ _ _, state => state.Next .running
  | .running _, state | .ending _, state | .closed _, state => state = .running
  | .routed _ _ e, state | .processing _ _ e, state => state = .suspended e.kind

/-- **What is shown fits the phase of the coroutine.** -/
theorem Protocol.shows {spec : SchedulerSpec} {co : Co} {h : List (TaskEvent Co)} {ph : Phase Co}
    (hp : Protocol spec co h ph) (s : SchedulerId) :
    ph.Shows (TaskEvent.shown spec (.entered s co :: h)) := by
  induction hp with
  | start => exact .begun
  | next hp hn ih =>
    rw [← List.cons_append, TaskEvent.shown_append]
    cases hn with
    | resumed co input passes => rfl
    | passed passes o co h =>
      rw [show TaskEvent.shown spec _ = _ from ih]
      exact .again
    | routed passes e co ref h =>
      show _ = TaskState.suspended e.kind
      simp [TaskEvent.state?, h]
    | unknown passes e co h =>
      show _ = TaskState.running
      simp only [TaskEvent.state?, h, Option.map_none, List.filterMap_cons, List.filterMap_nil,
        List.getLast?_nil, Option.getD_none]
      exact ih
    | resolved co ref e r =>
      rw [show TaskEvent.shown spec _ = _ from ih]
      exact .resumed e.kind
    | _ => exact ih

/-- A phase in which nothing follows at once, and what happened last to a coroutine in it. -/
inductive Phase.Abides : Phase Co → List (TaskEvent Co) → Prop
  | fresh (co : Co) : Abides (.owed co (.ok (.value .null)) 0) []
  | running (passes : Nat) (h : List (TaskEvent Co)) (co : Co) (input : Resume) :
      Abides (.running passes) (h ++ [.resumed co input])
  | processing (co : Co) (ref : ProcessorRef) (e : Effect) (h : List (TaskEvent Co)) :
      Abides (.processing co ref e) (h ++ [.given ref e])
  | closed (o : Outcome) (h : List (TaskEvent Co)) : Abides (.closed o) (h ++ [.ended o])

/-- Either something follows at once, and the coroutine does not run then, or the phase abides. -/
theorem Protocol.abides {spec : SchedulerSpec} {co : Co} {h : List (TaskEvent Co)} {ph : Phase Co}
    (hp : Protocol spec co h ph) :
    ph.Abides h ∨ (∀ passes, ph ≠ .running passes) ∧ ∃ first e, h = first ++ [e] ∧ e.urgent = true := by
  cases hp with
  | start => exact .inl (.fresh co)
  | next hp hn =>
    cases hn with
    | resumed co input passes => exact .inl (.running passes _ co input)
    | given co ref e => exact .inl (.processing co ref e _)
    | ended o => exact .inl (.closed o _)
    | _ => exact .inr ⟨fun _ => nofun, _, _, rfl, rfl⟩

namespace EventLoop

section

variable (p : Program Co Fu) {l : EventLoop Co Fu} {pollers : List (Poller Co Fu)}
  {d : Driver Co Fu}

/-! ## What is noted for a task is what happens to its coroutine -/

/-- A task has one driver. -/
theorem eq_of_task (ho : Orderly l) {x : Driver Co Fu} (hx : x ∈ l.drivers) (hd : d ∈ l.drivers)
    (hs : x.task.scheduler = d.task.scheduler) (hi : x.task.id = d.task.id) : x = d := by
  have hdistinct : (l.drivers.map fun d => (d.task.scheduler, d.guard.id)).Nodup := by
    have := ho.balanced.distinct
    rwa [show l.books.duties = l.drivers.map Driver.duty from rfl, List.map_map] at this
  refine List.inj_on_of_nodup_map hdistinct hx hd ?_
  rw [(ho.proper x hx).2.guard, (ho.proper d hd).2.guard, hs, hi]

/-- The task of a driver has been given its number. -/
theorem allotted_of_mem (ho : Orderly l) (hd : d ∈ l.drivers) :
    (l.activeTasks d.task.scheduler).Allotted d.task.id := by
  rw [← (ho.proper d hd).2.guard]
  exact ho.balanced.allotted d.duty (List.mem_map_of_mem hd)

theorem notes_abandonments (ds : List (Driver Co Fu)) (s : SchedulerId) (id : TaskId) :
    (abandonments ds).filterMap (Posting.notedFor s id) = [] := by
  refine List.filterMap_eq_nil_iff.mpr fun x hx => ?_
  obtain ⟨a, _, rfl⟩ := List.mem_map.mp hx
  rfl

/-- A task that is entered is none of those there are. -/
theorem notes_arrival (ho : Orderly l) (hd : d ∈ l.drivers) (x : Arrival Co Fu) :
    (x.postings l).filterMap (Posting.notedFor d.task.scheduler d.task.id) = [] := by
  unfold Arrival.postings
  cases x.work with
  | coroutine co => rfl
  | pending fu =>
    have hne : ¬(x.scheduler = d.task.scheduler ∧
        (l.activeTasks x.scheduler).nextId = d.task.id) := by
      rintro ⟨hs, hi⟩
      refine ActiveTasks.nextId_not_allotted (l.activeTasks x.scheduler) ?_
      rw [hi, hs]
      exact allotted_of_mem ho hd
    simp [Posting.notedFor, hne]

theorem notes_actPostings (ho : Orderly l) (hd : d ∈ l.drivers) {α : Type} (a : Act Co Fu α) :
    (l.actPostings a).filterMap (Posting.notedFor d.task.scheduler d.task.id) = [] := by
  cases h : a.arrival? with
  | some x =>
    rw [actPostings_of_arrival h]
    exact notes_arrival ho hd x
  | none =>
    cases a with
    | ask q k => cases q <;> rfl
    | start s name co k => cases h
    | spawn s name fu k => cases h
    | nest s name co k => cases h
    | _ => rfl

theorem notes_invokedPostings (ho : Orderly l) (hd : d ∈ l.drivers) (f : Driver Co Fu) (b : Builtin)
    (target : Target) (invoked : Invoked Co Fu) :
    (l.invokedPostings f b target invoked).filterMap
      (Posting.notedFor d.task.scheduler d.task.id) = [] := by
  cases invoked with
  | coroutine co => rfl
  | pending fu =>
    cases b with
    | fork => exact notes_arrival ho hd ⟨f.task.scheduler, target.name, .pending fu, false⟩
    | _ => rfl

/-- Only a resume and the yield of an effect change the state in which a task is shown. -/
theorem states_of_quiet (spec : SchedulerSpec) {f : Driver Co Fu} {doing : Doing Co Fu}
    (hresume : ∀ input, doing ≠ .resume input)
    (hyield : ∀ e co, doing ≠ .advance (.ret (.yield (.effect e) co))) :
    (doing.event? f).toList.filterMap (TaskEvent.state? spec) = [] := by
  unfold Doing.event?
  split
  case h_1 => exact absurd rfl (hresume _)
  case h_2 y co _ =>
    cases y with
    | pass o => rfl
    | effect e => exact absurd rfl (hyield e co)
  all_goals rfl

/-- Whatever else a driver does notes no state. -/
theorem notes_of_quiet (ho : Orderly l) (hd : d ∈ l.drivers) (f : Driver Co Fu) {doing : Doing Co Fu}
    (hresume : ∀ input, doing ≠ .resume input)
    (hyield : ∀ e co, doing ≠ .advance (.ret (.yield (.effect e) co))) :
    (l.doingPostings p f doing).filterMap (Posting.notedFor d.task.scheduler d.task.id) = [] := by
  unfold doingPostings
  split
  case h_1 => exact absurd rfl (hresume _)
  case h_2 => exact absurd rfl (hyield _ _)
  case h_3 | h_10 => exact notes_abandonments _ _ _
  case h_4 => exact notes_invokedPostings ho hd f _ _ _
  case h_5 | h_6 | h_7 | h_8 => exact notes_actPostings ho hd _
  case h_9 =>
    rw [List.filterMap_cons_none rfl]
    exact notes_abandonments _ _ _
  case h_11 => rfl

/-- What a step notes for a task is what it does to the coroutine of that task. -/
theorem notes_doing (ho : Orderly l) {f : Driver Co Fu} (hf : f ∈ l.drivers) (hd : d ∈ l.drivers)
    (doing : Doing Co Fu) :
    (l.doingPostings p f doing).filterMap (Posting.notedFor d.task.scheduler d.task.id) =
      if f.key = d.key then
        (doing.event? f).toList.filterMap (TaskEvent.state? (p.scheduler d.task.scheduler))
      else [] := by
  have hnote : ∀ state, Posting.notedFor d.task.scheduler d.task.id
      (.note f.task.scheduler f.task.id state) = if f.key = d.key then some state else none := by
    intro state
    refine if_congr ⟨fun h => ?_, fun h => ?_⟩ rfl rfl
    · rw [eq_of_task ho hf hd h.1 h.2]
    · cases ho.eq_of_key hf hd h
      exact ⟨rfl, rfl⟩
  by_cases hresume : ∃ input, doing = .resume input
  · obtain ⟨input, rfl⟩ := hresume
    cases hjob : f.job with
    | plain => simp [doingPostings, Doing.event?, hjob]
    | coroutine co passes kind =>
      by_cases hk : f.key = d.key <;>
        simp [doingPostings, hnote, Doing.event?, hjob, hk, TaskEvent.state?]
  by_cases hyield : ∃ e co, doing = .advance (.ret (.yield (.effect e) co))
  · obtain ⟨e, co', rfl⟩ := hyield
    cases hjob : f.job with
    | plain => simp [doingPostings, Doing.event?, hjob]
    | coroutine co passes kind =>
      by_cases hk : f.key = d.key
      · cases ho.eq_of_key hf hd hk
        cases hget : (p.scheduler d.task.scheduler).processors.get? e.kind <;>
          simp [doingPostings, hnote, Doing.event?, hjob, TaskEvent.state?, hget]
      · cases hget : (p.scheduler f.task.scheduler).processors.get? e.kind <;>
          simp [doingPostings, hnote, hjob, hget, hk]
  have hresume : ∀ input, doing ≠ .resume input := fun input he => hresume ⟨input, he⟩
  have hyield : ∀ e co, doing ≠ .advance (.ret (.yield (.effect e) co)) :=
    fun e co he => hyield ⟨e, co, he⟩
  rw [notes_of_quiet p ho hd f hresume hyield, states_of_quiet _ hresume hyield, ite_self]

/-- **What a move notes for a task is what it does to the coroutine of that task.** -/
theorem notes_move (ho : Orderly l) (hd : d ∈ l.drivers) (m : Move Co Fu) :
    (l.postings p m).filterMap (Posting.notedFor d.task.scheduler d.task.id) =
      (eventsOf d.key (l.acting m)).filterMap
        (TaskEvent.state? (p.scheduler d.task.scheduler)) := by
  cases hfocus : l.focus with
  | idle =>
    rw [acting_of_idle hfocus]
    simp only [postings, hfocus]
    cases m with
    | act a => exact notes_actPostings ho hd a
    | drop key => exact notes_abandonments ..
    | _ => rfl
  | active pollers k doing =>
    by_cases hm : m = .step
    · subst hm
      cases hf : l.driver? k with
      | none =>
        rw [postings_of_gone p hfocus hf, acting_of_gone hfocus (.inr hf)]
        rfl
      | some f =>
        cases key_of_driver? hf
        rw [postings_of_driver p hfocus hf, acting_of_driver hfocus hf, eventsOf_toList,
          notes_doing p ho (mem_of_driver? hf) hd]
        split <;> rfl
    · rw [acting_of_ne_step hm]
      have hnone : l.postings p m = [] := by
        unfold postings
        rw [hfocus]
        cases m <;> first | rfl | exact absurd rfl hm
      rw [hnone]
      rfl

/-! ## What is shown is what happened last -/

theorem ledger_append (l : EventLoop Co Fu) (first rest : List (Move Co Fu)) :
    ledger p l (first ++ rest) = ledger p l first ++ ledger p (l.after p first) rest := by
  induction first generalizing l with
  | nil => rfl
  | cons m first ih => rw [List.cons_append, ledger, ih, ledger, List.append_assoc, after_cons]

/-- A driver that is not there yet has no history. -/
theorem history_eq_nil (moves : List (Move Co Fu)) {key : DriverKey}
    (h : (after p {} moves).lastKey < key.val) : history p moves key = [] := by
  rcases told_after p moves key with ⟨hnone, _⟩ | ⟨_, _, _, _, _, hle, _⟩
  · exact hnone
  · omega

/-- A coroutine is created when it is entered, and a plain computation runs at once. -/
theorem state_arrival (hs : l.books.Sound) (x : Arrival Co Fu) :
    ((l.books.postAll (x.postings l)).tasks x.scheduler).state? (l.activeTasks x.scheduler).nextId =
      some (match x.work with
        | .coroutine _ => .created
        | .pending _ => .running) := by
  have hcreated := hs.state_enter x.scheduler x.name
  unfold Arrival.postings
  cases x.work with
  | coroutine co => exact hcreated
  | pending fu =>
    have hcontains : ((l.books.post (.enter x.scheduler x.name)).tasks x.scheduler).contains
        (l.activeTasks x.scheduler).nextId = true :=
      Books.contains_of_enter rfl x.name
    show (((l.books.post _).post _).tasks x.scheduler).state? _ = _
    rw [Books.state_post (hs.post _) rfl, Books.stores, if_pos hcontains]
    simp [Posting.notedFor]

/-- Who is active after a move and was there before has been active. -/
theorem contains_before (ho : Orderly l) (hd : d ∈ l.drivers) {ps : List Posting}
    (hc : ((l.books.postAll ps).tasks d.task.scheduler).contains d.task.id = true) :
    (l.books.tasks d.task.scheduler).contains d.task.id = true := by
  have hs := ho.balanced.sound
  rw [(hs d.task.scheduler).active_iff _ (allotted_of_mem ho hd)]
  by_contra hsettled
  obtain ⟨o, hout⟩ := Option.ne_none_iff_exists'.mp hsettled
  have hafter := hs.outcome_postAll hout ps
  rw [(hs.postAll ps _).not_contains_of_outcome hafter] at hc
  cases hc

/-- **While its task is active, a driver is shown in the state that its history says.** -/
theorem state_after (moves : List (Move Co Fu)) :
    ∀ d ∈ (after p {} moves).drivers,
      ((after p {} moves).activeTasks d.task.scheduler).contains d.task.id = true →
      ((after p {} moves).activeTasks d.task.scheduler).state? d.task.id =
        some (TaskEvent.shown (p.scheduler d.task.scheduler) (history p moves d.key)) := by
  induction moves using List.reverseRecOn with
  | nil => exact fun _ h => nomatch h
  | append_singleton moves m ih =>
    intro d' hd' hc
    have ho := orderly_after p moves
    have hnew : ∀ key : DriverKey, _ → _ := fun key => @history_eq_nil _ _ p moves key
    rw [history_snoc, happenings, eventsOf_append]
    rw [after_snoc] at hd' hc ⊢
    generalize history p moves = told at hnew ih ⊢
    generalize after p {} moves = l at *
    have hbooks := books_move p l m
    have hafter : (l.move p m).activeTasks = (l.books.postAll (l.postings p m)).tasks :=
      congrArg Books.tasks hbooks
    rw [hafter] at hc ⊢
    by_cases hlt : l.lastKey < d'.key.val
    · obtain ⟨current, x, hx, rfl⟩ := arrival_move p ho.proper m hd' hlt
      have hacting : eventsOf (x.driver p l current).key (l.acting m) = [] :=
        eventsOf_acting_of_plain (fun d hd hk => by
          have := (ho.proper d hd).1
          rw [hk] at this
          omega) m
      rw [hnew _ hlt, hacting, (drivers_move_of_arrival p hx).2,
        eventsOf_newcomers_of_mem (orderly_move p ho m) hd' hlt]
      refine (state_arrival ho.balanced.sound x).trans ?_
      unfold Driver.entry?
      rw [Arrival.job_driver, Arrival.job]
      cases x.work <;> rfl
    · have hle : d'.key.val ≤ l.lastKey := Nat.not_lt.mp hlt
      obtain ⟨d, hd, hk, htask, _⟩ := exists_before p ho m hd' hle
      rw [eventsOf_newcomers_old hle, List.append_nil, TaskEvent.shown_append, htask, hk,
        ← notes_move p ho hd m]
      rw [htask] at hc
      have hb := contains_before ho hd hc
      rw [ho.balanced.sound.state_postAll _ hc, ho.balanced.sound.stored_of_contains hb hc]
      rw [show (l.books.tasks d.task.scheduler).state? d.task.id = _ from ih d hd hb]
      cases (List.filterMap _ (l.postings p m)).getLast? <;> rfl

/-! ## Every note may follow -/

theorem livesAll_arrival (hs : l.books.Sound) (x : Arrival Co Fu) :
    l.books.LivesAll (x.postings l) := by
  unfold Arrival.postings
  cases x.work with
  | coroutine co => exact ⟨trivial, trivial⟩
  | pending fu =>
    refine ⟨trivial, fun old hold => ?_, trivial⟩
    cases (hs.state_enter x.scheduler x.name).symm.trans hold
    exact .begun

theorem livesAll_actPostings (hs : l.books.Sound) {α : Type} (a : Act Co Fu α) :
    l.books.LivesAll (l.actPostings a) := by
  cases h : a.arrival? with
  | some x =>
    rw [actPostings_of_arrival h]
    exact livesAll_arrival hs x
  | none =>
    cases a with
    | ask q k =>
      cases q with
      | terminate s id => exact ⟨trivial, trivial⟩
      | _ => trivial
    | start s name co k => cases h
    | spawn s name fu k => cases h
    | nest s name co k => cases h
    | _ => trivial

theorem livesAll_invokedPostings (hs : l.books.Sound) (f : Driver Co Fu) (b : Builtin)
    (target : Target) (invoked : Invoked Co Fu) :
    l.books.LivesAll (l.invokedPostings f b target invoked) := by
  cases invoked with
  | coroutine co => exact ⟨trivial, trivial⟩
  | pending fu =>
    cases b with
    | fork => exact livesAll_arrival hs ⟨f.task.scheduler, target.name, .pending fu, false⟩
    | _ => trivial

/-- A driver whose task shows a state fits it. -/
theorem shows_after (moves : List (Move Co Fu)) (hd : d ∈ (after p {} moves).drivers)
    {co : Co} {passes : Nat} {kind : EffectKind} (hjob : d.job = .coroutine co passes kind)
    {state : TaskState}
    (h : ((after p {} moves).activeTasks d.task.scheduler).state? d.task.id = some state) :
    ∃ ph, Stands (after p {} moves) d ph ∧ ph.Shows state := by
  have hc : ((after p {} moves).activeTasks d.task.scheduler).contains d.task.id = true := by
    rw [← ActiveTasks.isSome_state?, h]
    rfl
  rw [state_after p moves d hd hc] at h
  rcases told_after p moves d.key with ⟨_, hplain⟩ | ⟨s, co', told, ph, htold, _, hp, hstands⟩
  · rw [hplain d hd rfl] at hjob
    cases hjob
  · obtain ⟨rfl, hst⟩ := hstands d hd rfl
    rw [htold] at h
    cases h
    exact ⟨ph, hst, hp.shows d.task.scheduler⟩

/-- A step notes a state that may follow the one that the task shows. -/
theorem livesAll_doing (moves : List (Move Co Fu)) {doing : Doing Co Fu}
    (hfocus : (after p {} moves).focus = .active pollers d.key doing)
    (hd : d ∈ (after p {} moves).drivers) :
    (after p {} moves).books.LivesAll ((after p {} moves).doingPostings p d doing) := by
  have hs := (orderly_after p moves).balanced.sound
  have hshows : ∀ co passes kind, d.job = .coroutine co passes kind → doing.works = true →
      ∀ old, ((after p {} moves).activeTasks d.task.scheduler).state? d.task.id = some old →
      ∃ co passes ph, (after p {} moves).Does co passes ph doing ∧ ph.Shows old := by
    intro co passes kind hjob hw old hold
    obtain ⟨ph, hst, hph⟩ := shows_after p moves hd hjob hold
    obtain ⟨co', passes', _, _, hdoes⟩ := does_of_stands hfocus hw hst
    exact ⟨co', passes', ph, hdoes, hph⟩
  unfold doingPostings
  split
  · rename_i input
    split
    · rename_i co passes kind hjob
      refine ⟨fun old hold => ?_, trivial⟩
      obtain ⟨_, _, ph, hdoes, hph⟩ := hshows co passes kind hjob rfl old hold
      rw [show ph = .owed _ input _ from hdoes] at hph
      exact hph
    · trivial
  · rename_i e co'
    split
    · rename_i co passes kind _ hjob _
      refine ⟨fun old hold => ?_, trivial⟩
      obtain ⟨_, _, ph, hdoes, hph⟩ := hshows co passes kind hjob rfl old hold
      rw [show ph = .running _ from hdoes] at hph
      rw [show old = .running from hph]
      exact .suspended e.kind
    · trivial
  · exact Books.livesAll_of_attempts ..
  · exact livesAll_invokedPostings hs ..
  · exact livesAll_actPostings hs _
  · exact livesAll_actPostings hs _
  · exact livesAll_actPostings hs _
  · exact livesAll_actPostings hs _
  · exact ⟨trivial, Books.livesAll_of_attempts ..⟩
  · exact Books.livesAll_of_attempts ..
  · trivial

/-- **Every state that a run notes may follow the one that the task shows.** -/
theorem livesAll_ledger (moves : List (Move Co Fu)) :
    ({} : Books).LivesAll (ledger p {} moves) := by
  induction moves using List.reverseRecOn with
  | nil => trivial
  | append_singleton moves m ih =>
    rw [ledger_append]
    refine Books.livesAll_append ih ?_
    rw [show ({} : Books) = ({} : EventLoop Co Fu).books from rfl, ← books_after]
    have hs := (orderly_after p moves).balanced.sound
    rw [ledger, ledger, List.append_nil]
    unfold postings
    split
    · exact livesAll_actPostings hs _
    · exact Books.livesAll_of_attempts ..
    · rename_i pollers key doing hfocus
      unfold stepPostings
      rw [hfocus]
      dsimp only
      split
      · rename_i d hd
        cases key_of_driver? hd
        exact livesAll_doing p moves hfocus (mem_of_driver? hd)
      · trivial
    · trivial

/-! ## Calls of coroutines -/

/-- The driver waits for the driver `n`, which its call has entered. -/
def Calls (n : DriverKey) : Seat Co Fu → Prop
  | .working (.await w spot) => w = .nested n ∧ spot = ⟨[.call], []⟩
  | .working (.visit branch forks) | .working (.pause branch forks) =>
    branch = .waiting (.nested n) [.call] ∧ forks = []
  | .polling k spot => k = n ∧ spot = ⟨[.call], []⟩
  | .resting (.pending branch) => branch = .waiting (.nested n) [.call]
  | .resting .busy => True
  | _ => False

/-- The coroutine of the driver `n` was entered for a call: the target that the coroutine of the driver
`key` calls has given it. -/
def CalledBy (moves : List (Move Co Fu)) (n key : DriverKey) : Prop :=
  ∃ first rest pollers told target args co d, moves = first ++ .step :: rest ∧
    history p first key = told ++ [.given (.builtin .call) (.call target args)] ∧
    (after p {} first).focus =
      .active pollers key (.invoke .call target (.ret (.coroutine co)) {}) ∧
    (after p {} first).driver? key = some d ∧ n = ⟨(after p {} first).lastKey + 1⟩

/-- The driver `n` works for the coroutine of the driver `key`, through calls of any depth. -/
inductive CallChain (moves : List (Move Co Fu)) : DriverKey → DriverKey → Prop
  | one {n key : DriverKey} (h : CalledBy p moves n key) : CallChain moves n key
  | more {n mid key : DriverKey} (h : CalledBy p moves n mid)
      (hmid : ∃ x ∈ (after p {} moves).drivers, x.key = mid) (hrest : CallChain moves mid key) :
      CallChain moves n key

/-- What a driver that waits for one it has called does next. -/
theorem calls_stepDriver {n : DriverKey} {doing : Doing Co Fu} (ho : Orderly l)
    (hfocus : l.focus = .active pollers d.key doing) (hd : d ∈ l.drivers)
    (hw : doing.works = true) (h : Calls n (.working doing : Seat Co Fu)) {d' : Driver Co Fu}
    (hd' : d' ∈ (l.stepDriver p pollers d doing).drivers) (hk : d'.key = d.key) :
    Calls n ((l.stepDriver p pollers d doing).seat d') := by
  cases doing with
  | await w spot =>
    obtain ⟨rfl, rfl⟩ := h
    rw [show l.stepDriver p pollers d (.await (.nested n) ⟨[.call], []⟩) =
      l.focusOn (.waiting d.key ⟨[.call], []⟩ :: pollers) n .poll from rfl,
      seat_focusOn_polling _ _ hk]
    exact ⟨rfl, rfl⟩
  | visit branch forks =>
    obtain ⟨rfl, rfl⟩ := h
    rw [show l.stepDriver p pollers d (.visit (.waiting (.nested n) [.call]) []) =
      l.focusOn (.waiting d.key ⟨[.call], []⟩ :: pollers) n .poll from rfl,
      seat_focusOn_polling _ _ hk]
    exact ⟨rfl, rfl⟩
  | pause branch forks =>
    obtain ⟨rfl, rfl⟩ := h
    refine (seat_of_rest ho hfocus hw hd hd' hk).symm ▸ ?_
    exact rfl
  | _ => exact h.elim

/-- A driver whose call has given a coroutine waits for the driver that it enters. -/
theorem calls_invoked (l : EventLoop Co Fu) (pollers : List (Poller Co Fu)) (target : Target)
    (co : Co) {d' : Driver Co Fu} (hk : d'.key = d.key) :
    Calls ⟨l.lastKey + 1⟩
      ((l.stepDriver p pollers d (.invoke .call target (.ret (.coroutine co)) {})).seat d') := by
  rw [show l.stepDriver p pollers d (.invoke .call target (.ret (.coroutine co)) {}) =
    (l.nest (p.scheduler d.task.scheduler) (some d.key) d.task.scheduler target.name co).1.focusOn
      pollers d.key (.await (.nested ⟨l.lastKey + 1⟩) ⟨[.call], []⟩) from rfl,
    seat_focusOn_of_works _ _ hk rfl]
  exact ⟨rfl, rfl⟩

/-- **A call lasts as long as the driver that it has entered**, one move. -/
theorem calls_move {n : DriverKey} (ho : Orderly l) (m : Move Co Fu) (hd : d ∈ l.drivers)
    (hthere : ∃ x ∈ l.drivers, x.key = n)
    (hover : ∀ {ps : List (Poller Co Fu)} {k : DriverKey} {o : Outcome},
      l.focus = .active ps k (.leave (some o)) → ∀ x ∈ l.drivers, x.key ≠ k)
    (h : Calls n (l.seat d)) {d' : Driver Co Fu} (hd' : d' ∈ (l.move p m).drivers)
    (hk : d'.key = d.key) : Calls n ((l.move p m).seat d') := by
  cases seat_move p ho m hd hd' hk with
  | still he hseat _ =>
    subst he
    rwa [hseat]
  | broken he hactivity hidle _ =>
    subst he
    rw [seat_of_idle hidle, hactivity]
    trivial
  | @back polled spot outcome pollers doing he hseat hfocus hleft hl =>
    subst he
    rw [hseat] at h
    obtain ⟨rfl, rfl⟩ := h
    rw [hl, seat_of_works rfl (by cases outcome <;> rfl)]
    cases outcome with
    | none => exact ⟨rfl, rfl⟩
    | some o =>
      -- an outcome is there only when the called driver is gone
      obtain ⟨x, hx, hxk⟩ := hthere
      have hleave := hleft.resolve_right fun hnone => nomatch hnone.1
      exact absurd hxk (hover (hleave ▸ hfocus) x hx)
  | bodyBack he hseat hl =>
    rw [hseat] at h
    exact h.elim
  | @begins pollers hfocus hseat hl =>
    have hu : ∀ x ∈ l.drivers, x.key = d.key → x = d := fun x hx => ho.eq_of_key hx hd
    rw [hseat] at h
    rw [hl] at hd' ⊢
    cases hactivity : d.activity with
    | fresh =>
      rw [hactivity] at h
      exact h.elim
    | busy =>
      rw [stepDriver_poll_busy p pollers hactivity] at hd' ⊢
      cases hu d' hd' hk
      rw [seat_of_not_works hfocus rfl, hactivity] at hseat
      rw [seat_focusOn_of_not_works _ _ rfl, hseat]
      trivial
    | pending branch =>
      rw [hactivity] at h
      rw [stepDriver_poll_pending p pollers hactivity, seat_focusOn_of_works _ _ hk rfl]
      exact ⟨h, rfl⟩
  | @acts pollers doing hfocus hw hl =>
    rw [seat_of_works hfocus hw] at h
    rw [hl] at hd' ⊢
    exact calls_stepDriver p ho hfocus hd hw h hd' hk

/-- A driver that waits for one it has called has nothing happen to it. -/
theorem eventsOf_acting_of_calls {n : DriverKey} (ho : Orderly l) (hd : d ∈ l.drivers)
    (h : Calls n (l.seat d)) (m : Move Co Fu) : eventsOf d.key (l.acting m) = [] := by
  rcases eventsOf_acting l m d.key with hnone | ⟨_, f, doing, e, _, hfocus, hf, hk, he, _⟩
  · exact hnone
  · cases ho.eq_of_key (mem_of_driver? hf) hd hk
    rw [seat_of_works hfocus (works_of_event he)] at h
    exfalso
    unfold Doing.event? at he
    split at he <;> first | exact h | cases he

/-- **A call lasts as long as the driver that it has entered.** -/
theorem given_of_called {moves : List (Move Co Fu)} {n key : DriverKey}
    (h : CalledBy p moves n key) (hthere : ∃ x ∈ (after p {} moves).drivers, x.key = n) :
    (∃ told target args, history p moves key =
      told ++ [.given (.builtin .call) (.call target args)]) ∧
    ∀ d ∈ (after p {} moves).drivers, d.key = key → Calls n ((after p {} moves).seat d) := by
  obtain ⟨first, rest, pollers, told, target, args, co, f, rfl, hhist, hfocus, hf, rfl⟩ := h
  cases key_of_driver? hf
  have hle : f.key.val ≤ (after p {} first).lastKey :=
    ((orderly_after p first).proper f (mem_of_driver? hf)).1
  have hl := move_step_of_driver p hfocus hf fun _ => nofun
  have hcalled : (after p {} (first ++ [.step])).lastKey = (after p {} first).lastKey + 1 := by
    rw [after_snoc, hl]
    rfl
  -- as long as the called driver is there, nothing happens to the coroutine that calls
  have hlasts : ∀ more, (∃ x ∈ (after p {} ((first ++ [.step]) ++ more)).drivers,
        x.key = ⟨(after p {} first).lastKey + 1⟩) →
      history p ((first ++ [.step]) ++ more) f.key = history p first f.key ∧
      ∀ d ∈ (after p {} ((first ++ [.step]) ++ more)).drivers, d.key = f.key →
        Calls ⟨(after p {} first).lastKey + 1⟩ ((after p {} ((first ++ [.step]) ++ more)).seat d) := by
    intro more
    induction more using List.reverseRecOn with
    | nil =>
      intro _
      rw [List.append_nil, history_snoc, happenings, eventsOf_append, after_snoc,
        eventsOf_newcomers_old hle, acting_of_driver hfocus hf, hl]
      have hnone : (Doing.invoke .call target (.ret (.coroutine co)) {}).event? f = none := by
        unfold Doing.event?
        cases f.job <;> rfl
      rw [hnone]
      refine ⟨List.append_nil _, fun d hd hk => ?_⟩
      exact calls_invoked p _ pollers target co hk
    | append_singleton more m ih =>
      rw [← List.append_assoc, after_snoc, history_snoc, happenings, eventsOf_append]
      rintro ⟨x, hx, hxk⟩
      have ho := orderly_after p ((first ++ [.step]) ++ more)
      have hbound := lastKey_le_after p (orderly_after p (first ++ [.step])).proper more
      rw [← after_append, hcalled] at hbound
      obtain ⟨y, hy, hyk, _⟩ := exists_before p ho m hx (by rw [hxk]; exact hbound)
      have hthere : ∃ y ∈ (after p {} ((first ++ [.step]) ++ more)).drivers,
          y.key = ⟨(after p {} first).lastKey + 1⟩ := ⟨y, hy, hyk.symm.trans hxk⟩
      obtain ⟨hsame, hcalls⟩ := ih hthere
      have hold : f.key.val ≤ (after p {} ((first ++ [.step]) ++ more)).lastKey := by omega
      rw [hsame, eventsOf_newcomers_old hold, List.append_nil]
      refine ⟨?_, fun d' hd' hk => ?_⟩
      · by_cases hex : ∃ d ∈ (after p {} ((first ++ [.step]) ++ more)).drivers, d.key = f.key
        · obtain ⟨d, hd, hk⟩ := hex
          rw [← hk, eventsOf_acting_of_calls ho hd (hcalls d hd hk), List.append_nil]
        · rw [eventsOf_acting_of_plain fun d hd hk => absurd ⟨d, hd, hk⟩ hex, List.append_nil]
      · obtain ⟨d, hd, hkd, _⟩ := exists_before p ho m hd' (hk ▸ hold)
        exact calls_move p ho m hd hthere (fun hf => gone_of_over p _ hf)
          (hcalls d hd (hkd.symm.trans hk)) hd' hkd
  have hmoves : first ++ .step :: rest = (first ++ [.step]) ++ rest := by
    rw [List.append_assoc, List.singleton_append]
  rw [hmoves] at hthere ⊢
  obtain ⟨hsame, hcalls⟩ := hlasts rest hthere
  exact ⟨⟨told, target, args, hsame.trans hhist⟩, hcalls⟩

/-- A coroutine whose effect is being processed is shown as suspended on its kind. -/
theorem suspended_of_given (moves : List (Move Co Fu)) (hd : d ∈ (after p {} moves).drivers)
    {told : List (TaskEvent Co)} {ref : ProcessorRef} {e : Effect}
    (hhist : history p moves d.key = told ++ [.given ref e])
    (hc : ((after p {} moves).activeTasks d.task.scheduler).contains d.task.id = true) :
    ((after p {} moves).activeTasks d.task.scheduler).state? d.task.id =
      some (.suspended e.kind) := by
  rw [state_after p moves d hd hc]
  rcases told_after p moves d.key with ⟨hnone, _⟩ | ⟨s, co, more, ph, htold, _, hp, hstands⟩
  · rw [hnone] at hhist
    exact absurd hhist.symm (by simp)
  · obtain ⟨rfl, _⟩ := hstands d hd rfl
    rw [htold]
    rw [htold] at hhist
    cases told with
    | nil => cases hhist
    | cons first told =>
      obtain ⟨rfl, rfl⟩ := List.cons.inj hhist
      obtain ⟨co', rfl⟩ := hp.processing_of_given
      exact congrArg some (hp.shows d.task.scheduler)

/-- **In a chain of calls every caller is suspended on its call.** -/
theorem suspended_of_callChain {moves : List (Move Co Fu)} {n key : DriverKey}
    (h : CallChain p moves n key) (hthere : ∃ x ∈ (after p {} moves).drivers, x.key = n)
    (hd : d ∈ (after p {} moves).drivers) (hk : d.key = key)
    (hc : ((after p {} moves).activeTasks d.task.scheduler).contains d.task.id = true) :
    ((after p {} moves).activeTasks d.task.scheduler).state? d.task.id =
      some (.suspended .call) := by
  induction h with
  | one h =>
    obtain ⟨⟨told, target, args, hhist⟩, _⟩ := given_of_called p h hthere
    rw [← hk] at hhist
    exact suspended_of_given p moves hd hhist hc
  | more _ hmid _ ih => exact ih hmid hk

/-! ## What an observer sees -/

/-- User code has its turn, or the program around the loop: the driver in focus is inside a resume, a
target, a processor or a sink, or no poll is under way. -/
def Observed (l : EventLoop Co Fu) : Prop :=
  match l.focus with
  | .idle | .active _ _ (.advance _) | .active _ _ (.work _ _) | .active _ _ (.invoke _ _ _ _)
  | .active _ _ (.dispatch _ _) => True
  | _ => False

/-- The coroutine of the driver is inside a resume: its body runs, or polls a nested driver. -/
def Resumes (l : EventLoop Co Fu) (key : DriverKey) : Prop :=
  (∃ a, l.place key = .working (.advance a)) ∨ l.place key = .body

/-- User code never has its turn when something follows at once for a coroutine that does not run. -/
theorem not_observed_of_urgent {ph : Phase Co} (ho : Orderly l) (hd : d ∈ l.drivers)
    (hst : Stands l d ph) (hph : ∀ passes, ph ≠ .running passes) (hu : Urgent l d.key) :
    ¬ Observed l := by
  intro hobs
  obtain ⟨pollers, f, doing, e, hfocus, hf, he⟩ := hu
  cases ho.eq_of_key (mem_of_driver? hf) hd (key_of_driver? hf)
  obtain ⟨co, passes, kind, hjob, hdoes⟩ := does_of_stands hfocus (works_of_event he) hst
  unfold Observed at hobs
  rw [hfocus] at hobs
  cases doing with
  | advance a => exact hph passes hdoes
  | work a spot =>
    unfold Doing.event? at he
    rw [hjob] at he
    cases he
  | invoke b target a spot =>
    unfold Doing.event? at he
    rw [hjob] at he
    cases he
  | dispatch a spot =>
    unfold Doing.event? at he
    rw [hjob] at he
    cases he
  | _ => exact hobs

/-- Who is among the pollers is not away. -/
theorem placeIn_ne_away {key : DriverKey} (h : key ∈ pollers.filterMap Poller.key?) :
    placeIn key pollers ≠ .away := by
  induction pollers with
  | nil => cases h
  | cons poller pollers ih =>
    by_cases hk : poller.key? = some key
    · cases poller with
      | hand => cases hk
      | body k f =>
        cases hk
        exact fun he => nomatch (if_pos rfl).symm.trans he
      | waiting k spot =>
        cases hk
        exact fun he => nomatch (if_pos rfl).symm.trans he
    · rw [placeIn_cons_of_ne hk]
      refine ih ?_
      rw [List.filterMap_cons] at h
      cases hp : poller.key? with
      | none =>
        rw [hp] at h
        exact h
      | some k =>
        rw [hp] at h hk
        exact (List.mem_cons.mp h).resolve_left fun he => hk (congrArg some he.symm)

theorem place_ne_away {key : DriverKey} (h : key ∈ l.held) : l.place key ≠ .away := by
  cases hfocus : l.focus with
  | idle =>
    rw [held_of_idle hfocus] at h
    cases h
  | active pollers k doing =>
    cases hw : doing.works with
    | false =>
      rw [held_of_not_works hfocus hw] at h
      rw [place_of_not_works hfocus hw]
      exact placeIn_ne_away h
    | true =>
      rw [held_of_works hfocus hw] at h
      by_cases hk : key = k
      · cases hk
        rw [place_of_works hfocus hw]
        exact nofun
      · rw [place_of_ne hfocus hk]
        exact placeIn_ne_away ((List.mem_cons.mp h).resolve_left hk)

/-- Where polls go by owners, a coroutine that runs is inside a resume whenever user code has its
turn. -/
theorem resumes_of_running (hr : Regular l) (hd : d ∈ l.drivers) {passes : Nat}
    (hst : Stands l d (.running passes)) (hobs : Observed l) : Resumes l d.key := by
  obtain ⟨co, passes', kind, hjob⟩ := exists_job_of_stands hst
  rw [stands_iff hjob] at hst
  cases hplace : l.place d.key with
  | body => exact .inr hplace
  | waiting =>
    rw [hplace] at hst
    obtain ⟨_, ref, e, hph, _⟩ := hst
    cases hph
  | away =>
    rw [hplace] at hst
    cases hactivity : d.activity with
    | fresh =>
      rw [hactivity] at hst
      cases hst
    | pending branch =>
      rw [hactivity] at hst
      obtain ⟨_, ref, e, hph, _⟩ := hst
      cases hph
    | busy =>
      refine absurd hplace (place_ne_away (hr.engaged d hd ?_ hactivity))
      rw [hjob]
      exact nofun
  | working doing =>
    rw [hplace] at hst
    obtain ⟨pollers, hfocus⟩ : ∃ pollers, l.focus = .active pollers d.key doing := by
      unfold place at hplace
      split at hplace
      · cases hplace
      · rename_i pollers key doing' hfocus
        split at hplace
        · rename_i hk
          cases hplace
          exact ⟨pollers, hk.1 ▸ hfocus⟩
        · exact absurd hplace (placeIn_ne_working _ _ _)
    unfold Observed at hobs
    rw [hfocus] at hobs
    cases doing with
    | advance a => exact .inl ⟨a, hplace⟩
    | work a spot | invoke b target a spot | dispatch a spot =>
      obtain ⟨_, ref, e, hph, _⟩ := hst
      cases hph
    | _ => exact hobs.elim

/-- A driver that has ended is gone. -/
theorem gone_of_ended (moves : List (Move Co Fu)) {key : DriverKey} {told : List (TaskEvent Co)}
    {o : Outcome} (h : history p moves key = told ++ [.ended o]) :
    ∀ x ∈ (after p {} moves).drivers, x.key ≠ key := by
  induction moves using List.reverseRecOn generalizing told with
  | nil => simp [history, trace, eventsOf] at h
  | append_singleton moves m ih =>
    have ho := orderly_after p moves
    rcases history_move p moves m key with hsame | ⟨s, co, hentered⟩ | ⟨_, _, _, e, _, _, _, _, hmore⟩
    · rw [hsame] at h
      intro x hx hk
      rw [after_snoc] at hx
      rcases told_after p moves key with ⟨hnone, _⟩ | ⟨_, _, _, _, _, hle, _⟩
      · rw [hnone] at h
        exact absurd h.symm (by simp)
      · obtain ⟨y, hy, hyk, _⟩ := exists_before p ho m hx (hk ▸ hle)
        exact ih h y hy (hyk.symm.trans hk)
    · rw [hentered] at h
      cases told with
      | nil => cases h
      | cons first told => exact absurd (List.cons.inj h).2.symm (by simp)
    · rw [hmore] at h
      obtain ⟨_, he⟩ := List.append_inj' h rfl
      cases he
      rw [history_snoc] at hmore
      have hevents := List.append_cancel_left hmore
      have hmem : .ended o ∈ eventsOf key (happenings p (after p {} moves) m) := by
        rw [hevents]
        exact List.mem_singleton.mpr rfl
      obtain ⟨⟨key', event⟩, hx, hk⟩ := List.mem_filterMap.mp hmem
      obtain ⟨rfl, he⟩ := Option.ite_none_right_eq_some.mp hk
      cases he
      rw [after_snoc]
      obtain ⟨_, _, _, _, _, hgone⟩ := ended_of_happenings p ho hx
      exact hgone

/-- Whenever user code has its turn, a coroutine has not been resumed yet, or it runs, or its effect is
being processed. -/
theorem seen_of_observed (moves : List (Move Co Fu)) (hd : d ∈ (after p {} moves).drivers)
    (hjob : d.job ≠ .plain) (hobs : Observed (after p {} moves)) :
    (∃ s co, history p moves d.key = [.entered s co]) ∨
    (∃ told co input passes, history p moves d.key = told ++ [.resumed co input] ∧
      Stands (after p {} moves) d (.running passes)) ∨
    ∃ told ref e, history p moves d.key = told ++ [.given ref e] := by
  rcases told_after p moves d.key with ⟨_, hplain⟩ | ⟨s, co, told, ph, htold, _, hp, hstands⟩
  · exact absurd (hplain d hd rfl) hjob
  · obtain ⟨_, hst⟩ := hstands d hd rfl
    rw [htold]
    rcases hp.abides with habides | ⟨hph, first, e, rfl, hu⟩
    · cases habides with
      | fresh => exact .inl ⟨s, co, rfl⟩
      | running passes h co' input =>
        exact .inr (.inl ⟨.entered s co :: h, co', input, passes, rfl, hst⟩)
      | processing co' ref e h => exact .inr (.inr ⟨.entered s co :: h, ref, e, rfl⟩)
      | closed o h =>
        have htold : history p moves d.key = (.entered s co :: h) ++ [.ended o] := htold
        exact absurd rfl (gone_of_ended p moves htold d hd)
    · have htold : history p moves d.key = (.entered s co :: first) ++ [e] := htold
      have hurgent := urgent_after p moves htold hu
      exact absurd hobs (not_observed_of_urgent (orderly_after p moves) hd hst hph hurgent)

/-! ## The states of tasks in a run -/

/-- What the register says of the task of the driver `d`, which is active, after a run. -/
structure Truthful (moves : List (Move Co Fu)) (d : Driver Co Fu) : Prop where
  /-- A plain computation runs as long as it has an entry. -/
  plain : d.job = .plain →
    ((after p {} moves).activeTasks d.task.scheduler).state? d.task.id = some .running
  /-- A coroutine that is shown as created has never been resumed. -/
  created : d.job ≠ .plain → Observed (after p {} moves) →
    ((after p {} moves).activeTasks d.task.scheduler).state? d.task.id = some .created →
    ∀ co input, .resumed co input ∉ history p moves d.key
  /-- A coroutine that is shown as running was resumed last and is inside that resume. -/
  running : d.job ≠ .plain → Observed (after p {} moves) →
    ((after p {} moves).activeTasks d.task.scheduler).state? d.task.id = some .running →
    (∃ told co input, history p moves d.key = told ++ [.resumed co input]) ∧
      (OwnersPollIn p moves → Resumes (after p {} moves) d.key)
  /-- A coroutine is shown as suspended exactly while an effect of that kind is being processed. -/
  suspended : d.job ≠ .plain → Observed (after p {} moves) → ∀ kind,
    ((after p {} moves).activeTasks d.task.scheduler).state? d.task.id = some (.suspended kind) ↔
    ∃ told ref e, history p moves d.key = told ++ [.given ref e] ∧ e.kind = kind
  /-- Whoever calls, directly or not, the coroutine of a driver that is there is suspended on it. -/
  calls : ∀ n, CallChain p moves n d.key → (∃ x ∈ (after p {} moves).drivers, x.key = n) →
    ((after p {} moves).activeTasks d.task.scheduler).state? d.task.id = some (.suspended .call)
  /-- A driver that is about to end by itself runs until then. -/
  ends : ∀ pollers o, (after p {} moves).focus = .active pollers d.key (.finish o) →
    ((after p {} moves).activeTasks d.task.scheduler).state? d.task.id = some .running

theorem truthful_after (moves : List (Move Co Fu)) (hd : d ∈ (after p {} moves).drivers)
    (hc : ((after p {} moves).activeTasks d.task.scheduler).contains d.task.id = true) :
    Truthful p moves d := by
  have hstate := state_after p moves d hd hc
  have hplain : d.job = .plain →
      ((after p {} moves).activeTasks d.task.scheduler).state? d.task.id = some .running := by
    intro hjob
    rw [hstate]
    rcases told_after p moves d.key with ⟨hnone, _⟩ | ⟨_, _, _, _, _, _, _, hstands⟩
    · rw [hnone]
      rfl
    · obtain ⟨_, hst⟩ := hstands d hd rfl
      obtain ⟨_, _, _, hcoroutine⟩ := exists_job_of_stands hst
      rw [hjob] at hcoroutine
      cases hcoroutine
  -- what is shown in each of the three cases
  have hcreated : ∀ s co, history p moves d.key = [.entered s co] →
      ((after p {} moves).activeTasks d.task.scheduler).state? d.task.id = some .created := by
    intro s co hhist
    rw [hstate, hhist]
    rfl
  have hrunning : ∀ told co input, history p moves d.key = told ++ [.resumed co input] →
      ((after p {} moves).activeTasks d.task.scheduler).state? d.task.id = some .running := by
    intro told co input hhist
    rw [hstate, hhist, TaskEvent.shown_append]
    rfl
  have hsuspended : ∀ told ref e, history p moves d.key = told ++ [.given ref e] →
      ((after p {} moves).activeTasks d.task.scheduler).state? d.task.id =
        some (.suspended e.kind) :=
    fun told ref e hhist => suspended_of_given p moves hd hhist hc
  constructor
  case plain => exact hplain
  case created =>
    intro hjob hobs hshown co input hmem
    rcases seen_of_observed p moves hd hjob hobs with
      ⟨s, co', hhist⟩ | ⟨told, co', input', _, hhist, _⟩ | ⟨told, ref, e, hhist⟩
    · rw [hhist] at hmem
      simp at hmem
    · cases (hrunning _ _ _ hhist).symm.trans hshown
    · cases (hsuspended _ _ _ hhist).symm.trans hshown
  case running =>
    intro hjob hobs hshown
    rcases seen_of_observed p moves hd hjob hobs with
      ⟨s, co, hhist⟩ | ⟨told, co, input, passes, hhist, hst⟩ | ⟨told, ref, e, hhist⟩
    · cases (hcreated _ _ hhist).symm.trans hshown
    · exact ⟨⟨told, co, input, hhist⟩, fun hown =>
        resumes_of_running (wakeful_after p moves hown).1 hd hst hobs⟩
    · cases (hsuspended _ _ _ hhist).symm.trans hshown
  case suspended =>
    intro hjob hobs kind
    constructor
    · intro hshown
      rcases seen_of_observed p moves hd hjob hobs with
        ⟨s, co, hhist⟩ | ⟨told, co, input, _, hhist, _⟩ | ⟨told, ref, e, hhist⟩
      · cases (hcreated _ _ hhist).symm.trans hshown
      · cases (hrunning _ _ _ hhist).symm.trans hshown
      · refine ⟨told, ref, e, hhist, ?_⟩
        cases (hsuspended _ _ _ hhist).symm.trans hshown
        rfl
    · rintro ⟨told, ref, e, hhist, rfl⟩
      exact hsuspended told ref e hhist
  case calls =>
    exact fun n hchain hthere => suspended_of_callChain p hchain hthere hd rfl hc
  case ends =>
    intro pollers o hfocus
    cases hjob : d.job with
    | plain => exact hplain hjob
    | coroutine co passes kind =>
      obtain ⟨state, hshown⟩ := Option.isSome_iff_exists.mp
        ((ActiveTasks.isSome_state? _ d.task.id).trans hc)
      obtain ⟨ph, hst, hph⟩ := shows_after p moves hd hjob hshown
      obtain ⟨_, _, _, _, hdoes⟩ := does_of_stands hfocus rfl hst
      rw [show ph = .ending o from hdoes] at hph
      rw [hshown, show state = .running from hph]

/-- **Every task lives by its states**, in every run of every program. The states stored for a task are
a path of its life: it is created, runs, and is suspended and runs in turn, and none of them says that
it is over. The register shows the last of them until the task has its outcome; then it shows nothing,
and nothing is stored for it any more. Each task with an entry is that of a driver, and while user code
has its turn the entry says where the coroutine of the driver is (`Truthful`). -/
theorem tasks_live_by_their_states (moves : List (Move Co Fu)) :
    (∀ s id, TaskState.IsLife (({} : Books).stored s id (ledger p {} moves)) ∧
      (∀ state ∈ ({} : Books).stored s id (ledger p {} moves), state.isTerminal = false) ∧
      (((after p {} moves).activeTasks s).contains id = true →
        ((after p {} moves).activeTasks s).state? id =
          (({} : Books).stored s id (ledger p {} moves)).getLast?) ∧
      (((after p {} moves).activeTasks s).outcome? id ≠ none →
        ((after p {} moves).activeTasks s).state? id = none ∧
        ∀ more, ({} : Books).stored s id (ledger p {} (moves ++ more)) =
          ({} : Books).stored s id (ledger p {} moves))) ∧
    (∀ s id, ((after p {} moves).activeTasks s).contains id = true →
      ∃ d ∈ (after p {} moves).drivers, d.task.scheduler = s ∧ d.task.id = id ∧
        Truthful p moves d) := by
  have ho := orderly_after p moves
  have hempty : ({} : Books).Sound := fun _ => .empty
  have hbooks : (after p {} moves).books = ({} : Books).postAll (ledger p {} moves) :=
    books_after p {} moves
  have htasks : (after p {} moves).activeTasks = (({} : Books).postAll (ledger p {} moves)).tasks :=
    congrArg Books.tasks hbooks
  constructor
  · intro s id
    have hlife : TaskState.IsLife (({} : Books).stored s id (ledger p {} moves)) :=
      hempty.isLife_stored (livesAll_ledger p moves) rfl
    refine ⟨hlife, fun state => hlife.not_isTerminal, fun hc => ?_, fun hs => ⟨?_, fun more => ?_⟩⟩
    · rw [htasks] at hc ⊢
      rw [hempty.state_postAll _ hc]
      exact Option.or_none
    · obtain ⟨o, hout⟩ := Option.ne_none_iff_exists'.mp hs
      exact ActiveTasks.state?_eq_none ((ho.balanced.sound s).not_contains_of_outcome hout)
    · obtain ⟨o, hout⟩ := Option.ne_none_iff_exists'.mp hs
      rw [htasks] at hout
      rw [ledger_append, Books.stored_append,
        (hempty.postAll _).stored_of_outcome hout, List.append_nil]
  · intro s id hc
    obtain ⟨duty, hduty, rfl, rfl⟩ := ho.balanced.owed s id hc
    obtain ⟨d, hd, rfl⟩ := List.mem_map.mp hduty
    have hguard := (ho.proper d hd).2.guard
    exact ⟨d, hd, rfl, hguard.symm, truthful_after p moves hd (hguard ▸ hc)⟩

end

/-- Coroutine 1, which has called the one that joins, is suspended on its call between polls. -/
theorem callsJoin_suspended : CallChain callsJoin toJoin ⟨3⟩ ⟨2⟩ ∧
    ((after callsJoin {} toJoin).activeTasks ⟨0⟩).state? ⟨2⟩ = some (.suspended .call) := by
  have hchain : CallChain callsJoin toJoin ⟨3⟩ ⟨2⟩ :=
    .one ⟨toJoin.take 7, toJoin.drop 8, [], [_, _, _], ⟨"target", .coroutine, ⟨"join", []⟩⟩,
      [], 2, _, rfl, rfl, rfl, rfl, rfl⟩
  have hkeys : ((after callsJoin {} toJoin).drivers.map fun x =>
      (x.task.scheduler, x.task.id, x.key)) =
        [(⟨0⟩, ⟨1⟩, ⟨1⟩), (⟨0⟩, ⟨2⟩, ⟨2⟩), (⟨0⟩, ⟨3⟩, ⟨3⟩)] := rfl
  have hcalled : ∃ x ∈ (after callsJoin {} toJoin).drivers, x.key = ⟨3⟩ := by
    have hmem : (⟨0⟩, ⟨3⟩, ⟨3⟩) ∈ (after callsJoin {} toJoin).drivers.map fun x =>
        (x.task.scheduler, x.task.id, x.key) := by simp [hkeys]
    obtain ⟨x, hx, he⟩ := List.mem_map.mp hmem
    exact ⟨x, hx, congrArg (·.2.2) he⟩
  obtain ⟨d, hd, hs, hi, hcaller⟩ := (tasks_live_by_their_states callsJoin toJoin).2 ⟨0⟩ ⟨2⟩ rfl
  have hkey : d.key = ⟨2⟩ := by
    have hmem := List.mem_map_of_mem (f := fun x => (x.task.scheduler, x.task.id, x.key)) hd
    rw [hkeys, hs, hi] at hmem
    simpa using hmem
  refine ⟨hchain, ?_⟩
  rw [← hs, ← hi]
  exact hcaller.calls ⟨3⟩ (hkey ▸ hchain) hcalled

end EventLoop

end EffectLoop
