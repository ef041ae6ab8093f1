import EffectLoop.Proofs.Homes
import EffectLoop.Proofs.Settlement

/-!
# Who is woken

Whatever happens to a loop, a wait for a task goes on until the task is settled, and then the home that
waits is queued: `Rouses` says so of two states, and `rouses_stepDriver` of a step of any driver. It
also says whom the loop may come to poll: the homes that are summoned are those of drivers, and of
drivers that were just entered.
-/

namespace EffectLoop

variable {Co Fu α : Type}

/-- The act begins with starting a task in a runtime task of its own. -/
def Act.starts : Act Co Fu α → Bool
  | .start _ _ _ _ | .spawn _ _ _ _ => true
  | _ => false

namespace EventLoop

/-- The homes that the loop may come to poll: those queued, those deferred and those that wait. -/
def summoned (l : EventLoop Co Fu) : List DriverKey :=
  l.queue ++ l.deferred ++ l.waiting.map Prod.snd

/-- The homes that may come to be summoned between two states: those of drivers that are there, and of
drivers that are entered with a home of their own. -/
def MaySummon (l l' : EventLoop Co Fu) (home : DriverKey) : Prop :=
  (∃ d ∈ l.drivers, d.home = home) ∨
    l.lastKey < home.val ∧ ∃ d ∈ l'.drivers, d.key = home ∧ d.IsRoot

/-- Between two states nobody is forgotten who is queued or waits for a task, but for homes that are
`gone`, and only `new` homes come to be summoned. -/
structure Rouses (gone new : DriverKey → Prop) (l l' : EventLoop Co Fu) : Prop where
  queued : ∀ home ∈ l.queue, ¬ gone home → home ∈ l'.queue
  roused : ∀ t home, (Wait.task t, home) ∈ l.waiting → ¬ gone home → l.outcome? t = none →
    l'.outcome? t = none ∧ (Wait.task t, home) ∈ l'.waiting ∨
      l'.outcome? t ≠ none ∧ home ∈ l'.queue
  settled : ∀ t, l.outcome? t ≠ none → l'.outcome? t ≠ none
  summoned : ∀ home ∈ l'.summoned, home ∈ l.summoned ∨ new home

namespace Rouses

variable {gone new : DriverKey → Prop} {l l' l'' : EventLoop Co Fu}

theorem of_eq (hq : l'.queue = l.queue) (hd : l'.deferred = l.deferred)
    (hw : l'.waiting = l.waiting) (ho : ∀ t, l'.outcome? t = l.outcome? t) : Rouses gone new l l' where
  queued := fun home h _ => hq ▸ h
  roused := fun t home h _ hn => .inl ⟨(ho t).trans hn, hw ▸ h⟩
  settled := fun t h => by rwa [ho t]
  summoned := fun home h => .inl (by rwa [EventLoop.summoned, hq, hd, hw] at h)

theorem refl (l : EventLoop Co Fu) : Rouses gone new l l := of_eq rfl rfl rfl fun _ => rfl

theorem trans (h : Rouses gone new l l') (h' : Rouses gone new l' l'') : Rouses gone new l l'' where
  queued := fun home hm hg => h'.queued home (h.queued home hm hg) hg
  roused := by
    intro t home hm hg hn
    rcases h.roused t home hm hg hn with ⟨hn', hm'⟩ | ⟨hs, hq⟩
    · exact h'.roused t home hm' hg hn'
    · exact .inr ⟨h'.settled t hs, h'.queued home hq hg⟩
  settled := fun t ht => h'.settled t (h.settled t ht)
  summoned := by
    intro home hm
    rcases h'.summoned home hm with hm | hn
    · exact h.summoned home hm
    · exact .inr hn

theorem unsettled (h : Rouses gone new l l') {t : TaskHandle} (hn : l'.outcome? t = none) :
    l.outcome? t = none := by
  by_contra hs
  exact h.settled t hs hn

/-- A wait for a task goes on while the task has no outcome. -/
theorem still_waits (h : Rouses gone new l l') {t : TaskHandle} {home : DriverKey}
    (hm : (.task t, home) ∈ l.waiting) (hg : ¬ gone home) (hn : l'.outcome? t = none) :
    (.task t, home) ∈ l'.waiting := by
  rcases h.roused t home hm hg (h.unsettled hn) with ⟨_, hm⟩ | ⟨hs, _⟩
  · exact hm
  · exact absurd hn hs

/-- Who waits for a task is queued by its outcome. -/
theorem queued_of_settled (h : Rouses gone new l l') {t : TaskHandle} {home : DriverKey}
    (hm : (.task t, home) ∈ l.waiting) (hg : ¬ gone home) (hn : l.outcome? t = none)
    (hs : l'.outcome? t ≠ none) : home ∈ l'.queue := by
  rcases h.roused t home hm hg hn with ⟨hn, _⟩ | ⟨_, hq⟩
  · exact absurd hn hs
  · exact hq

/-- What keeps queue, waits and outcomes and moves the focus. -/
theorem focusOn (h : Rouses gone new l l') (pollers : List (Poller Co Fu)) (key : DriverKey)
    (doing : Doing Co Fu) : Rouses gone new l (l'.focusOn pollers key doing) :=
  h.trans (of_eq rfl rfl rfl fun _ => rfl)

end Rouses

/-! ## The operations of a loop -/

section

variable {gone new : DriverKey → Prop} (l : EventLoop Co Fu)

theorem mem_of_mem_enqueue {queue homes : List DriverKey} {home : DriverKey}
    (h : home ∈ enqueue queue homes) : home ∈ queue ∨ home ∈ homes := by
  induction homes generalizing queue with
  | nil => exact .inl h
  | cons first homes ih =>
    rcases ih h with h | h
    · beta_reduce at h
      split at h
      · exact .inl h
      · refine (List.mem_append.mp h).imp_right fun h => ?_
        exact List.mem_cons.mpr (.inl (List.mem_singleton.mp h))
    · exact .inr (List.mem_cons_of_mem _ h)

theorem summoned_wake (ready : Wait → Bool) {home : DriverKey}
    (h : home ∈ (l.wake ready).summoned) : home ∈ l.summoned := by
  have hwaits : ∀ {f : Wait × DriverKey → Bool}, home ∈ (l.waiting.filter f).map Prod.snd →
      home ∈ l.summoned := fun hm =>
    List.mem_append_right _ ((List.filter_sublist.map _).subset hm)
  rcases List.mem_append.mp h with h | h
  · rcases List.mem_append.mp h with h | h
    · rcases mem_of_mem_enqueue h with h | h
      · exact List.mem_append_left _ (List.mem_append_left _ h)
      · exact hwaits h
    · exact List.mem_append_left _ (List.mem_append_right _ h)
  · exact hwaits h

/-- To end waits that are for no task rouses. -/
theorem rouses_wake {ready : Wait → Bool} (hr : ∀ t, ready (.task t) = false) :
    Rouses gone new l (l.wake ready) where
  queued := fun home h _ => mem_enqueue (.inl h)
  roused := fun t home h _ hn => .inl ⟨hn, List.mem_filter.mpr ⟨h, by rw [hr t]; rfl⟩⟩
  settled := fun t h => h
  summoned := fun home h => .inl (l.summoned_wake ready h)

theorem outcome?_setTasks (s : SchedulerId) (tasks : ActiveTasks) (t : TaskHandle) :
    (l.setTasks s tasks).outcome? t =
      if t.scheduler = s then tasks.outcome? t.id else l.outcome? t := by
  unfold outcome?
  rw [activeTasks_setTasks, Function.update_apply]
  split <;> rfl

/-- What has an outcome keeps one. -/
theorem outcome?_settle_ne_none {tasks : ActiveTasks} {id : TaskId}
    (h : tasks.outcome? id ≠ none) (id' : TaskId) (o : Outcome) :
    (tasks.settle id' o).1.outcome? id ≠ none := by
  by_cases hi : id = id'
  · subst hi
    unfold ActiveTasks.settle
    split
    · unfold ActiveTasks.outcome? at h ⊢
      rw [ne_eq, Option.map_eq_none_iff] at h ⊢
      simp [List.find?_append]
    · exact h
  · rwa [ActiveTasks.outcome?_settle_of_ne _ hi]

/-- To settle an active task and wake those who wait for it rouses. -/
theorem rouses_settled {s : SchedulerId} {id : TaskId}
    (hc : (l.activeTasks s).contains id = true) (o : Outcome) :
    Rouses gone new l
      ((l.setTasks s ((l.activeTasks s).settle id o).1).wake (Wait.isFor s id)) := by
  have houtcome : ∀ t : TaskHandle,
      ((l.setTasks s ((l.activeTasks s).settle id o).1).wake (Wait.isFor s id)).outcome? t =
        if t.scheduler = s then ((l.activeTasks s).settle id o).1.outcome? t.id else l.outcome? t :=
    l.outcome?_setTasks s _
  refine ⟨fun home h _ => mem_enqueue (.inl h), ?_, ?_, fun home h => .inl (summoned_wake _ _ h)⟩
  · intro t home hm _ hn
    rw [houtcome]
    by_cases ht : t.scheduler = s ∧ t.id = id
    · obtain ⟨rfl, rfl⟩ := ht
      rw [if_pos rfl, ActiveTasks.outcome?_settle_self hc hn]
      exact .inr ⟨nofun, mem_queue_wake hm (by simp [Wait.isFor])⟩
    · refine .inl ⟨?_, List.mem_filter.mpr ⟨hm, ?_⟩⟩
      · split
        · rename_i hs
          subst hs
          rwa [ActiveTasks.outcome?_settle_of_ne _ fun hi => ht ⟨rfl, hi⟩]
        · exact hn
      · simpa [Wait.isFor, -not_and, not_and_or] using ht
  · intro t hs
    rw [houtcome]
    split
    · rename_i hscheduler
      subst hscheduler
      exact outcome?_settle_ne_none hs id o
    · exact hs

theorem rouses_setState (h : TaskHandle) (state : TaskState) :
    Rouses gone new l (l.setState h state) :=
  .of_eq rfl rfl rfl fun t => by
    unfold setState
    rw [outcome?_setTasks]
    split
    · rename_i hs
      rw [ActiveTasks.outcome?_setState, ← hs]
      rfl
    · rfl

theorem rouses_settle {d : Driver Co Fu} (hd : d.Proper) (o : Outcome) :
    Rouses gone new l (l.settle d fun tasks => tasks.settle d.guard.id o).1 := by
  rw [settle_fst]
  split
  · rename_i hc
    rw [hd.guard] at hc ⊢
    exact l.rouses_settled hc o
  · exact .of_eq rfl rfl rfl fun _ => rfl

theorem rouses_terminate (spans : List Span) (s : SchedulerId) (id : TaskId) :
    Rouses gone new l (l.terminate spans s id).1 := by
  rw [terminate_eq]
  split
  · rename_i hc
    exact (l.rouses_settled hc _).trans (.of_eq rfl rfl rfl fun _ => rfl)
  · exact .refl l

theorem rouses_discharge {d : Driver Co Fu} (hd : d.Proper) (o : Outcome) :
    Rouses gone new l (l.discharge d o) :=
  (l.rouses_settle hd o).trans (.of_eq rfl rfl rfl fun _ => rfl)

theorem rouses_abandon {d : Driver Co Fu} (hd : d.Proper) : Rouses gone new l (l.abandon d) := by
  rcases l.abandon_eq d with h | h
  · rw [h]
    exact l.rouses_discharge hd _
  · rw [h]
    exact (l.rouses_discharge hd _).trans (.of_eq rfl rfl rfl fun _ => rfl)

theorem rouses_foldl_abandon {ds : List (Driver Co Fu)} (hds : ∀ d ∈ ds, d.Proper) :
    Rouses gone new l (ds.foldl abandon l) := by
  induction ds generalizing l with
  | nil => exact .refl l
  | cons d ds ih =>
    obtain ⟨hd, hds⟩ := List.forall_mem_cons.mp hds
    exact (l.rouses_abandon hd).trans (ih _ hds)

variable {l}

theorem rouses_dropNested (hl : Proper l) (key : DriverKey) :
    Rouses gone new l (l.dropNested key) := by
  refine l.rouses_foldl_abandon fun d hd => ?_
  exact (hl d ((nestedBelow_sublist _ _).subset (List.mem_reverse.mp hd))).2

theorem rouses_conclude (hl : Proper l) {d : Driver Co Fu} (hd : d.Proper) (o : Outcome) :
    Rouses gone new l (l.conclude d o) := by
  obtain ⟨e, he⟩ := l.conclude_eq d o
  rw [he]
  have hnote : Rouses gone new l (l.note e) := .of_eq rfl rfl rfl fun _ => rfl
  refine (hnote.trans ((l.note e).rouses_discharge hd o)).trans (rouses_dropNested ?_ d.key)
  refine Spares.proper ?_ hl
  refine .of_subset ?_ ((l.note e).settle_lastKey d _ _)
  rw [drivers_discharge]
  exact List.filter_sublist.subset

/-- To forget a home forgets no other. -/
theorem rouses_forget (l : EventLoop Co Fu) (home : DriverKey) :
    Rouses (· = home) new l (l.forget home) where
  queued := fun other h hg => List.mem_filter.mpr ⟨h, decide_eq_true hg⟩
  roused := fun t other h hg hn => .inl ⟨hn, List.mem_filter.mpr ⟨h, decide_eq_true hg⟩⟩
  settled := fun t h => h
  summoned := by
    intro other h
    left
    rcases List.mem_append.mp h with h | h
    · rcases List.mem_append.mp h with h | h
      · exact List.mem_append_left _ (List.mem_append_left _ (List.mem_filter.mp h).1)
      · exact List.mem_append_left _ (List.mem_append_right _ (List.mem_filter.mp h).1)
    · exact List.mem_append_right _ ((List.filter_sublist.map _).subset h)

/-- A panic in a home forgets nobody who lives elsewhere. -/
theorem rouses_crash (hl : Proper l) (home : DriverKey) :
    Rouses (· = home) new l (l.crash home) := by
  have hdrop : Rouses (· = home) new l
      ((l.drivers.filter (·.home = home)).reverse.foldl abandon l) :=
    l.rouses_foldl_abandon fun d hd => (hl d (List.mem_filter.mp (List.mem_reverse.mp hd)).1).2
  exact (hdrop.trans (rouses_forget _ home)).trans (.of_eq rfl rfl rfl fun _ => rfl)

theorem rouses_openGate (l : EventLoop Co Fu) (name : String) (v : Json) :
    Rouses gone new l (l.openGate name v) := by
  unfold openGate
  split
  · exact .refl l
  · refine Rouses.trans ?_ (rouses_wake _ fun _ => rfl)
    exact .of_eq rfl rfl rfl fun _ => rfl

/-! ## Starting work -/

theorem rouses_enter (l : EventLoop Co Fu) (spec : SchedulerSpec) (current : Option DriverKey)
    (owner : Owner) (s : SchedulerId) (name : String) (job : Job Co) (activity : Activity Fu) :
    Rouses gone new l (l.enter spec current owner s name job activity).1 :=
  .of_eq rfl rfl rfl fun t => by
    refine (l.outcome?_setTasks s _ t).trans ?_
    split
    · rename_i hs
      rw [ActiveTasks.outcome?_register, ← hs]
      rfl
    · rfl

/-- To queue a home that is new. -/
theorem rouses_push (l : EventLoop Co Fu) {home : DriverKey} (h : new home) :
    Rouses gone new l { l with queue := l.queue ++ [home] } where
  queued := fun other hm _ => List.mem_append_left _ hm
  roused := fun t other hm _ hn => .inl ⟨hn, hm⟩
  settled := fun t ht => ht
  summoned := by
    intro other hm
    simp only [summoned, List.mem_append, List.mem_singleton] at hm ⊢
    rcases hm with ((hm | rfl) | hm) | hm
    · exact .inl (.inl (.inl hm))
    · exact .inr h
    · exact .inl (.inl (.inr hm))
    · exact .inl (.inr hm)

theorem rouses_start (hnew : new ⟨l.lastKey + 1⟩) (spec : SchedulerSpec)
    (current : Option DriverKey) (s : SchedulerId) (name : String) (co : Co) :
    Rouses gone new l (l.start spec current s name co).1 :=
  (l.rouses_enter spec current .loop s name _ _).trans (rouses_push _ hnew)

theorem rouses_spawn (hnew : new ⟨l.lastKey + 1⟩) (spec : SchedulerSpec)
    (current : Option DriverKey) (s : SchedulerId) (name : String) (fu : Fu) :
    Rouses gone new l (l.spawn spec current s name fu).1 :=
  ((l.rouses_enter spec current .loop s name _ _).trans (rouses_setState _ _ _)).trans
    (rouses_push _ hnew)

theorem maySummon_enter (l : EventLoop Co Fu) (spec : SchedulerSpec) (current : Option DriverKey)
    (s : SchedulerId) (name : String) (job : Job Co) (activity : Activity Fu) :
    l.MaySummon (l.enter spec current .loop s name job activity).1 ⟨l.lastKey + 1⟩ :=
  .inr ⟨Nat.lt_succ_self _, _, List.mem_append_right _ (List.mem_singleton.mpr rfl), rfl,
    fun _ => nofun⟩

theorem maySummon_perform (p : Program Co Fu) (current : Option DriverKey) {a : Act Co Fu α}
    (h : a.starts = true) : l.MaySummon (l.perform p current a).1 ⟨l.lastKey + 1⟩ := by
  cases a with
  | start s name co k => exact l.maySummon_enter _ current s name _ _
  | spawn s name fu k => exact l.maySummon_enter _ current s name _ _
  | _ => cases h

theorem rouses_perform (p : Program Co Fu) (current : Option DriverKey) (a : Act Co Fu α)
    (hnew : a.starts = true → new ⟨l.lastKey + 1⟩) : Rouses gone new l (l.perform p current a).1 := by
  cases a with
  | ask q k =>
    cases q with
    | openGate name v => exact l.rouses_openGate name v
    | terminate s id => exact l.rouses_terminate _ s id
    | _ => exact .of_eq rfl rfl rfl fun _ => rfl
  | start s name co k => exact rouses_start (hnew rfl) _ current s name co
  | spawn s name fu k => exact rouses_spawn (hnew rfl) _ current s name fu
  | nest s name co k => exact l.rouses_enter _ current _ s name _ _
  | _ => exact .refl l

theorem rouses_stepInvoked (p : Program Co Fu) (pollers : List (Poller Co Fu)) (d : Driver Co Fu)
    (b : Builtin) (target : Target) (spot : Spot Fu) (invoked : Invoked Co Fu) :
    Rouses gone (l.MaySummon (l.stepInvoked p pollers d b target spot invoked)) l
      (l.stepInvoked p pollers d b target spot invoked) := by
  cases invoked with
  | pending fu =>
    cases b with
    | fork => exact (rouses_spawn (l.maySummon_enter _ _ _ _ _ _) _ _ _ _ fu).focusOn _ _ _
    | _ => exact .of_eq rfl rfl rfl fun _ => rfl
  | coroutine co =>
    cases b with
    | fork => exact (rouses_start (l.maySummon_enter _ _ _ _ _ _) _ _ _ _ co).focusOn _ _ _
    | _ => exact (l.rouses_enter _ _ _ _ _ _ _).focusOn _ _ _

/-! ## A step of a driver -/

variable (p : Program Co Fu) (pollers : List (Poller Co Fu)) {d : Driver Co Fu}

theorem rouses_wait (hhome : new d.home) (w : Wait) : Rouses gone new l (l.wait pollers d w) := by
  unfold wait
  split
  · split
    · refine ⟨fun _ h _ => h, fun t _ h _ hn => .inl ⟨hn, h⟩, fun t h => h, ?_⟩
      intro other hm
      simp only [summoned, List.mem_append, List.mem_singleton] at hm ⊢
      rcases hm with (hm | hm | rfl) | hm
      · exact .inl (.inl (.inl hm))
      · exact .inl (.inl (.inr hm))
      · exact .inr hhome
      · exact .inl (.inr hm)
    · exact .refl l
    · exact .refl l
    · refine ⟨fun _ h _ => h, fun t _ h _ hn => .inl ⟨hn, List.mem_append_left _ h⟩,
        fun t h => h, ?_⟩
      intro other hm
      simp only [summoned, List.map_append, List.map_cons, List.map_nil, List.mem_append,
        List.mem_singleton] at hm ⊢
      rcases hm with hm | hm | rfl
      · exact .inl (.inl hm)
      · exact .inl (.inr hm)
      · exact .inr hhome
  · exact .refl l

theorem rouses_stepYield (passes : Nat) (kind : EffectKind) (co : Co) (y : Yielded) :
    Rouses gone new l (l.stepYield p pollers d passes kind co y) := by
  cases y with
  | pass o =>
    unfold stepYield
    dsimp only
    split
    · split <;> exact .of_eq rfl rfl rfl fun _ => rfl
    · exact .of_eq rfl rfl rfl fun _ => rfl
  | effect e =>
    unfold stepYield
    dsimp only
    split
    · exact .of_eq rfl rfl rfl fun _ => rfl
    · have hrecord : Rouses gone new l ((l.setJob d.key (.coroutine co 0 e.kind)).record d.spans
          .debug .scheduler "Routing effect" [⟨"kind", e.kind.tag, false⟩]) :=
        .of_eq rfl rfl rfl fun _ => rfl
      exact (hrecord.trans (rouses_setState _ _ _)).focusOn _ _ _

theorem rouses_stepAnswer (r : Resume) (spot : Spot Fu) :
    Rouses gone new l (l.stepAnswer p pollers d r spot) := by
  unfold stepAnswer
  split
  case h_7 => split <;> exact .of_eq rfl rfl rfl fun _ => rfl
  all_goals exact .of_eq rfl rfl rfl fun _ => rfl

/-- **A step of a driver** forgets nobody, unless it is a panic, and then nobody who lives elsewhere. -/
theorem rouses_stepDriver (hl : Proper l) (hd : d ∈ l.drivers) (doing : Doing Co Fu)
    (hleave : ∀ outcome, doing ≠ .leave outcome) :
    Rouses (fun home => doing = .crash ∧ home = d.home)
      (l.MaySummon (l.stepDriver p pollers d doing)) l (l.stepDriver p pollers d doing) := by
  have hhome : ∀ l', l.MaySummon l' d.home := fun l' => .inl ⟨d, hd, rfl⟩
  cases doing with
  | poll =>
    unfold stepDriver
    dsimp only
    split <;> exact .of_eq rfl rfl rfl fun _ => rfl
  | resume input =>
    unfold stepDriver
    dsimp only
    split
    · exact (rouses_setState _ d.task .running).trans (.of_eq rfl rfl rfl fun _ => rfl)
    · exact .of_eq rfl rfl rfl fun _ => rfl
  | advance a =>
    cases a with
    | ret progress =>
      cases progress with
      | yield y co =>
        unfold stepDriver
        dsimp only
        split
        · exact rouses_stepYield p pollers _ _ _ y
        · exact .of_eq rfl rfl rfl fun _ => rfl
      | done outcome co => exact (rouses_dropNested hl d.key).focusOn _ _ _
      | _ => exact .of_eq rfl rfl rfl fun _ => rfl
    | panic => exact .of_eq rfl rfl rfl fun _ => rfl
    | _ =>
      rw [stepDriver_advance p l pollers d rfl]
      exact (rouses_perform p _ _ (l.maySummon_perform p _)).focusOn _ _ _
  | visit branch forks =>
    cases branch with
    | waiting w frames =>
      rcases l.stepDriver_visit_waiting p pollers d w frames forks with
        ⟨key, _, h⟩ | ⟨r, _, h⟩ | ⟨_, h⟩
      all_goals
        rw [h]
        exact .of_eq rfl rfl rfl fun _ => rfl
    | _ => exact .of_eq rfl rfl rfl fun _ => rfl
  | work a spot =>
    cases a with
    | ret await => cases await <;> exact .of_eq rfl rfl rfl fun _ => rfl
    | panic => exact .of_eq rfl rfl rfl fun _ => rfl
    | _ =>
      rw [stepDriver_work p l pollers d rfl]
      exact (rouses_perform p _ _ (l.maySummon_perform p _)).focusOn _ _ _
  | process ref e spot => cases ref <;> exact .of_eq rfl rfl rfl fun _ => rfl
  | invoke b target a spot =>
    cases a with
    | ret invoked => exact rouses_stepInvoked p pollers d b target spot invoked
    | panic => exact .of_eq rfl rfl rfl fun _ => rfl
    | _ =>
      rw [stepDriver_invoke p l pollers d b target rfl]
      exact (rouses_perform p _ _ (l.maySummon_perform p _)).focusOn _ _ _
  | dispatch a spot =>
    cases a with
    | ret v => exact .of_eq rfl rfl rfl fun _ => rfl
    | panic => exact .of_eq rfl rfl rfl fun _ => rfl
    | _ =>
      rw [stepDriver_dispatch p l pollers d rfl]
      exact (rouses_perform p _ _ (l.maySummon_perform p _)).focusOn _ _ _
  | await w spot =>
    rcases l.stepDriver_await p pollers d w spot with ⟨key, _, h⟩ | ⟨r, _, h⟩ | ⟨_, h⟩
    · rw [h]
      exact .of_eq rfl rfl rfl fun _ => rfl
    · rw [h]
      exact .of_eq rfl rfl rfl fun _ => rfl
    · rw [h]
      exact (rouses_wait pollers (hhome _) w).focusOn _ _ _
  | answer r spot => exact rouses_stepAnswer p pollers r spot
  | pause branch forks =>
    cases forks with
    | nil => exact .of_eq rfl rfl rfl fun _ => rfl
    | cons fork forks => cases fork <;> exact .of_eq rfl rfl rfl fun _ => rfl
  | finish outcome => exact (rouses_conclude hl (hl d hd).2 outcome).focusOn _ _ _
  | leave outcome => exact absurd rfl (hleave outcome)
  | crash =>
    have hcrash : Rouses (· = d.home) (l.MaySummon (l.stepDriver p pollers d .crash)) l
        (l.crash d.home) := rouses_crash hl d.home
    refine Rouses.trans ⟨?_, ?_, hcrash.settled, hcrash.summoned⟩ (.of_eq rfl rfl rfl fun _ => rfl)
    · exact fun home h hg => hcrash.queued home h fun he => hg ⟨rfl, he⟩
    · exact fun t home h hg => hcrash.roused t home h fun he => hg ⟨rfl, he⟩

omit pollers

/-! ## Moves -/

/-- The move takes a home from the queue. -/
def takesUp (home : DriverKey) : Move Co Fu → Prop
  | .poll key | .call key _ | .forget key => home = key
  | _ => False

/-- To take a home from the queue and poll it summons nobody. -/
theorem rouses_takeUp (l : EventLoop Co Fu) {key : DriverKey} {queue : List DriverKey}
    (hsub : queue ⊆ l.queue) (hkept : ∀ home ∈ l.queue, home ≠ key → home ∈ queue)
    (pollers : List (Poller Co Fu)) :
    Rouses (· = key) new l ({ l with queue }.focusOn pollers key .poll) where
  queued := hkept
  roused := fun t home h _ hn => .inl ⟨hn, h⟩
  settled := fun t h => h
  summoned := by
    intro home h
    left
    rcases List.mem_append.mp h with h | h
    · rcases List.mem_append.mp h with h | h
      · exact List.mem_append_left _ (List.mem_append_left _ (hsub h))
      · exact List.mem_append_left _ (List.mem_append_right _ h)
    · exact List.mem_append_right _ h

theorem rouses_flush (l : EventLoop Co Fu) : Rouses gone new l l.flush where
  queued := fun home h _ => mem_enqueue (.inl h)
  roused := fun t home h _ hn => .inl ⟨hn, h⟩
  settled := fun t h => h
  summoned := by
    intro home h
    left
    rcases List.mem_append.mp h with h | h
    · rw [show l.flush.deferred = [] from rfl, List.append_nil] at h
      exact List.mem_append_left _ (List.mem_append.mpr (mem_of_mem_enqueue h))
    · exact List.mem_append_right _ h

/-- A move of the surroundings forgets nobody but a home that it takes from the queue. -/
theorem rouses_outside (hl : Proper l) (m : Move Co Fu) :
    Rouses (takesUp · m) (l.MaySummon (l.outside p m)) l (l.outside p m) := by
  cases m with
  | step => exact .refl l
  | act a => exact rouses_perform p none a (l.maySummon_perform p none)
  | poll key =>
    unfold outside
    dsimp only
    split
    · exact l.rouses_takeUp List.erase_subset (fun home h hne => (List.mem_erase_of_ne hne).mpr h) []
    · exact .refl l
  | call key byHand =>
    unfold outside
    dsimp only
    split
    · split
      · refine l.rouses_takeUp List.filter_sublist.subset (fun home h hne => ?_) _
        exact List.mem_filter.mpr ⟨h, decide_eq_true hne⟩
      · exact .refl l
    · exact .refl l
  | flush => exact l.rouses_flush
  | jump time =>
    unfold outside
    dsimp only
    split
    · have hclock : Rouses (takesUp · (.jump time : Move Co Fu)) (l.MaySummon (l.jump time)) l
          { l with now := time } := .of_eq rfl rfl rfl fun _ => rfl
      exact hclock.trans (rouses_wake _ fun _ => rfl)
    · exact .refl l
  | drop key =>
    unfold outside
    dsimp only
    split
    · rename_i d hd
      exact l.rouses_abandon (hl d (mem_of_driver? hd)).2
    · exact .refl l
  | forget key =>
    unfold outside
    dsimp only
    split
    · exact l.rouses_forget key
    · exact .refl l

theorem rouses_leave (l : EventLoop Co Fu) (pollers : List (Poller Co Fu)) (key : DriverKey)
    (outcome : Option Outcome) : Rouses gone new l (l.leave p key outcome pollers) := by
  unfold leave
  split
  case h_4 => split <;> exact .of_eq rfl rfl rfl fun _ => rfl
  all_goals exact .of_eq rfl rfl rfl fun _ => rfl

/-- **Only homes of drivers come to be summoned**, of those that are there or are just entered. -/
theorem summoned_move (hl : Proper l) (m : Move Co Fu) {home : DriverKey}
    (h : home ∈ (l.move p m).summoned) : home ∈ l.summoned ∨ l.MaySummon (l.move p m) home := by
  have hturn := turn_move p m (l := l)
  generalize l.move p m = l' at hturn h ⊢
  cases hturn with
  | outside _ m => exact (rouses_outside p hl m).summoned home h
  | refused _ _ => exact .inl h
  | leave hfocus hgone outcome =>
    rename_i pollers key doing
    have hleave : Rouses (fun _ => False) (fun _ => False) l (l.leave p key outcome pollers) :=
      l.rouses_leave p pollers key outcome
    exact (hleave.summoned home h).imp_right False.elim
  | driver _ hd hleave =>
    exact (rouses_stepDriver p _ hl (mem_of_driver? hd) _ hleave).summoned home h

/-- Only homes are summoned: a driver whose key is summoned is nested in no other. -/
def SummonsRoots (l : EventLoop Co Fu) : Prop :=
  ∀ home ∈ l.summoned, home.val ≤ l.lastKey ∧ ∀ d ∈ l.drivers, d.key = home → d.IsRoot

theorem summonsRoots_move (ho : Orderly l) (hh : Housed l) (h : SummonsRoots l) (m : Move Co Fu) :
    SummonsRoots (l.move p m) := by
  have ho' := orderly_move p ho m
  obtain ⟨_, _, htouches⟩ := touches_move p ho.proper m
  intro home hmem
  -- a driver that was there when its key was a home is still nested in no other
  have hold : home.val ≤ l.lastKey → (∀ d ∈ l.drivers, d.key = home → d.IsRoot) →
      home.val ≤ (l.move p m).lastKey ∧ ∀ d ∈ (l.move p m).drivers, d.key = home → d.IsRoot := by
    intro hle hroots
    refine ⟨Nat.le_trans hle htouches.lastKey_le, fun d hd hk => ?_⟩
    rcases tenant_move p ho.proper m hd with ⟨d₀, hd₀, hk₀, how, _⟩ | ⟨hnew, _⟩
    · unfold Driver.IsRoot
      rw [← how]
      exact hroots d₀ hd₀ (hk₀.trans hk)
    · rw [hk] at hnew
      omega
  rcases summoned_move p ho.proper m hmem with hmem | ⟨x, hx, rfl⟩ | ⟨_, x, hx, rfl, hroot⟩
  · obtain ⟨hle, hroots⟩ := h home hmem
    exact hold hle hroots
  · exact hold (hh.bounded x hx) (hh.head x hx)
  · refine ⟨(ho'.proper x hx).1, fun d hd hk => ?_⟩
    rw [ho'.eq_of_key hd hx hk]
    exact hroot

theorem SummonsRoots.empty : SummonsRoots ({} : EventLoop Co Fu) := fun _ h => nomatch h

end

end EventLoop

end EffectLoop
