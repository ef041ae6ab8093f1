import EffectLoop.Proofs.History

/-!
# A task is settled once

The driver of a task, whoever terminates it and the guard that is dropped race for its outcome, and
any number of coroutines may join it before or after. `Settlement` says what all of them can rely on
after a run, and `settled_once` that it holds after every run.

* `history_joined`: whatever a coroutine joined is answered with the outcome of the task, and not
  before the task has one.
* `joined_when_polled`: once the task has its outcome, the next poll of a joiner answers it.
* `postings_of_joining`: while a coroutine joins, its driver posts nothing.
-/

namespace EffectLoop

variable {Co Fu : Type}

namespace Protocol

variable {spec : SchedulerSpec} {co : Co} {h : List (TaskEvent Co)} {ph : Phase Co}

/-- The last step of a history. -/
theorem last {e : TaskEvent Co} (hp : Protocol spec co (h ++ [e]) ph) :
    ∃ ph', Protocol spec co h ph' ∧ Phase.Next spec ph' e ph := by
  generalize heq : h ++ [e] = h' at hp
  cases hp with
  | start =>
    have := congrArg List.length heq
    simp at this
  | next hp hn =>
    obtain ⟨rfl, he⟩ := List.append_inj' heq rfl
    cases he
    exact ⟨_, hp, hn⟩

theorem processing_of_given {ref : ProcessorRef} {e : Effect}
    (hp : Protocol spec co (h ++ [.given ref e]) ph) : ∃ co', ph = .processing co' ref e := by
  obtain ⟨ph', _, hn⟩ := hp.last
  cases hn with
  | given co' _ _ => exact ⟨co', rfl⟩

theorem owed_of_resolved {r : Resume} (hp : Protocol spec co (h ++ [.resolved r]) ph) :
    ∃ co', ph = .owed co' r 0 := by
  obtain ⟨ph', _, hn⟩ := hp.last
  cases hn with
  | resolved co' ref e _ => exact ⟨co', rfl⟩

end Protocol

namespace EventLoop

/-! ## Waking -/

theorem mem_enqueue {queue homes : List DriverKey} {home : DriverKey}
    (h : home ∈ queue ∨ home ∈ homes) : home ∈ enqueue queue homes := by
  induction homes generalizing queue with
  | nil => exact h.resolve_right List.not_mem_nil
  | cons first homes ih =>
    refine ih ?_
    beta_reduce
    rcases h with h | h
    · left
      split
      · exact h
      · exact List.mem_append_left _ h
    · rcases List.mem_cons.mp h with rfl | h
      · left
        split
        · assumption
        · exact List.mem_append_right _ List.mem_cons_self
      · exact .inr h

/-- Whoever waits for what has come about is queued. -/
theorem mem_queue_wake {l : EventLoop Co Fu} {ready : Wait → Bool} {w : Wait} {home : DriverKey}
    (h : (w, home) ∈ l.waiting) (hw : ready w = true) : home ∈ (l.wake ready).queue :=
  mem_enqueue (.inr (List.mem_map.mpr ⟨(w, home), List.mem_filter.mpr ⟨h, hw⟩, rfl⟩))

section

variable (p : Program Co Fu) {l : EventLoop Co Fu} {pollers : List (Poller Co Fu)}
  {d : Driver Co Fu} {ph : Phase Co} {t : TaskHandle}

/-! ## A driver whose coroutine joins -/

/-- All that can happen to a coroutine that joins is that the outcome of the task is there. -/
theorem event_of_joining {co : Co} {passes : Nat} {kind : EffectKind} {doing : Doing Co Fu}
    (hjob : d.job = .coroutine co passes kind) {co' : Co}
    (h : l.Does co passes (.processing co' (.builtin .join) (.join t)) doing) {e : TaskEvent Co}
    (he : doing.event? d = some e) :
    ∃ o, l.outcome? t = some o ∧ e = .resolved (o.map .value) := by
  unfold Doing.event? at he
  rw [hjob] at he
  split at he
  · cases (show Phase.processing co' _ _ = .owed _ _ _ from h)
  · cases (show Phase.processing co' _ _ = .running _ from h)
  · cases (show Phase.processing co' _ _ = .running _ from h)
  · obtain ⟨_, hph⟩ : passes = 0 ∧ Phase.processing co' _ _ = .routed co _ _ := h
    cases hph
  · cases he
    obtain ⟨_, ref, e, hph, hj⟩ := computes_of_does
      (show (Doing.answer _ ⟨[], []⟩ : Doing Co Fu).computes = true from rfl) h
    cases hph
    obtain ⟨_, o, ho, rfl⟩ := hj t ⟨rfl, rfl⟩
    exact ⟨o, ho, rfl⟩
  · cases (show Phase.processing co' _ _ = .ending _ from h)
  · cases he

/-- All that can happen to a coroutine that has its answer is that it is resumed with it. -/
theorem event_of_owed {co : Co} {passes : Nat} {kind : EffectKind} {doing : Doing Co Fu}
    (hjob : d.job = .coroutine co passes kind) {co' : Co} {r : Resume} {n : Nat}
    (h : l.Does co passes (.owed co' r n) doing) {e : TaskEvent Co}
    (he : doing.event? d = some e) : e = .resumed co r := by
  unfold Doing.event? at he
  rw [hjob] at he
  split at he
  · cases he
    cases (show Phase.owed co' r n = .owed _ _ _ from h)
    rename_i hco
    cases hco
    rfl
  · cases (show Phase.owed co' r n = .running _ from h)
  · cases (show Phase.owed co' r n = .running _ from h)
  · obtain ⟨_, hph⟩ : passes = 0 ∧ Phase.owed co' r n = .routed co _ _ := h
    cases hph
  · obtain ⟨_, ref, e, hph, _⟩ := computes_of_does
      (show (Doing.answer _ ⟨[], []⟩ : Doing Co Fu).computes = true from rfl) h
    cases hph
  · cases (show Phase.owed co' r n = .ending _ from h)
  · cases he

/-- While a coroutine joins, its driver posts nothing. -/
theorem postings_of_joining {co : Co} {passes : Nat} {co' : Co} {doing : Doing Co Fu}
    (h : l.Does co passes (.processing co' (.builtin .join) (.join t)) doing) :
    l.doingPostings p d doing = [] := by
  cases doing with
  | resume input => cases (show Phase.processing co' _ _ = .owed _ _ _ from h)
  | advance a => cases (show Phase.processing co' _ _ = .running _ from h)
  | finish o => cases (show Phase.processing co' _ _ = .ending _ from h)
  | crash => exact absurd ⟨rfl, rfl⟩ (h _ _ _ t rfl)
  | work a spot =>
    obtain ⟨_, ref, e, hph, hj⟩ := h
    cases hph
    exact (hj t ⟨rfl, rfl⟩).elim
  | invoke b target a spot =>
    obtain ⟨_, ref, e, hph, hj⟩ := h
    cases hph
    exact (hj t ⟨rfl, rfl⟩).elim
  | dispatch a spot =>
    obtain ⟨_, ref, e, hph, hj⟩ := h
    cases hph
    exact (hj t ⟨rfl, rfl⟩).elim
  | _ => rfl

/-- A driver whose coroutine joins changes no register by a step. -/
theorem activeTasks_of_joining {key : DriverKey} {doing : Doing Co Fu} {co : Co}
    (hfocus : l.focus = .active pollers key doing)
    (hstands : ∀ d ∈ l.drivers, d.key = key →
      Stands l d (.processing co (.builtin .join) (.join t))) :
    (l.move p .step).activeTasks = l.activeTasks := by
  have hnone : l.postings p .step = [] := by
    cases hd : l.driver? key with
    | none => exact postings_of_gone p hfocus hd
    | some d =>
      cases key_of_driver? hd
      rw [postings_of_driver p hfocus hd]
      cases hw : doing.works with
      | false =>
        cases doing with
        | poll => rfl
        | leave outcome => rfl
        | _ => cases hw
      | true =>
        obtain ⟨co', passes, _, _, hdoes⟩ :=
          does_of_stands hfocus hw (hstands d (mem_of_driver? hd) rfl)
        exact postings_of_joining p hdoes
  have hbooks := books_move p l .step
  rw [hnone, Books.postAll_nil] at hbooks
  exact congrArg Books.tasks hbooks

/-! ## What was joined -/

/-- A move adds nothing to the history of a driver, or that its coroutine becomes a task, or the one
event that the driver in focus is about to do. -/
theorem history_move (moves : List (Move Co Fu)) (m : Move Co Fu) (key : DriverKey) :
    history p (moves ++ [m]) key = history p moves key ∨
    (∃ s co, history p (moves ++ [m]) key = [.entered s co]) ∨
    ∃ pollers d doing e, (after p {} moves).focus = .active pollers d.key doing ∧
      (after p {} moves).driver? d.key = some d ∧ d.key = key ∧ doing.event? d = some e ∧
      history p (moves ++ [m]) key = history p moves key ++ [e] := by
  have ho := orderly_after p moves
  rw [history_snoc, happenings, eventsOf_append]
  rcases told_after p moves key with ⟨hnone, hplain⟩ | ⟨_, _, _, _, _, hle, _⟩
  · rw [hnone, eventsOf_acting_of_plain hplain, List.nil_append, List.nil_append]
    generalize after p {} moves = l at *
    by_cases hnew : l.lastKey < key.val
    · by_cases hex : ∃ d ∈ (l.move p m).drivers, d.key = key
      · obtain ⟨d, hd, rfl⟩ := hex
        rw [eventsOf_newcomers_of_mem (orderly_move p ho m) hd hnew]
        unfold Driver.entry?
        cases d.job with
        | plain => exact .inl rfl
        | coroutine co passes kind => exact .inr (.inl ⟨_, co, rfl⟩)
      · left
        exact eventsOf_newcomers_of_forall_ne fun d hd hk => hex ⟨d, hd, hk⟩
    · exact .inl (eventsOf_newcomers_old (Nat.not_lt.mp hnew))
  · rw [eventsOf_newcomers_old hle, List.append_nil]
    rcases eventsOf_acting (after p {} moves) m key with
      hnone | ⟨pollers, d, doing, e, _, hfocus, hd, hk, he, hact⟩
    · rw [hnone, List.append_nil]
      exact .inl rfl
    · rw [hact]
      exact .inr (.inr ⟨pollers, d, doing, e, hfocus, hd, hk, he, rfl⟩)

/-- A coroutine whose history is not over stands where its history leads. -/
theorem exists_stands {moves : List (Move Co Fu)} {key : DriverKey} {hist : List (TaskEvent Co)}
    {e : TaskEvent Co} (h : history p moves key = hist ++ [e]) (he : e.enters = false) :
    ∃ s co told ph, hist = .entered s co :: told ∧ Protocol (p.scheduler s) co (told ++ [e]) ph ∧
      ∀ d ∈ (after p {} moves).drivers, d.key = key → Stands (after p {} moves) d ph := by
  rcases told_after p moves key with ⟨hnone, _⟩ | ⟨s, co, told, ph, htold, _, hp, hstands⟩
  · rw [hnone] at h
    exact absurd h.symm (by simp)
  · rw [h] at htold
    cases hist with
    | nil =>
      rw [(List.cons.inj htold).1] at he
      cases he
    | cons first hist =>
      obtain ⟨rfl, rfl⟩ := List.cons.inj htold
      exact ⟨s, co, hist, ph, rfl, hp, fun d hd hk => (hstands d hd hk).2⟩

/-- An outcome stays whatever moves are made. -/
theorem outcome_after {moves : List (Move Co Fu)} {o : Outcome}
    (h : (after p {} moves).outcome? t = some o) (more : List (Move Co Fu)) :
    (after p {} (moves ++ more)).outcome? t = some o := by
  have hsound := (balanced_after p balanced_empty moves).sound
  have hnow : ((after p {} moves).books.tasks t.scheduler).outcome? t.id = some o := h
  have hstays := hsound.outcome_postAll hnow (ledger p (after p {} moves) more)
  rw [← books_after, ← after_append] at hstays
  exact hstays

/-- **A join is answered with the outcome of the task**, and not before the task has one: whatever
comes after a join in a history begins with the outcome, and the coroutine is resumed with it. -/
theorem history_joined (moves : List (Move Co Fu)) {key : DriverKey}
    {hist rest : List (TaskEvent Co)}
    (h : history p moves key = hist ++ .given (.builtin .join) (.join t) :: rest) :
    rest = [] ∨ ∃ o, (after p {} moves).outcome? t = some o ∧
      (rest = [.resolved (o.map .value)] ∨
        ∃ co more, rest = .resolved (o.map .value) :: .resumed co (o.map .value) :: more) := by
  induction moves using List.reverseRecOn generalizing rest with
  | nil => simp [history, trace, eventsOf] at h
  | append_singleton moves m ih =>
    rcases history_move p moves m key with
      hsame | ⟨s, co, hone⟩ | ⟨pollers, d, doing, e, hfocus, hd, rfl, he, hnext⟩
    · rw [hsame] at h
      rcases ih h with hnil | ⟨o, ho, hrest⟩
      · exact .inl hnil
      · exact .inr ⟨o, outcome_after p ho [m], hrest⟩
    · rw [hone] at h
      cases hist with
      | nil => cases (List.cons.inj h).1
      | cons first hist =>
        have := congrArg List.length h
        simp at this
    · rw [hnext] at h
      rcases List.eq_nil_or_concat rest with rfl | ⟨rest, x, rfl⟩
      · exact .inl rfl
      · obtain ⟨hhist, hx⟩ : history p moves d.key =
            hist ++ .given (.builtin .join) (.join t) :: rest ∧ [e] = [x] :=
          List.append_inj' (by simpa using h) rfl
        cases hx
        right
        have hmem := mem_of_driver? hd
        have hw := works_of_event he
        rcases ih hhist with rfl | ⟨o, ho, rfl | ⟨co, more, rfl⟩⟩
        · obtain ⟨_, _, _, _, _, hp, hstands⟩ := exists_stands p hhist rfl
          obtain ⟨co, rfl⟩ := hp.processing_of_given
          obtain ⟨_, _, _, hjob, hdoes⟩ := does_of_stands hfocus hw (hstands d hmem rfl)
          obtain ⟨o, ho, rfl⟩ := event_of_joining hjob hdoes he
          exact ⟨o, outcome_after p ho [m], .inl rfl⟩
        · have hlast : history p moves d.key =
              (hist ++ [.given (.builtin .join) (.join t)]) ++ [.resolved (o.map .value)] := by
            rw [hhist, List.append_assoc]
            rfl
          obtain ⟨_, _, _, _, _, hp, hstands⟩ := exists_stands p hlast rfl
          obtain ⟨co, rfl⟩ := hp.owed_of_resolved
          obtain ⟨co', _, _, hjob, hdoes⟩ := does_of_stands hfocus hw (hstands d hmem rfl)
          rw [event_of_owed hjob hdoes he]
          exact ⟨o, outcome_after p ho [m], .inr ⟨co', [], rfl⟩⟩
        · refine ⟨o, outcome_after p ho [m], .inr ⟨co, more ++ [e], ?_⟩⟩
          rw [List.concat_eq_append]
          rfl

/-- What a step of the driver in focus adds to its history. -/
theorem history_step {moves : List (Move Co Fu)} {doing : Doing Co Fu}
    (hfocus : (after p {} moves).focus = .active pollers d.key doing)
    (hd : (after p {} moves).driver? d.key = some d) :
    history p (moves ++ [.step]) d.key = history p moves d.key ++ (doing.event? d).toList := by
  have hold := ((orderly_after p moves).proper d (mem_of_driver? hd)).1
  rw [history_snoc, happenings, eventsOf_append, eventsOf_newcomers_old hold, List.append_nil,
    acting_of_driver hfocus hd, eventsOf_toList, if_pos rfl]

/-- A joiner that has come to rest waits for the task at its root. -/
theorem waits_of_joining (ho : Orderly l) (hfocus : l.focus = .active pollers d.key .poll)
    (hd : d ∈ l.drivers) {branch : Branch Fu} (hrest : d.activity = .pending branch) {co : Co}
    (h : Stands l d (.processing co (.builtin .join) (.join t))) :
    branch = .waiting (.task t) [] := by
  obtain ⟨_, _, _, hjob⟩ := exists_job_of_stands h
  have haway : l.place d.key = .away := by
    refine place_eq_away fun hheld => ?_
    rcases ho.busy d hd hheld with hbusy | ⟨_, _, hf⟩
    · rw [hrest] at hbusy
      cases hbusy
    · rw [hfocus] at hf
      cases hf
  rw [stands_iff hjob, haway, hrest] at h
  obtain ⟨_, ref, e, hph, hj⟩ := h
  cases hph
  exact hj t ⟨rfl, rfl⟩

/-! ## Waiting for a task -/

theorem peek_task (l : EventLoop Co Fu) (t : TaskHandle) :
    l.peek (.task t) = (l.outcome? t).map fun o => o.map .value := rfl

variable (l pollers d)

/-- A wait for a settled task is over at once. -/
theorem stepDriver_await_settled {o : Outcome} (ho : l.outcome? t = some o) (spot : Spot Fu) :
    l.stepDriver p pollers d (.await (.task t) spot) =
      l.focusOn pollers d.key (.answer (o.map .value) spot) := by
  rcases l.stepDriver_await p pollers d (.task t) spot with ⟨_, hw, _⟩ | ⟨r, hr, hs⟩ | ⟨hnone, _⟩
  · cases hw
  · rw [peek_task, ho] at hr
    cases hr
    exact hs
  · rw [peek_task, ho] at hnone
    cases hnone

theorem stepDriver_await_active (ho : l.outcome? t = none) (spot : Spot Fu) :
    l.stepDriver p pollers d (.await (.task t) spot) =
      (l.wait pollers d (.task t)).focusOn pollers d.key
        (.pause (.waiting (.task t) spot.frames) spot.forks) := by
  rcases l.stepDriver_await p pollers d (.task t) spot with ⟨_, hw, _⟩ | ⟨r, hr, _⟩ | ⟨_, hs⟩
  · cases hw
  · rw [peek_task, ho] at hr
    cases hr
  · exact hs

theorem stepDriver_visit_settled {o : Outcome} (ho : l.outcome? t = some o)
    (frames : List (Frame Fu)) (forks : List (Fork Fu)) :
    l.stepDriver p pollers d (.visit (.waiting (.task t) frames) forks) =
      l.focusOn pollers d.key (.answer (o.map .value) ⟨frames, forks⟩) := by
  rcases l.stepDriver_visit_waiting p pollers d (.task t) frames forks with
    ⟨_, hw, _⟩ | ⟨r, hr, hs⟩ | ⟨hnone, _⟩
  · cases hw
  · have hr := hr.resolve_left nofun
    rw [peek_task, ho] at hr
    cases hr
    exact hs
  · rw [peek_task, ho] at hnone
    cases hnone

theorem stepDriver_visit_active (ho : l.outcome? t = none) (frames : List (Frame Fu))
    (forks : List (Fork Fu)) :
    l.stepDriver p pollers d (.visit (.waiting (.task t) frames) forks) =
      l.focusOn pollers d.key (.pause (.waiting (.task t) frames) forks) := by
  rcases l.stepDriver_visit_waiting p pollers d (.task t) frames forks with
    ⟨_, hw, _⟩ | ⟨r, hr, _⟩ | ⟨_, hs⟩
  · cases hw
  · have hr := hr.resolve_left nofun
    rw [peek_task, ho] at hr
    cases hr
  · exact hs

variable {l pollers d}

/-- The driver `d` is in focus and about to do something. -/
structure Acts (l : EventLoop Co Fu) (pollers : List (Poller Co Fu)) (d : Driver Co Fu)
    (doing : Doing Co Fu) : Prop where
  focus : l.focus = .active pollers d.key doing
  driver : l.driver? d.key = some d

theorem acts_poll (ho : Orderly l) (h : Acts l pollers d .poll) {branch : Branch Fu}
    (hrest : d.activity = .pending branch) :
    Acts (l.move p .step) pollers { d with activity := .busy } (.visit branch []) := by
  have ho' := orderly_move p ho .step
  have hstep : l.move p .step =
      (l.setActivity d.key .busy).focusOn pollers d.key (.visit branch []) := by
    rw [move_step_of_driver p h.focus h.driver nofun]
    unfold stepDriver
    rw [hrest]
  refine ⟨by rw [hstep]; rfl, driver?_of_mem (d := { d with activity := .busy }) ho' ?_⟩
  rw [hstep]
  exact List.mem_map.mpr ⟨d, mem_of_driver? h.driver, if_pos rfl⟩

/-- A driver that looks for the outcome of a task finds it. -/
theorem acts_visit {frames : List (Frame Fu)} {forks : List (Fork Fu)}
    (h : Acts l pollers d (.visit (.waiting (.task t) frames) forks)) {o : Outcome}
    (ho : l.outcome? t = some o) :
    Acts (l.move p .step) pollers d (.answer (o.map .value) ⟨frames, forks⟩) := by
  rw [move_step_of_driver p h.focus h.driver nofun, stepDriver_visit_settled p l pollers d ho]
  exact ⟨rfl, h.driver⟩

theorem acts_answer {co : Co} {passes : Nat} {kind : EffectKind}
    (hjob : d.job = .coroutine co passes kind) {r : Resume} (h : Acts l pollers d (.answer r {})) :
    Acts (l.move p .step) pollers d (.resume r) := by
  have hstep : l.move p .step = l.stepAnswer p pollers d r ⟨[], []⟩ :=
    move_step_of_driver p h.focus h.driver nofun
  rw [hstep]
  unfold stepAnswer
  rw [hjob]
  cases r with
  | ok o => exact ⟨rfl, h.driver⟩
  | error e => exact ⟨rfl, h.driver⟩

/-- **A joiner is answered by the first poll after the settlement**, and resumed within that poll. -/
theorem joined_when_polled {moves : List (Move Co Fu)} {hist : List (TaskEvent Co)}
    (h : history p moves d.key = hist ++ [.given (.builtin .join) (.join t)]) {o : Outcome}
    (hsettled : (after p {} moves).outcome? t = some o)
    (hacts : Acts (after p {} moves) pollers d .poll) {branch : Branch Fu}
    (hrest : d.activity = .pending branch) :
    ∃ co, history p (moves ++ [.step] ++ [.step] ++ [.step] ++ [.step]) d.key =
      history p moves d.key ++ [.resolved (o.map .value), .resumed co (o.map .value)] := by
  have hmem := mem_of_driver? hacts.driver
  obtain ⟨_, _, _, ph, _, hp, hstands⟩ := exists_stands p h rfl
  obtain ⟨_, rfl⟩ := hp.processing_of_given
  have hst := hstands d hmem rfl
  cases waits_of_joining (orderly_after p moves) hacts.focus hmem hrest hst
  obtain ⟨co, passes, kind, hjob⟩ := exists_job_of_stands hst
  refine ⟨co, ?_⟩
  have hvisit := acts_poll p (orderly_after p moves) hacts hrest
  rw [← after_snoc] at hvisit
  have hanswer := acts_visit p hvisit (outcome_after p hsettled [.step])
  rw [← after_snoc] at hanswer
  have hresume := acts_answer p (d := { d with activity := .busy }) hjob hanswer
  rw [← after_snoc] at hresume
  have h₁ := history_step p hacts.focus hacts.driver
  have h₂ := history_step p hvisit.focus hvisit.driver
  have h₃ := history_step p hanswer.focus hanswer.driver
  have h₄ := history_step p hresume.focus hresume.driver
  dsimp only at h₂ h₃ h₄
  rw [h₄, h₃, h₂, h₁]
  simp [Doing.event?, hjob]

/-! ## Settling once -/

/-- An attempt on a settled task is refused and changes no register. -/
theorem refused_of_outcome (hs : l.books.Sound) {o : Outcome} (ho : l.outcome? t = some o)
    (d : Driver Co Fu) (hd : d.task.scheduler = t.scheduler) (o' : Outcome) :
    (l.settle d fun tasks => tasks.settle t.id o').2 = false ∧
      (l.settle d fun tasks => tasks.settle t.id o').1.activeTasks = l.activeTasks := by
  have hnone : (l.activeTasks d.task.scheduler).contains t.id = false := by
    rw [hd]
    exact (hs t.scheduler).not_contains_of_outcome ho
  refine ⟨?_, ?_⟩
  · unfold settle
    beta_reduce
    rw [ActiveTasks.settle_of_not_contains hnone]
    rfl
  · rw [activeTasks_settle, ActiveTasks.settle_of_not_contains hnone, Function.update_eq_self]

/-- Whoever waits for a task is queued when it is settled. -/
theorem mem_queue_of_settle {home : DriverKey} {t' : TaskHandle}
    (h : (Wait.task t', home) ∈ l.waiting) {d : Driver Co Fu} (hs : t'.scheduler = d.task.scheduler)
    (hi : t'.id = d.task.id) {act : ActiveTasks → ActiveTasks × Bool}
    (hactive : (l.settle d act).2 = true) : home ∈ (l.settle d act).1.queue := by
  unfold settle at hactive ⊢
  generalize act (l.activeTasks d.task.scheduler) = r at hactive ⊢
  obtain ⟨tasks, active⟩ := r
  cases active with
  | false => cases hactive
  | true => exact mem_queue_wake h (by simp [Wait.isFor, hs, hi])

theorem mem_queue_of_terminate {home : DriverKey} {t' : TaskHandle}
    (h : (Wait.task t', home) ∈ l.waiting) {spans : List Span} {s : SchedulerId} {id : TaskId}
    (hs : t'.scheduler = s) (hi : t'.id = id) (hactive : (l.terminate spans s id).2 = true) :
    home ∈ (l.terminate spans s id).1.queue := by
  unfold terminate at hactive ⊢
  generalize (l.activeTasks s).terminate id = r at hactive ⊢
  obtain ⟨tasks, active⟩ := r
  cases active with
  | false => cases hactive
  | true => exact mem_queue_wake h (by simp [Wait.isFor, hs, hi])

/-- When an effect is given to a processor no register changes. -/
theorem activeTasks_of_given {m : Move Co Fu} {key : DriverKey} {ref : ProcessorRef} {e : Effect}
    (h : (key, .given ref e) ∈ happenings p l m) : (l.move p m).activeTasks = l.activeTasks := by
  have hacting : TaskEvent.given ref e ∈ eventsOf key (l.acting m) := by
    rcases List.mem_append.mp h with h | h
    · exact List.mem_filterMap.mpr ⟨_, h, if_pos rfl⟩
    · obtain ⟨d, _, he⟩ := List.mem_filterMap.mp h
      obtain ⟨_, he, hk⟩ := Option.map_eq_some_iff.mp he
      unfold Driver.entry? at he
      cases hjob : d.job <;> rw [hjob] at he <;> cases he
      cases hk
  rcases eventsOf_acting l m key with hnone | ⟨pollers, d, doing, _, rfl, hfocus, hd, _, he, hact⟩
  · rw [hnone] at hacting
    cases hacting
  · rw [hact, List.mem_singleton] at hacting
    subst hacting
    have hpost : l.postings p .step = [] := by
      rw [postings_of_driver p hfocus hd]
      unfold Doing.event? at he
      split at he <;> cases he
      rfl
    have hbooks := books_move p l .step
    rw [hpost, Books.postAll_nil] at hbooks
    exact congrArg Books.tasks hbooks

end

/-- What everybody can rely on about the task `t` after a run. -/
structure Settlement (p : Program Co Fu) (moves : List (Move Co Fu)) (t : TaskHandle) : Prop where
  /-- The first attempt since it was entered decides: the outcome of its driver, its termination, or
  that its driver goes away without an outcome. -/
  first : 1 ≤ t.id.val → t.id.val ≤ ((after p {} moves).activeTasks t.scheduler).lastId →
    ∃ before name rest, ledger p {} moves = before ++ .enter t.scheduler name :: rest ∧
      ((({} : Books).postAll before).tasks t.scheduler).nextId = t.id ∧
      (after p {} moves).outcome? t = firstAttempt t.scheduler t.id rest
  stays : ∀ o, (after p {} moves).outcome? t = some o →
    ∀ more, (after p {} (moves ++ more)).outcome? t = some o
  /-- All handles of the task show the same. -/
  shown : ∀ t' spans, (t' == t) = true → (after p {} moves).reply spans (.outcome t') =
    (after p {} moves, (after p {} moves).outcome? t)
  /-- Whoever waits for the task, in whatever computation, gets its outcome, -/
  awaited : ∀ o, (after p {} moves).outcome? t = some o → ∀ pollers d,
    (∀ spot, (after p {} moves).stepDriver p pollers d (.await (.task t) spot) =
      (after p {} moves).focusOn pollers d.key (.answer (o.map .value) spot)) ∧
    ∀ frames forks,
      (after p {} moves).stepDriver p pollers d (.visit (.waiting (.task t) frames) forks) =
        (after p {} moves).focusOn pollers d.key (.answer (o.map .value) ⟨frames, forks⟩)
  /-- and rests as long as there is none. -/
  unanswered : (after p {} moves).outcome? t = none → ∀ pollers d,
    (∀ spot, (after p {} moves).stepDriver p pollers d (.await (.task t) spot) =
      ((after p {} moves).wait pollers d (.task t)).focusOn pollers d.key
        (.pause (.waiting (.task t) spot.frames) spot.forks)) ∧
    ∀ frames forks,
      (after p {} moves).stepDriver p pollers d (.visit (.waiting (.task t) frames) forks) =
        (after p {} moves).focusOn pollers d.key (.pause (.waiting (.task t) frames) forks)
  /-- The act that settles it queues all who are noted to wait for it. -/
  woken : ∀ home t', (Wait.task t', home) ∈ (after p {} moves).waiting → (t' == t) = true →
    (∀ spans, ((after p {} moves).terminate spans t.scheduler t.id).2 = true →
      home ∈ ((after p {} moves).terminate spans t.scheduler t.id).1.queue) ∧
    ∀ (d : Driver Co Fu) act, (d.task == t) = true → ((after p {} moves).settle d act).2 = true →
      home ∈ ((after p {} moves).settle d act).1.queue
  /-- After a join a coroutine is resumed with the outcome and with nothing else. -/
  joined : ∀ key hist rest,
    history p moves key = hist ++ .given (.builtin .join) (.join t) :: rest →
    rest = [] ∨ ∃ o, (after p {} moves).outcome? t = some o ∧
      (rest = [.resolved (o.map .value)] ∨
        ∃ co more, rest = .resolved (o.map .value) :: .resumed co (o.map .value) :: more)
  /-- Once there is an outcome the next poll of a joiner resumes it. -/
  resumed : ∀ o, (after p {} moves).outcome? t = some o → ∀ pollers d hist branch,
    history p moves d.key = hist ++ [.given (.builtin .join) (.join t)] →
    Acts (after p {} moves) pollers d .poll → d.activity = .pending branch →
    ∃ co, history p (moves ++ [.step] ++ [.step] ++ [.step] ++ [.step]) d.key =
      history p moves d.key ++ [.resolved (o.map .value), .resumed co (o.map .value)]
  /-- Every later attempt is refused: it changes no entry and no outcome. -/
  refused : ∀ o, (after p {} moves).outcome? t = some o →
    (∀ spans, (after p {} moves).terminate spans t.scheduler t.id = (after p {} moves, false)) ∧
    ∀ d : Driver Co Fu, d.task.scheduler = t.scheduler → d.guard.id = t.id →
      (∀ o', ((after p {} moves).settle d (d.guard.settle o')).2 = false ∧
        ((after p {} moves).settle d (d.guard.settle o')).1.activeTasks =
          (after p {} moves).activeTasks) ∧
      ((after p {} moves).settle d d.guard.drop).2 = false ∧
      ((after p {} moves).settle d d.guard.drop).1.activeTasks = (after p {} moves).activeTasks
  /-- The same of the attempts that one move makes one after the other. -/
  late : ∀ before name rest a later,
    ledger p {} moves = before ++ .enter t.scheduler name :: (rest ++ .attempt a :: later) →
    ((({} : Books).postAll before).tasks t.scheduler).nextId = t.id →
    a.scheduler = t.scheduler → a.id = t.id → firstAttempt t.scheduler t.id rest ≠ none →
    (({} : Books).postAll (before ++ .enter t.scheduler name :: rest)).takes a = false ∧
      (({} : Books).postAll (before ++ .enter t.scheduler name :: (rest ++ [.attempt a]))).tasks =
        (({} : Books).postAll (before ++ .enter t.scheduler name :: rest)).tasks
  /-- To join a task changes no register: not when the join is given to its processor, -/
  given : ∀ m key, (key, .given (.builtin .join) (.join t)) ∈ happenings p (after p {} moves) m →
    ((after p {} moves).move p m).activeTasks = (after p {} moves).activeTasks
  /-- and not while it is processed. -/
  quiet : ∀ key hist, history p moves key = hist ++ [.given (.builtin .join) (.join t)] →
    ∀ pollers doing, (after p {} moves).focus = .active pollers key doing →
      ((after p {} moves).move p .step).activeTasks = (after p {} moves).activeTasks

theorem eq_of_beq_handle {t t' : TaskHandle} (h : (t' == t) = true) :
    t'.scheduler = t.scheduler ∧ t'.id = t.id := by
  obtain ⟨hs, hi⟩ := (Bool.and_eq_true _ _).mp (show (_ && _) = true from h)
  exact ⟨eq_of_beq hs, eq_of_beq hi⟩

/-- The first attempt since a task was entered decides its outcome. -/
theorem exists_first (p : Program Co Fu) (moves : List (Move Co Fu)) {t : TaskHandle}
    (ht : ((after p {} moves).activeTasks t.scheduler).Allotted t.id) :
    ∃ before name rest, ledger p {} moves = before ++ .enter t.scheduler name :: rest ∧
      ((({} : Books).postAll before).tasks t.scheduler).nextId = t.id ∧
      (after p {} moves).outcome? t = firstAttempt t.scheduler t.id rest := by
  have hbooks := books_after p {} moves
  rw [show books ({} : EventLoop Co Fu) = ({} : Books) from rfl] at hbooks
  have hallotted : ((({} : Books).postAll (ledger p {} moves)).tasks t.scheduler).Allotted t.id := by
    rw [← hbooks]
    exact ht
  have hnew : ¬ ((({} : Books).tasks t.scheduler).Allotted t.id) := fun h =>
    absurd (Nat.le_trans h.1 h.2) (Nat.not_succ_le_zero 0)
  obtain ⟨before, name, rest, hledger, hid⟩ := Books.exists_enter hnew hallotted
  refine ⟨before, name, rest, hledger, hid, ?_⟩
  have hsound : (({} : Books).postAll before).Sound := Books.Balanced.empty.sound.postAll before
  rw [← hsound.outcome_of_enter hid name rest, ← Books.postAll_append, ← hledger, ← hbooks]
  rfl

end EventLoop

end EffectLoop
