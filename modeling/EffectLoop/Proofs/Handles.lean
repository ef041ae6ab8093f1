import EffectLoop.Proofs.Lifecycle
import EffectLoop.Proofs.Turns

/-!
# Handles and the work they stand for

A fork is answered with the handle of a task that is entered for what the target has given. `Enters` is
the state in which that happens, `enters_unique` that no other task of a run has the same driver or the
same number, and `forked_of_resolved` that the answer of a fork is the handle of the task entered for it.

The outcome of such a task is that of its driver as long as nobody else decides it (`Spared`,
`finishing_of_settled`).
-/

namespace EffectLoop

variable {Co Fu α β : Type}

/-- What an act may come to: the world replies to its requests as it likes, but a target that it invokes
and a sink that it calls are those of the program. -/
inductive Act.Gives (p : Program Co Fu) : Act Co Fu α → α → Prop
  | ret (a : α) : Gives p (.ret a) a
  | ask {q : Request} {k : q.Reply → Act Co Fu α} {a : α} (r : q.Reply) (h : Gives p (k r) a) :
      Gives p (.ask q k) a
  | invoke {target : Target} {args : List Json} {k : Invoked Co Fu → Act Co Fu α} {a : α}
      (h : Gives p ((p.invoke target args).bind k) a) : Gives p (.invoke target args k) a
  | dispatch {sink : SinkId} {event : Json} {k : Json → Act Co Fu α} {a : α}
      (h : Gives p ((p.dispatch sink event).bind k) a) : Gives p (.dispatch sink event k) a
  | start {s : SchedulerId} {name : String} {co : Co} {k : TaskHandle → Act Co Fu α} {a : α}
      (t : TaskHandle) (h : Gives p (k t) a) : Gives p (.start s name co k) a
  | spawn {s : SchedulerId} {name : String} {fu : Fu} {k : TaskHandle → Act Co Fu α} {a : α}
      (t : TaskHandle) (h : Gives p (k t) a) : Gives p (.spawn s name fu k) a
  | nest {s : SchedulerId} {name : String} {co : Co} {k : DriverKey → Act Co Fu α} {a : α}
      (key : DriverKey) (h : Gives p (k key) a) : Gives p (.nest s name co k) a

theorem Act.gives_ret {p : Program Co Fu} {a b : α} : (Act.ret a : Act Co Fu α).Gives p b ↔ b = a := by
  constructor
  · intro h
    cases h
    rfl
  · rintro rfl
    exact .ret b

/-- If the posting decides a task then its driver has come to its end. -/
def Posting.Unforced : Posting → Prop
  | .attempt (.abandon _) | .attempt (.terminate _ _) => False
  | _ => True

instance : DecidablePred Posting.Unforced := fun x => by
  unfold Posting.Unforced
  split <;> infer_instance

namespace EventLoop

/-- What is left of an act after its first request may come to no more than the act. -/
theorem gives_of_perform {p : Program Co Fu} (l : EventLoop Co Fu) (current : Option DriverKey)
    {a : Act Co Fu α} {v : α} (h : (l.perform p current a).2.Gives p v) : a.Gives p v := by
  cases a with
  | ret a => exact h
  | panic => exact h
  | ask q k => exact .ask _ h
  | invoke target args k => exact .invoke h
  | dispatch sink event k => exact .dispatch h
  | start s name co k => exact .start _ h
  | spawn s name fu k => exact .spawn _ h
  | nest s name co k => exact .nest _ h

/-! ## The entry of a task -/

/-- The next step enters the task `t`, with the driver `key`, for what a target has given that the driver
`parent` has invoked: to be forked, or to be called if it is a coroutine. -/
inductive Enters (l : EventLoop Co Fu) (parent : DriverKey) (b : Builtin) (work : Invoked Co Fu) :
    DriverKey → TaskHandle → Prop
  | intro {pollers : List (Poller Co Fu)} {target : Target} {spot : Spot Fu} {d : Driver Co Fu}
      (hfocus : l.focus = .active pollers parent (.invoke b target (.ret work) spot))
      (hd : l.driver? parent = some d) (hown : b = .fork ∨ ∃ co, work = .coroutine co) :
      Enters l parent b work ⟨l.lastKey + 1⟩
        ⟨d.task.scheduler, (l.activeTasks d.task.scheduler).nextId, target.name⟩

theorem Enters.of_eq {l : EventLoop Co Fu} {parent key : DriverKey} {b : Builtin} {work : Invoked Co Fu}
    {pollers : List (Poller Co Fu)} {target : Target} {spot : Spot Fu} {d : Driver Co Fu} {t : TaskHandle}
    (hfocus : l.focus = .active pollers parent (.invoke b target (.ret work) spot))
    (hd : l.driver? parent = some d) (hown : b = .fork ∨ ∃ co, work = .coroutine co)
    (hkey : ⟨l.lastKey + 1⟩ = key)
    (ht : ⟨d.task.scheduler, (l.activeTasks d.task.scheduler).nextId, target.name⟩ = t) :
    Enters l parent b work key t := by
  subst hkey ht
  exact .intro hfocus hd hown

section

variable (p : Program Co Fu) {l : EventLoop Co Fu} {pollers : List (Poller Co Fu)}
  {d : Driver Co Fu} {parent key : DriverKey} {b : Builtin} {work : Invoked Co Fu} {t : TaskHandle}

theorem exists_arrival_of_invoked {s : SchedulerId} (target : Target)
    (h : b = .fork ∨ ∃ co, work = .coroutine co) :
    ∃ x, work.arrival? s b target = some x ∧ x.work = work ∧ x.scheduler = s ∧ x.name = target.name := by
  cases work with
  | pending fu =>
    rcases h with rfl | ⟨co, h⟩
    · exact ⟨_, rfl, rfl, rfl, rfl⟩
    · cases h
  | coroutine co =>
    cases b with
    | _ => exact ⟨_, rfl, rfl, rfl, rfl⟩

/-- The step enters the driver. -/
theorem Enters.arrival (h : Enters l parent b work key t) :
    ∃ x, l.arrival? .step = some (some parent, x) ∧ x.work = work ∧
      (x.driver p l (some parent)).key = key ∧ (x.driver p l (some parent)).task = t := by
  cases h with
  | @intro pollers target spot d hfocus hd hown =>
    cases key_of_driver? hd
    obtain ⟨x, hx, hwork, hs, hname⟩ := exists_arrival_of_invoked (s := d.task.scheduler) target hown
    refine ⟨x, ?_, hwork, rfl, ?_⟩
    · rw [arrival?_of_driver hfocus hd]
      exact congrArg (Option.map _) hx
    · rw [Arrival.task_driver, hs, hname]

/-- The driver that works on what was entered, as it is right after that. -/
theorem Enters.driver (h : Enters l parent b work key t) :
    ∃ x : Arrival Co Fu, x.work = work ∧ ∃ d ∈ (l.move p .step).drivers,
      d.key = key ∧ d.task = t ∧ d.job = x.job ∧ d.activity = x.activity := by
  obtain ⟨x, hx, hwork, rfl, rfl⟩ := h.arrival p
  refine ⟨x, hwork, _, ?_, rfl, rfl, rfl, rfl⟩
  rw [(drivers_move_of_arrival p hx).1]
  exact List.mem_append_right _ List.mem_cons_self

theorem Enters.key_eq (h : Enters l parent b work key t) : key.val = l.lastKey + 1 := by
  cases h
  rfl

/-- The number is not given out before, -/
theorem Enters.not_allotted (h : Enters l parent b work key t) :
    ¬ (l.activeTasks t.scheduler).Allotted t.id := by
  cases h
  exact ActiveTasks.nextId_not_allotted _

/-- and the key and the number are given out by the step. -/
theorem Enters.allotted (ho : Orderly l) (h : Enters l parent b work key t) :
    key.val ≤ (l.move p .step).lastKey ∧ ((l.move p .step).activeTasks t.scheduler).Allotted t.id := by
  obtain ⟨_, _, d, hd, rfl, rfl, _, _⟩ := h.driver p
  have ho' := orderly_move p ho .step
  exact ⟨(ho'.proper d hd).1, allotted_of_mem ho' hd⟩

/-- A state enters one task only. -/
theorem Enters.unique {parent' key' : DriverKey} {b' : Builtin} {work' : Invoked Co Fu}
    {t' : TaskHandle} (h : Enters l parent b work key t) (h' : Enters l parent' b' work' key' t') :
    b = b' ∧ work = work' ∧ key = key' ∧ t = t' := by
  cases h with
  | intro hfocus hd _ =>
    cases h' with
    | intro hfocus' hd' _ =>
      cases hfocus.symm.trans hfocus'
      cases hd.symm.trans hd'
      exact ⟨rfl, rfl, rfl, rfl⟩

/-! ## One entry for one driver and one task -/

/-- A number that was given out stays so. -/
theorem allotted_of_before {s : SchedulerId} {id : TaskId} (moves : List (Move Co Fu))
    (h : (l.activeTasks s).Allotted id) : ((l.after p moves).activeTasks s).Allotted id := by
  have hall := Books.allotted_postAll (b := l.books) h (ledger p l moves)
  rw [← books_after] at hall
  exact hall

/-- Who is entered later has a number of its own. -/
theorem not_allotted_of_new (hl : Orderly l) (moves : List (Move Co Fu))
    (hd : d ∈ (l.after p moves).drivers) (hnew : l.lastKey < d.key.val) :
    ¬ (l.activeTasks d.task.scheduler).Allotted d.task.id := by
  induction moves generalizing l with
  | nil =>
    have := (hl.proper d hd).1
    omega
  | cons m moves ih =>
    intro hallotted
    by_cases hold : d.key.val ≤ (l.move p m).lastKey
    · obtain ⟨d₁, hd₁, hk, _, _, htask⟩ := exists_earlier p (proper_move p hl.proper m) moves hd hold
      obtain ⟨current, x, _, rfl⟩ := arrival_move p hl.proper m hd₁ (hk ▸ hnew)
      rw [← htask] at hallotted
      exact ActiveTasks.nextId_not_allotted _ hallotted
    · exact ih (orderly_move p hl m) hd (Nat.not_le.mp hold) (allotted_of_before p [m] hallotted)

/-- A driver works on one task, -/
theorem task_eq_of_key (ho : Orderly l) (hd : d ∈ l.drivers) {moves : List (Move Co Fu)} {d' : Driver Co Fu}
    (hd' : d' ∈ (l.after p moves).drivers) (hk : d'.key = d.key) : d'.task = d.task := by
  obtain ⟨d₀, hd₀, hk₀, _, _, htask⟩ := exists_earlier p ho.proper moves hd' (hk ▸ (ho.proper d hd).1)
  cases ho.eq_of_key hd₀ hd (hk₀.trans hk)
  exact htask.symm

/-- and a task has one driver. -/
theorem key_eq_of_task (ho : Orderly l) (hd : d ∈ l.drivers) {moves : List (Move Co Fu)} {d' : Driver Co Fu}
    (hd' : d' ∈ (l.after p moves).drivers) (hs : d'.task.scheduler = d.task.scheduler)
    (hid : d'.task.id = d.task.id) : d'.key = d.key := by
  by_cases hold : d'.key.val ≤ l.lastKey
  · obtain ⟨d₀, hd₀, hk₀, _, _, htask⟩ := exists_earlier p ho.proper moves hd' hold
    rw [← htask] at hs hid
    cases eq_of_task ho hd₀ hd hs hid
    exact hk₀.symm
  · have hallotted := ho.balanced.allotted d.duty (List.mem_map_of_mem hd)
    rw [show d.duty.scheduler = d'.task.scheduler from hs.symm,
      show d.duty.id = d'.task.id from (ho.proper d hd).2.guard.trans hid.symm] at hallotted
    exact absurd hallotted (not_allotted_of_new p ho moves hd' (Nat.not_le.mp hold))

/-- A driver that works on the task that was entered is the one entered for it, and the other way. -/
theorem Enters.driver_after (ho : Orderly l) (h : Enters l parent b work key t)
    {moves : List (Move Co Fu)} (hd : d ∈ ((l.move p .step).after p moves).drivers) :
    (d.key = key → d.task = t) ∧
      (d.task.scheduler = t.scheduler → d.task.id = t.id → d.key = key) := by
  have ho' := orderly_move p ho .step
  obtain ⟨_, _, d₁, hd₁, rfl, rfl, _, _⟩ := h.driver p
  exact ⟨task_eq_of_key p ho' hd₁ hd, key_eq_of_task p ho' hd₁ hd⟩

/-- Of two parts of a run, the shorter one with the next move is part of the longer one. -/
theorem snoc_prefix_of_ne {first first' total : List (Move Co Fu)} {m : Move Co Fu}
    (h : first ++ [m] <+: total) (h' : first' <+: total) (hle : first <+: first') (hne : first ≠ first') :
    first ++ [m] <+: first' := by
  obtain ⟨rest, rfl⟩ := hle
  cases rest with
  | nil => exact absurd (List.append_nil first).symm hne
  | cons m' rest =>
    refine List.prefix_of_prefix_length_le h h' ?_
    simp

/-- Two parts of a run are the same if neither comes to its next move within the other. -/
theorem eq_of_neither_before {first first' total : List (Move Co Fu)} {m m' : Move Co Fu}
    (hf : first ++ [m] <+: total) (hf' : first' ++ [m'] <+: total) (h : ¬ first ++ [m] <+: first')
    (h' : ¬ first' ++ [m'] <+: first) : first = first' := by
  by_contra hne
  have hp := (List.prefix_append first [m]).trans hf
  have hp' := (List.prefix_append first' [m']).trans hf'
  rcases List.prefix_or_prefix_of_prefix hp hp' with hle | hle
  · exact h (snoc_prefix_of_ne hf hp' hle hne)
  · exact h' (snoc_prefix_of_ne hf' hp hle (Ne.symm hne))

/-- Once something has happened after `past`, that is no longer all that has. -/
theorem history_ne_of_event {first moves : List (Move Co Fu)} {past : List (TaskEvent Co)} {e : TaskEvent Co}
    (hle : first <+: moves) (h : history p first key = past ++ [e]) : history p moves key ≠ past := by
  intro hpast
  have hlength := List.IsPrefix.length_le <| history_prefix p hle key
  rw [h, hpast, List.length_append, List.length_singleton] at hlength
  exact absurd hlength (Nat.not_succ_le_self _)

/-- **A driver or a number that an entry has given out is given out by no other entry** of the run. -/
theorem enters_unique {first first' total : List (Move Co Fu)} (hf : first ++ [.step] <+: total)
    (hf' : first' ++ [.step] <+: total) {parent' key' : DriverKey} {b' : Builtin}
    {work' : Invoked Co Fu} {t' : TaskHandle} (h : Enters (after p {} first) parent b work key t)
    (h' : Enters (after p {} first') parent' b' work' key' t')
    (hsame : key = key' ∨ t.scheduler = t'.scheduler ∧ t.id = t'.id) : first = first' := by
  have hlater : ∀ {first first' : List (Move Co Fu)} {parent parent' key key' : DriverKey}
      {b b' : Builtin} {work work' : Invoked Co Fu} {t t' : TaskHandle},
      Enters (after p {} first) parent b work key t →
      Enters (after p {} first') parent' b' work' key' t' →
      (key = key' ∨ t.scheduler = t'.scheduler ∧ t.id = t'.id) → ¬ first ++ [.step] <+: first' := by
    rintro first _ _ _ _ _ _ _ _ _ _ _ h h' hsame ⟨rest, rfl⟩
    obtain ⟨hle, hallotted⟩ := h.allotted p (orderly_after p first)
    rw [← after_snoc] at hle hallotted
    rcases hsame with rfl | ⟨hs, hid⟩
    · have := lastKey_le_after p (orderly_after p (first ++ [.step])).proper rest
      rw [← after_append] at this
      have := h'.key_eq
      omega
    · rw [hs, hid] at hallotted
      refine h'.not_allotted ?_
      rw [after_append]
      exact allotted_of_before p rest hallotted
  refine eq_of_neither_before hf hf' (hlater h h' hsame) (hlater h' h ?_)
  exact hsame.imp Eq.symm (And.imp Eq.symm Eq.symm)

/-- A key that is given out by a move is not there before. -/
theorem prefix_of_old {first total moves : List (Move Co Fu)} {m : Move Co Fu} (hfirst : first ++ [m] <+: total)
    (hmoves : moves <+: total) (hnew : (after p {} first).lastKey < key.val)
    (hle : key.val ≤ (after p {} moves).lastKey) : first ++ [m] <+: moves := by
  rcases List.prefix_or_prefix_of_prefix hmoves hfirst with hbefore | hafter
  · rcases List.prefix_concat_iff.mp hbefore with rfl | hbefore
    · exact List.prefix_refl _
    · obtain ⟨rest, rfl⟩ := hbefore
      have hgrows := lastKey_le_after p (orderly_after p moves).proper rest
      rw [← after_append] at hgrows
      omega
  · exact hafter

/-- A driver that is there has been entered before. -/
theorem Enters.before {first total moves : List (Move Co Fu)} (hfirst : first ++ [.step] <+: total)
    (h : Enters (after p {} first) parent b work key t) (hmoves : moves <+: total)
    (hle : key.val ≤ (after p {} moves).lastKey) : first ++ [.step] <+: moves :=
  prefix_of_old p hfirst hmoves (by rw [h.key_eq]; exact Nat.lt_succ_self _) hle

/-- A driver with the key works on the task. -/
theorem Enters.task_eq {first total moves : List (Move Co Fu)} (hfirst : first ++ [.step] <+: total)
    (h : Enters (after p {} first) parent b work key t) (hmoves : moves <+: total)
    (hd : d ∈ (after p {} moves).drivers) (hk : d.key = key) : d.task = t := by
  have hle := ((orderly_after p moves).proper d hd).1
  obtain ⟨rest, rfl⟩ := h.before p hfirst hmoves (hk ▸ hle)
  rw [after_append, after_snoc] at hd
  exact (h.driver_after p (orderly_after p first) hd).1 hk

/-! ## A task that only its driver settles -/

/-- The driver is about to end with an outcome. -/
def Finishing (l : EventLoop Co Fu) (key : DriverKey) (o : Outcome) : Prop :=
  ∃ pollers d, l.focus = .active pollers key (.finish o) ∧ l.driver? key = some d

/-- As long as the task has no outcome, nobody in the run attempts to decide it but its driver, which has
come to its end: the task is not terminated, and its driver is not dropped and does not panic. -/
def Spared (moves : List (Move Co Fu)) (t : TaskHandle) : Prop :=
  ∀ first m, first ++ [m] <+: moves → (after p {} first).outcome? t = none →
    ∀ a, .attempt a ∈ (after p {} first).postings p m → a.scheduler = t.scheduler → a.id = t.id →
      ∃ duty o, a = .outcome duty o

theorem posting_mem_ledger {first moves : List (Move Co Fu)} {m : Move Co Fu} {x : Posting}
    (hfirst : first ++ [m] <+: moves) (h : x ∈ (after p {} first).postings p m) :
    x ∈ ledger p {} moves := by
  obtain ⟨rest, rfl⟩ := hfirst
  rw [ledger_append, ledger_append, ledger, ledger, List.append_nil]
  exact List.mem_append_left _ (List.mem_append_right _ h)

/-- Where nobody but drivers at their end attempts to decide a task, every task is spared. -/
theorem spared_of_ledger {moves : List (Move Co Fu)} (h : ∀ x ∈ ledger p {} moves, x.Unforced) :
    Spared p moves t := by
  intro first m hfirst _ a ha _ _
  have hunforced := h _ (posting_mem_ledger p hfirst ha)
  cases a with
  | outcome duty o => exact ⟨duty, o, rfl⟩
  | abandon duty => exact hunforced.elim
  | terminate s id => exact hunforced.elim

/-- An outcome that was not there before is that of an attempt. -/
theorem exists_attempt_of_outcome {b : Books} {s : SchedulerId} {id : TaskId} {ps : List Posting}
    {o : Outcome} (hnone : (b.tasks s).outcome? id = none)
    (ho : ((b.postAll ps).tasks s).outcome? id = some o) (hsound : b.Sound) :
    ∃ a, .attempt a ∈ ps ∧ a.scheduler = s ∧ a.id = id ∧ a.result = o := by
  induction ps generalizing b with
  | nil =>
    rw [Books.postAll_nil, hnone] at ho
    cases ho
  | cons x ps ih =>
    cases hx : ((b.post x).tasks s).outcome? id with
    | none =>
      obtain ⟨a, ha, h⟩ := ih hx ho (hsound.post x)
      exact ⟨a, List.mem_cons_of_mem _ ha, h⟩
    | some o' =>
      cases ((hsound.post x).outcome_postAll hx ps).symm.trans ho
      by_cases hs : s = x.scheduler
      · rw [Books.tasks_post_of_eq b hs] at hx
        cases x with
        | enter s name => exact absurd (hnone.symm.trans hx) (by simp)
        | note s id' state => exact absurd (hnone.symm.trans hx) (by simp)
        | attempt a =>
          refine ⟨a, List.mem_cons_self, hs.symm, ?_⟩
          replace hx : ((b.tasks s).settle a.id a.result).1.outcome? id = some o := hx
          by_cases hid : id = a.id
          · subst hid
            cases hc : (b.tasks s).contains a.id with
            | true =>
              rw [ActiveTasks.outcome?_settle_self hc hnone] at hx
              exact ⟨rfl, Option.some.inj hx⟩
            | false =>
              rw [ActiveTasks.settle_of_not_contains hc, hnone] at hx
              cases hx
          · rw [ActiveTasks.outcome?_settle_of_ne _ hid, hnone] at hx
            cases hx
      · rw [Books.tasks_post_of_ne b hs, hnone] at hx
        cases hx

/-- Why a driver goes away before its end: it is dropped, the coroutine that it is nested in is over, or a
driver of its home panics. -/
inductive GoesAway (l : EventLoop Co Fu) (d : Driver Co Fu) : Move Co Fu → Prop
  | dropped : GoesAway l d (.drop d.key)
  | nested (h : ¬ d.IsRoot) : GoesAway l d .step
  | panics {pollers : List (Poller Co Fu)} {x : Driver Co Fu} (hfocus : l.focus = .active pollers x.key .crash)
      (hx : l.driver? x.key = some x) (hhome : d.home = x.home) : GoesAway l d .step

/-- An attempt that uses a duty up is made for a driver: by the driver itself at its end, or because it goes
away. -/
theorem cases_of_attempt {m : Move Co Fu} {a : Attempt} (h : .attempt a ∈ l.postings p m)
    (ha : a.duty? ≠ none) :
    (m = .step ∧ ∃ pollers d o, l.focus = .active pollers d.key (.finish o) ∧ l.driver? d.key = some d ∧
      a = .outcome d.duty o) ∨ ∃ d ∈ l.drivers, a = .abandon d.duty ∧ GoesAway l d m := by
  have hact : ∀ {γ : Type} {a' : Act Co Fu γ}, .attempt a ∉ l.actPostings a' :=
    fun hmem => ha (duty_of_mem_actPostings hmem)
  unfold postings at h
  split at h
  case h_1 => exact absurd h hact
  case h_2 key _ =>
    obtain ⟨d, hd, rfl⟩ := abandon_of_mem_abandonments h
    have hd := Option.mem_toList.mp hd
    cases key_of_driver? hd
    exact .inr ⟨d, mem_of_driver? hd, rfl, .dropped⟩
  case h_3 pollers key doing hfocus =>
    unfold stepPostings at h
    rw [hfocus] at h
    dsimp only at h
    split at h
    case h_1 d hd =>
      cases key_of_driver? hd
      rcases cases_of_doing_attempt p h ha with ⟨o, rfl, rfl⟩ | ⟨x, hx, rfl, hnested | ⟨rfl, hhome⟩⟩
      · exact .inl ⟨rfl, pollers, d, o, hfocus, hd, rfl⟩
      · exact .inr ⟨x, hx, rfl, .nested hnested⟩
      · exact .inr ⟨x, hx, rfl, .panics hfocus hd hhome⟩
    case h_2 => cases h
  case h_4 => cases h

/-- The outcome of a driver is posted by the driver itself, at its end. -/
theorem finishing_of_posting {m : Move Co Fu} {duty : Duty} {o : Outcome}
    (h : .attempt (.outcome duty o) ∈ l.postings p m) :
    m = .step ∧ ∃ pollers d, l.focus = .active pollers d.key (.finish o) ∧
      l.driver? d.key = some d ∧ d.duty = duty := by
  rcases cases_of_attempt p h (by simp [Attempt.duty?]) with ⟨rfl, pollers, d, o', hfocus, hd, he⟩ | ⟨_, _, he, _⟩
  · cases he
    exact ⟨rfl, pollers, d, hfocus, hd, rfl⟩
  · cases he

/-- An outcome that comes about in a move is that of an attempt of the move. -/
theorem attempt_of_move {moves : List (Move Co Fu)} {m : Move Co Fu} {o : Outcome}
    (hbefore : (after p {} moves).outcome? t = none)
    (ho : ((after p {} moves).move p m).outcome? t = some o) :
    ∃ a, .attempt a ∈ (after p {} moves).postings p m ∧ a.scheduler = t.scheduler ∧ a.id = t.id ∧
      a.result = o := by
  have hbooks := books_move p (after p {} moves) m
  exact exists_attempt_of_outcome (b := (after p {} moves).books) hbefore (by rw [← hbooks]; exact ho)
    (balanced_after p balanced_empty moves).sound

/-- A task that has an outcome has got it in a move. -/
theorem exists_settling {moves : List (Move Co Fu)} {o : Outcome}
    (ho : (after p {} moves).outcome? t = some o) :
    ∃ before m, before ++ [m] <+: moves ∧ (after p {} before).outcome? t = none ∧
      (after p {} (before ++ [m])).outcome? t = some o := by
  induction moves using List.reverseRecOn with
  | nil => cases ho
  | append_singleton moves m ih =>
    cases hnow : (after p {} moves).outcome? t with
    | some o' =>
      cases (outcome_after p hnow [m]).symm.trans ho
      obtain ⟨before, m', hle, h⟩ := ih hnow
      exact ⟨before, m', hle.trans (List.prefix_append ..), h⟩
    | none => exact ⟨moves, m, List.prefix_refl _, hnow, ho⟩

/-- The outcome of a task was decided by an attempt on it while it had none. -/
theorem attempt_of_settled {moves : List (Move Co Fu)} {o : Outcome}
    (ho : (after p {} moves).outcome? t = some o) :
    ∃ before m a, before ++ [m] <+: moves ∧ (after p {} before).outcome? t = none ∧
      .attempt a ∈ (after p {} before).postings p m ∧ a.scheduler = t.scheduler ∧ a.id = t.id ∧
      a.result = o := by
  obtain ⟨before, m, hle, hnone, hsome⟩ := exists_settling p ho
  rw [after_snoc] at hsome
  obtain ⟨a, ha⟩ := attempt_of_move p hnone hsome
  exact ⟨before, m, a, hle, hnone, ha⟩

/-- Who works on a task that was entered is the driver entered for it. -/
theorem Enters.key_of_task {first before total : List (Move Co Fu)} (hfirst : first ++ [.step] <+: total)
    (h : Enters (after p {} first) parent b work key t) (hbefore : before <+: total)
    (hd : d ∈ (after p {} before).drivers) (hs : d.task.scheduler = t.scheduler) (hid : d.task.id = t.id) :
    d.key = key := by
  -- the task has its number, so the entry was made before
  have hallotted := allotted_of_mem (orderly_after p before) hd
  rw [hs, hid] at hallotted
  have hentered : first ++ [.step] <+: before := by
    rcases List.prefix_or_prefix_of_prefix hbefore hfirst with hle | hle
    · rcases List.prefix_concat_iff.mp hle with rfl | hle
      · exact List.prefix_refl _
      · obtain ⟨rest, rfl⟩ := hle
        rw [after_append] at h
        exact absurd (allotted_of_before p rest hallotted) h.not_allotted
    · exact hle
  obtain ⟨rest, rfl⟩ := hentered
  rw [after_append, after_snoc] at hd
  exact (h.driver_after p (orderly_after p first) hd).2 hs hid

/-- The driver that decides a task with its own outcome is the one entered for it. -/
theorem finishing_of_attempt {first before total : List (Move Co Fu)} {m : Move Co Fu}
    (hfirst : first ++ [.step] <+: total) (h : Enters (after p {} first) parent b work key t)
    (hbefore : before <+: total) {duty : Duty} {o : Outcome}
    (ha : .attempt (.outcome duty o) ∈ (after p {} before).postings p m)
    (hs : (Attempt.outcome duty o).scheduler = t.scheduler) (hid : (Attempt.outcome duty o).id = t.id) :
    m = .step ∧ Finishing (after p {} before) key o := by
  obtain ⟨rfl, pollers, d, hfocus, hd, rfl⟩ := finishing_of_posting p ha
  have hmem := mem_of_driver? hd
  have hguard := ((orderly_after p before).proper d hmem).2.guard
  have hkey := h.key_of_task p hfirst hbefore hmem hs (hguard.symm.trans hid)
  rw [hkey] at hfocus hd
  exact ⟨rfl, pollers, d, hfocus, hd⟩

/-- **The outcome of a task that is spared is that of the driver entered for it.** -/
theorem finishing_of_settled {first total moves : List (Move Co Fu)}
    (hfirst : first ++ [.step] <+: total) (h : Enters (after p {} first) parent b work key t)
    (hspared : Spared p total t) (hmoves : moves <+: total) {o : Outcome}
    (ho : (after p {} moves).outcome? t = some o) :
    ∃ before, before ++ [.step] <+: moves ∧ Finishing (after p {} before) key o := by
  obtain ⟨before, m, a, hle, hnone, ha, hs, hid, hresult⟩ := attempt_of_settled p ho
  obtain ⟨duty, o', rfl⟩ := hspared before m (hle.trans hmoves) hnone a ha hs hid
  cases hresult
  obtain ⟨rfl, hfinishing⟩ := finishing_of_attempt p hfirst h
    (((List.prefix_append ..).trans hle).trans hmoves) ha hs hid
  exact ⟨before, hle, hfinishing⟩

/-- A result is that of the driver entered for the task, whoever else attempts to decide it. -/
theorem finishing_of_ok {first total moves : List (Move Co Fu)}
    (hfirst : first ++ [.step] <+: total) (h : Enters (after p {} first) parent b work key t)
    (hmoves : moves <+: total) {v : Json} (ho : (after p {} moves).outcome? t = some (.ok v)) :
    ∃ before, before ++ [.step] <+: moves ∧ Finishing (after p {} before) key (.ok v) := by
  obtain ⟨before, m, a, hle, hnone, ha, hs, hid, hresult⟩ := attempt_of_settled p ho
  cases a with
  | outcome duty o =>
    cases hresult
    obtain ⟨rfl, hfinishing⟩ := finishing_of_attempt p hfirst h
      (((List.prefix_append ..).trans hle).trans hmoves) ha hs hid
    exact ⟨before, hle, hfinishing⟩
  | abandon duty => cases hresult
  | terminate s id => cases hresult

/-! ## What a fork is answered with -/

/-- The coroutine of the driver `parent` has forked `target` with `args`, after what `hist` tells of it,
and for that the task `t` was entered, with the driver `key` to work on `work`. -/
def Forked (moves : List (Move Co Fu)) (parent : DriverKey) (hist : List (TaskEvent Co))
    (target : Target) (args : List Json) (work : Invoked Co Fu) (key : DriverKey) (t : TaskHandle) :
    Prop :=
  ∃ first, first ++ [.step] <+: moves ∧
    history p first parent = hist ++ [.given (.builtin .fork) (.fork target args)] ∧
    Enters (after p {} first) parent .fork work key t

theorem Forked.mono {moves total : List (Move Co Fu)} {hist : List (TaskEvent Co)} {target : Target}
    {args : List Json} (h : Forked p moves parent hist target args work key t)
    (hle : moves <+: total) : Forked p total parent hist target args work key t := by
  obtain ⟨first, hfirst, hgiven, henters⟩ := h
  exact ⟨first, hfirst.trans hle, hgiven, henters⟩

/-- The seats of a driver whose coroutine has a target forked. -/
inductive Forking (target : Target) (args : List Json) (answered : TaskHandle → Prop) :
    Seat Co Fu → Prop
  | invokes {a : Act Co Fu (Invoked Co Fu)}
      (h : ∀ work, a.Gives p work → (p.invoke target args).Gives p work) :
      Forking target args answered (.working (.invoke .fork target a {}))
  | answers {t : TaskHandle} (h : answered t) :
      Forking target args answered (.working (.answer (.ok (.task t)) {}))
  | crashes : Forking target args answered (.working .crash)

theorem Forking.mono {target : Target} {args : List Json} {answered answered' : TaskHandle → Prop}
    {seat : Seat Co Fu} (h : Forking p target args answered seat)
    (himp : ∀ t, answered t → answered' t) : Forking p target args answered' seat := by
  cases h with
  | invokes h => exact .invokes h
  | answers h => exact .answers (himp _ h)
  | crashes => exact .crashes

theorem Forking.works {target : Target} {args : List Json} {answered : TaskHandle → Prop}
    {seat : Seat Co Fu} (h : Forking p target args answered seat) :
    ∃ doing, seat = .working doing ∧ doing.works = true := by
  cases h with
  | invokes h => exact ⟨_, rfl, rfl⟩
  | answers h => exact ⟨_, rfl, rfl⟩
  | crashes => exact ⟨_, rfl, rfl⟩

/-- A driver that has nothing but work to do at its seat keeps it, or it is the one that acts. -/
theorem seat_or_acts {d' : Driver Co Fu} {m : Move Co Fu} {doing : Doing Co Fu} (ho : Orderly l)
    (hd : d ∈ l.drivers) (hd' : d' ∈ (l.move p m).drivers) (hk : d'.key = d.key)
    (hseat : l.seat d = .working doing) :
    d' = d ∧ (l.move p m).seat d' = .working doing ∨
      m = .step ∧ ∃ pollers, l.focus = .active pollers d.key doing ∧ doing.works = true ∧
        l.move p m = l.stepDriver p pollers d doing := by
  cases seat_move p ho m hd hd' hk with
  | still he hstays _ =>
    subst he
    exact .inl ⟨rfl, hstays.trans hseat⟩
  | broken _ _ _ hw => exact absurd hseat (hw doing)
  | back _ hs _ _ _ => cases hseat.symm.trans hs
  | bodyBack _ hs _ => cases hseat.symm.trans hs
  | begins _ hs _ => cases hseat.symm.trans hs
  | acts hfocus hw hl =>
    cases hseat.symm.trans (seat_of_works hfocus hw)
    by_cases hm : m = .step
    · exact .inr ⟨hm, _, hfocus, hw, hl⟩
    · have hsame := move_of_active p hfocus hm
      rw [hsame] at hd' ⊢
      cases ho.eq_of_key hd' hd hk
      exact .inl ⟨rfl, hseat⟩

/-- What a step makes of a driver that has a target forked, unless that is answered. -/
theorem forking_stride {target : Target} {args : List Json} {answered : TaskHandle → Prop}
    {doing : Doing Co Fu} {job : Job Co} {seat : Seat Co Fu}
    (h : Forking p target args answered (.working doing)) (hs : Stride p l d doing job seat)
    (hevent : doing.event? d = none) (hjob : d.job ≠ .plain)
    (hanswer : ∀ work, (p.invoke target args).Gives p work →
      doing = .invoke .fork target (.ret work) {} →
      answered ⟨d.task.scheduler, (l.activeTasks d.task.scheduler).nextId, target.name⟩) :
    Forking p target args answered seat := by
  cases h with
  | invokes hgives =>
    cases hs with
    | invokes _ _ ha _ => exact .invokes fun work hw => hgives work (gives_of_perform l _ hw)
    | invokePanics _ _ _ => exact .crashes
    | forked _ work _ => exact .answers (hanswer work (hgives work (.ret work)) rfl)
    | calledPending hb _ _ _ => exact absurd rfl hb
    | calledCoroutine hb _ _ _ => exact absurd rfl hb
  | answers _ =>
    unfold Doing.event? at hevent
    cases hd : d.job with
    | plain => exact absurd hd hjob
    | coroutine co passes kind =>
      rw [hd] at hevent
      cases hevent
  | crashes => cases hs

/-- The task that was entered for a fork of the coroutine of a driver, and what it works on. -/
def HandleOf (moves : List (Move Co Fu)) (parent : DriverKey) (hist : List (TaskEvent Co))
    (target : Target) (args : List Json) (t : TaskHandle) : Prop :=
  ∃ work key, (p.invoke target args).Gives p work ∧
    Forked p moves parent hist target args work key t

/-- The last event of a history is there already, or it is what the driver in focus does. -/
theorem history_last {moves : List (Move Co Fu)} {m : Move Co Fu} {hist : List (TaskEvent Co)}
    {e : TaskEvent Co} (h : history p (moves ++ [m]) key = hist ++ [e]) (he : e.enters = false) :
    history p moves key = hist ++ [e] ∨
      history p moves key = hist ∧ m = .step ∧ ∃ pollers d doing,
        (after p {} moves).focus = .active pollers d.key doing ∧
          (after p {} moves).driver? d.key = some d ∧ d.key = key ∧ doing.event? d = some e := by
  rcases history_move p moves m key with
    hsame | ⟨s, co, hone⟩ | ⟨pollers, d, doing, e', hfocus, hd, hk, he', hnext⟩
  · exact .inl (hsame ▸ h)
  · rw [hone] at h
    cases hist with
    | nil =>
      cases h
      cases he
    | cons _ hist => exact absurd (congrArg List.length h) (by simp)
  · rw [hnext] at h
    obtain ⟨hhist, he''⟩ := List.append_inj' h rfl
    cases he''
    refine .inr ⟨hhist, ?_, pollers, d, doing, hfocus, hd, hk, he'⟩
    by_contra hm
    have hold := ((orderly_after p moves).proper d (mem_of_driver? hd)).1
    have hcount := congrArg List.length hnext
    rw [history_snoc, happenings, acting_of_ne_step hm, List.nil_append,
      eventsOf_newcomers_old (hk ▸ hold)] at hcount
    simp at hcount

/-- A driver to whose coroutine something has happened was entered. -/
theorem old_of_history {moves : List (Move Co Fu)} (h : history p moves key ≠ []) :
    key.val ≤ (after p {} moves).lastKey := by
  by_contra hnew
  exact h (history_eq_nil p moves (Nat.not_le.mp hnew))

/-- An effect is given to its processor when that is what the driver is about to do for it. -/
theorem process_of_given {doing : Doing Co Fu} {ref : ProcessorRef} {e : Effect}
    (h : doing.event? d = some (.given ref e)) : doing = .process ref e {} := by
  unfold Doing.event? at h
  split at h <;> cases h
  rfl

/-- The step in which a fork is given to its processor begins to invoke the target. -/
theorem forking_of_given {d' : Driver Co Fu} {target : Target} {args : List Json}
    {answered : TaskHandle → Prop} {doing : Doing Co Fu}
    (hfocus : l.focus = .active pollers d.key doing) (hd : l.driver? d.key = some d)
    (he : doing.event? d = some (.given (.builtin .fork) (.fork target args))) (hk : d'.key = d.key) :
    Forking p target args answered ((l.move p .step).seat d') := by
  cases process_of_given he
  rw [move_step_of_driver p hfocus hd (not_leave_of_works rfl)]
  have hseat : (l.stepDriver p pollers d (.process (.builtin .fork) (.fork target args) {})).seat d' =
      .working (.invoke .fork target (p.invoke target args) {}) := seat_focusOn_of_works _ _ hk rfl
  rw [hseat]
  exact .invokes fun work hw => hw

/-- What a move makes of a driver that has a target forked, while nothing happens to its coroutine. -/
theorem forking_move {moves : List (Move Co Fu)} {m : Move Co Fu} {hist : List (TaskEvent Co)}
    {target : Target} {args : List Json} {d' : Driver Co Fu}
    (h : history p moves d.key = hist ++ [.given (.builtin .fork) (.fork target args)])
    (hsame : history p (moves ++ [m]) d.key = history p moves d.key)
    (hforking : Forking p target args (HandleOf p moves d.key hist target args)
      ((after p {} moves).seat d))
    (hd : d ∈ (after p {} moves).drivers) (hd' : d' ∈ ((after p {} moves).move p m).drivers)
    (hk : d'.key = d.key) :
    Forking p target args (HandleOf p (moves ++ [m]) d.key hist target args)
      (((after p {} moves).move p m).seat d') := by
  have ho := orderly_after p moves
  have hmono : Forking p target args (HandleOf p (moves ++ [m]) d.key hist target args)
      ((after p {} moves).seat d) := hforking.mono p fun t ht => by
    obtain ⟨work, key, hw, hforked⟩ := ht
    exact ⟨work, key, hw, hforked.mono p (List.prefix_append ..)⟩
  obtain ⟨doing, hseat, hw⟩ := hforking.works
  rw [hseat] at hmono
  rcases seat_or_acts p ho hd hd' hk hseat with ⟨_, hstays⟩ | ⟨rfl, pollers, hfocus, _, hl⟩
  · rwa [hstays]
  · have hdriver := driver?_of_mem ho hd
    have hevent : doing.event? d = none := by
      have hstep := history_step p hfocus hdriver
      rw [hsame] at hstep
      exact Option.toList_eq_nil_iff.mp (List.append_right_eq_self.mp hstep.symm)
    have hjob : d.job ≠ .plain := by
      obtain ⟨_, _, _, ph, _, _, hstands⟩ := exists_stands p h rfl
      obtain ⟨_, _, _, hjob⟩ := exists_job_of_stands (hstands d hd rfl)
      rw [hjob]
      exact nofun
    rw [hl] at hd' ⊢
    refine forking_stride p hmono (stride_stepDriver p ho hd hfocus hw hd' hk) hevent hjob ?_
    rintro work hwork rfl
    exact ⟨work, _, hwork, moves, List.prefix_refl _, h, .intro hfocus hdriver (.inl rfl)⟩

/-- **While a fork is processed its driver invokes the target**, and then it has the handle of the task
that was entered for it. -/
theorem forking_after {moves : List (Move Co Fu)} {hist : List (TaskEvent Co)} {target : Target}
    {args : List Json}
    (h : history p moves parent = hist ++ [.given (.builtin .fork) (.fork target args)])
    (hd : d ∈ (after p {} moves).drivers) (hk : d.key = parent) :
    Forking p target args (HandleOf p moves parent hist target args)
      ((after p {} moves).seat d) := by
  induction moves using List.reverseRecOn generalizing d with
  | nil => simp [history, trace, eventsOf] at h
  | append_singleton moves m ih =>
    subst hk
    rw [after_snoc] at hd ⊢
    rcases history_last p h rfl with hgiven | ⟨_, rfl, _, f, _, hfocus, hf, hkf, he⟩
    · have hold : d.key.val ≤ (after p {} moves).lastKey :=
        old_of_history p (by rw [hgiven]; simp)
      obtain ⟨d₀, hd₀, hk₀, _, _⟩ := exists_before p (orderly_after p moves) m hd hold
      rw [hk₀] at h hgiven ih ⊢
      exact forking_move p hgiven (h.trans hgiven.symm) (ih hgiven hd₀ rfl) hd₀ hd hk₀
    · exact forking_of_given p hfocus hf he hkf.symm

/-- The task of a fork is entered when the target has been invoked for it. -/
theorem Forked.invoking {moves : List (Move Co Fu)} {hist : List (TaskEvent Co)} {target : Target}
    {args : List Json} (h : Forked p moves parent hist target args work key t) :
    ∃ first pollers, first ++ [.step] <+: moves ∧
      (after p {} first).focus = .active pollers parent (.invoke .fork target (.ret work) {}) ∧
      key = ⟨(after p {} first).lastKey + 1⟩ ∧ (p.invoke target args).Gives p work := by
  obtain ⟨first, hfirst, hgiven, ⟨hfocus, hd, _⟩⟩ := h
  cases key_of_driver? hd
  have hforking := forking_after p hgiven (mem_of_driver? hd) rfl
  rw [seat_of_works hfocus rfl] at hforking
  cases hforking with
  | invokes hgives => exact ⟨first, _, hfirst, hfocus, rfl, hgives work (.ret work)⟩

/-- Every beginning of a history is the history of a beginning of the run. -/
theorem exists_prefix_of_history {moves : List (Move Co Fu)} {hist rest : List (TaskEvent Co)}
    (h : history p moves key = hist ++ rest) :
    ∃ first, first <+: moves ∧ history p first key = hist := by
  induction moves using List.reverseRecOn generalizing rest with
  | nil =>
    refine ⟨[], List.prefix_refl _, ?_⟩
    have hnil : hist ++ rest = [] := h.symm
    rw [(List.append_eq_nil_iff.mp hnil).1]
    rfl
  | append_singleton moves m ih =>
    rcases List.eq_nil_or_concat rest with rfl | ⟨rest, e, rfl⟩
    · exact ⟨_, List.prefix_refl _, h.trans (List.append_nil hist)⟩
    have hearlier : (∃ rest', history p moves key = hist ++ rest') →
        ∃ first, first <+: moves ++ [m] ∧ history p first key = hist := by
      rintro ⟨rest', h'⟩
      obtain ⟨first, hle, hfirst⟩ := ih h'
      exact ⟨first, hle.trans (List.prefix_append ..), hfirst⟩
    rw [List.concat_eq_append, ← List.append_assoc] at h
    rcases history_move p moves m key with hsame | ⟨s, co, hone⟩ | ⟨_, _, _, e', _, _, _, _, hnext⟩
    · exact hearlier ⟨rest ++ [e], by rw [← hsame, h, List.append_assoc]⟩
    · rw [hone] at h
      have hnil : hist ++ rest = [] := (List.append_inj' ((List.nil_append _).trans h) rfl).1.symm
      rw [(List.append_eq_nil_iff.mp hnil).1]
      exact ⟨[], List.nil_prefix, rfl⟩
    · rw [hnext] at h
      exact hearlier ⟨rest, (List.append_inj' h rfl).1⟩

/-- Whatever happens to a coroutine happens in a step of its driver. -/
theorem exists_step_of_event {moves : List (Move Co Fu)} {hist rest : List (TaskEvent Co)}
    {e : TaskEvent Co} (h : history p moves key = hist ++ e :: rest) (he : e.enters = false) :
    ∃ first pollers d doing, first ++ [.step] <+: moves ∧ history p first d.key = hist ∧ d.key = key ∧
      (after p {} first).focus = .active pollers d.key doing ∧
        (after p {} first).driver? d.key = some d ∧ doing.event? d = some e := by
  have hsplit : history p moves key = (hist ++ [e]) ++ rest := h.trans (by simp)
  obtain ⟨first, hle, hfirst⟩ := exists_prefix_of_history p hsplit
  clear h hsplit
  induction first using List.reverseRecOn with
  | nil => exact absurd hfirst (by simp [history, trace, eventsOf])
  | append_singleton first m ih =>
    rcases history_last p hfirst he with hbefore | ⟨hhist, rfl, pollers, d, doing, hfocus, hd, rfl, hev⟩
    · exact ih ((List.prefix_append first [m]).trans hle) hbefore
    · exact ⟨first, pollers, d, doing, hle, hhist, rfl, hfocus, hd, hev⟩

/-- The effect of a coroutine is resolved when its driver has the answer and nothing else to do for it. -/
theorem answer_of_resolved {doing : Doing Co Fu} {r : Resume}
    (h : doing.event? d = some (.resolved r)) : doing = .answer r {} := by
  unfold Doing.event? at h
  split at h <;> cases h
  rfl

/-- **A fork is answered with the handle of the task that was entered for it**, to work on what the target
has given. -/
theorem forked_of_resolved {moves : List (Move Co Fu)} {hist rest : List (TaskEvent Co)}
    {target : Target} {args : List Json} {r : Resume} (h : history p moves parent =
      hist ++ .given (.builtin .fork) (.fork target args) :: .resolved r :: rest) :
    ∃ t, r = .ok (.task t) ∧ HandleOf p moves parent hist target args t := by
  have hsplit : history p moves parent =
      (hist ++ [.given (.builtin .fork) (.fork target args)]) ++ .resolved r :: rest :=
    h.trans (by simp)
  obtain ⟨first, pollers, d, doing, hle, hgiven, rfl, hfocus, hd, he⟩ :=
    exists_step_of_event p hsplit rfl
  have hforking := forking_after p hgiven (mem_of_driver? hd) rfl
  cases answer_of_resolved he
  rw [seat_of_works hfocus rfl] at hforking
  cases hforking with
  | answers ht =>
    obtain ⟨work, key, hw, hforked⟩ := ht
    exact ⟨_, rfl, work, key, hw, hforked.mono p ((List.prefix_append first [Move.step]).trans hle)⟩

end

end EventLoop

end EffectLoop
