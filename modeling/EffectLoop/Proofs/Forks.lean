import EffectLoop.Proofs.Acts
import EffectLoop.Proofs.Callees
import EffectLoop.Proofs.Calls

/-!
# What a fork is answered with

The built-in processor of forks invokes the target, enters a task for what it gives, and answers with the
handle, all in one poll. `HandsOut` says what a coroutine, or a computation that delegates to the
processor, can rely on when it has got the handle; it holds whatever the target does while it is invoked
(`forks_hand_out_handles`).

The task that was entered has a driver with a home of its own, which no poll comes to before the poll under
way is over (`idle_or_unbegun`).
-/

namespace EffectLoop

variable {Co Fu β : Type}

/-- The state in which a task is entered for some work. -/
def Invoked.begins : Invoked Co Fu → TaskState
  | .coroutine _ => .created
  | .pending _ => .running

/-- What has happened to the coroutine of a task when it has been entered under a scheduler. -/
def Invoked.told (s : SchedulerId) : Invoked Co Fu → List (TaskEvent Co)
  | .coroutine co => [.entered s co]
  | .pending _ => []

/-- The driver is to do some work, and nothing of it is done. -/
def Driver.IsFor (d : Driver Co Fu) : Invoked Co Fu → Prop
  | .coroutine co => d.job = .coroutine co 0 .put ∧ d.activity = .fresh
  | .pending fu => d.job = .plain ∧ d.activity = .pending (.unbegun fu)

namespace EventLoop

/-- The run goes on by so many steps. -/
def stepping (moves : List (Move Co Fu)) (k : Nat) : List (Move Co Fu) :=
  moves ++ List.replicate k .step

/-- The driver `key` has not begun its work, and is not the one that acts. -/
def Unstarted (l : EventLoop Co Fu) (key : DriverKey) (work : Invoked Co Fu) : Prop :=
  (∃ c ∈ l.drivers, c.key = key ∧ c.IsFor work) ∧ ∀ pollers doing, l.focus ≠ .active pollers key doing

/-- The task is active, is shown in this state, and has no outcome. -/
def Registered (l : EventLoop Co Fu) (t : TaskHandle) (state : TaskState) : Prop :=
  (l.activeTasks t.scheduler).state? t.id = some state ∧ l.outcome? t = none

/-- What can be relied on when a fork of a target is about to be processed that gives its work after `n`
requests. The driver `child` is entered for the work, with the task `t`. -/
structure HandsOut (p : Program Co Fu) (moves : List (Move Co Fu)) (pollers : List (Poller Co Fu))
    (d : Driver Co Fu) (target : Target) (args : List Json) (spot : Spot Fu) (work : Invoked Co Fu) (n : Nat)
    (child : DriverKey) (t : TaskHandle) : Prop where
  /-- The target is invoked with these arguments, and nothing else is done until it has given its work. -/
  begins : Acts (after p {} (stepping moves 1)) pollers d (.invoke .fork target (p.invoke target args) spot)
  invokes : ∀ k ≤ n, ∃ a, Acts (after p {} (stepping moves (k + 1))) pollers d (.invoke .fork target a spot)
  given : Acts (after p {} (stepping moves (n + 1))) pollers d (.invoke .fork target (.ret work) spot)
  /-- The next step answers the fork with the handle, -/
  answered : Acts (after p {} (stepping moves (n + 2))) pollers d (.answer (.ok (.task t)) spot)
  /-- whose number is greater than any that its scheduler has given out. -/
  scheduler : t.scheduler = d.task.scheduler
  fresh : ∀ id, ((after p {} (stepping moves (n + 1))).activeTasks t.scheduler).Allotted id → id.val < t.id.val
  /-- The task is active, has no outcome, and nothing of it has run. -/
  registered : Registered (after p {} (stepping moves (n + 2))) t work.begins
  entered : ∃ c ∈ (after p {} (stepping moves (n + 2))).drivers, c.key = child ∧ c.task = t ∧ c.owner = .loop
  unstarted : Unstarted (after p {} (stepping moves (n + 2))) child work ∧
    history p (stepping moves (n + 2)) child = work.told t.scheduler
  /-- It stays so until the poll is over in which the handle was got, if nobody polls what others own. -/
  waits : ∀ rest, OwnersPollIn p (stepping moves (n + 2) ++ rest) →
    (∀ more m, more ++ [m] <+: rest → (after p {} (stepping moves (n + 2) ++ more)).focus ≠ .idle) →
    Unstarted (after p {} (stepping moves (n + 2) ++ rest)) child work ∧
      history p (stepping moves (n + 2) ++ rest) child = work.told t.scheduler
  /-- A coroutine that has yielded the fork is resumed with the handle in that poll, when the task is just
  as it was entered, -/
  resumes : spot = {} → d.job ≠ .plain →
    Acts (after p {} (stepping moves (n + 3))) pollers d (.resume (.ok (.task t))) ∧
      Registered (after p {} (stepping moves (n + 3))) t work.begins
  told : spot = {} → d.job ≠ .plain → ∃ co, history p (stepping moves (n + 4)) d.key =
    history p moves d.key ++ [.given (.builtin .fork) (.fork target args), .resolved (.ok (.task t)),
      .resumed co (.ok (.task t))]
  /-- and the target was invoked once for it. -/
  once : spot = {} → d.job ≠ .plain → InvokesOnce p (stepping moves (n + 4)) d.key (history p moves d.key)
    (.given (.builtin .fork) (.fork target args)) target args

theorem Registered.contains {l : EventLoop Co Fu} {t : TaskHandle} {state : TaskState}
    (h : Registered l t state) : (l.activeTasks t.scheduler).contains t.id = true := by
  rw [← ActiveTasks.isSome_state?, h.1]
  rfl

section

variable (p : Program Co Fu) {l l' : EventLoop Co Fu} {moves : List (Move Co Fu)}
  {pollers : List (Poller Co Fu)} {d : Driver Co Fu} {parent child : DriverKey} {b : Builtin}
  {work : Invoked Co Fu} {target : Target} {args : List Json} {spot : Spot Fu} {t : TaskHandle}

/-! ## One poll -/

omit p in
theorem stepping_succ (moves : List (Move Co Fu)) (k : Nat) :
    stepping moves (k + 1) = stepping moves k ++ [.step] := by
  rw [stepping, stepping, List.replicate_succ', List.append_assoc]

theorem after_stepping_succ (k : Nat) :
    after p {} (stepping moves (k + 1)) = (after p {} (stepping moves k)).move p .step := by
  rw [stepping_succ, after_snoc]

theorem after_stepping_of_step (k : Nat) :
    after p {} (stepping moves (k + 1)) =
      ((after p {} moves).move p .step).after p (List.replicate k .step) := by
  rw [stepping, List.replicate_succ, after_append, after_cons]

/-- A driver that carries out an act does nothing else until it has come to what is left of it. -/
theorem acts_of_proceeds (pollers : List (Poller Co Fu)) {doing : Act Co Fu β → Doing Co Fu} (hc : Doing.Carrying doing)
    {a a' : Act Co Fu β} (h : Proceeds p (some d.key) l a l' a') (hd : l.driver? d.key = some d) :
    ∃ n, ((l.focusOn pollers d.key (doing a)).after p (List.replicate n .step)) =
        l'.focusOn pollers d.key (doing a') ∧
      ∀ k, k ≤ n → ∃ a'', Acts ((l.focusOn pollers d.key (doing a)).after p (List.replicate k .step))
        pollers d (doing a'') := by
  induction h with
  | refl l a =>
    refine ⟨0, rfl, fun k hk => ?_⟩
    cases Nat.le_zero.mp hk
    exact ⟨a, rfl, hd⟩
  | @step l l' a a' ha _ ih =>
    have hmove : (l.focusOn pollers d.key (doing a)).move p .step =
        (l.perform p (some d.key) a).1.focusOn pollers d.key (doing (l.perform p (some d.key) a).2) :=
      (Site.move_state p (show (Site.inside pollers d.key doing).Apt l from ⟨hc, d, hd⟩) ha).1
    obtain ⟨n, hn, hacts⟩ := ih (driver?_perform p hd)
    refine ⟨n + 1, ?_, fun k hk => ?_⟩
    · rw [List.replicate_succ, after_cons, hmove, hn]
    · cases k with
      | zero => exact ⟨a, rfl, hd⟩
      | succ k =>
        rw [List.replicate_succ, after_cons, hmove]
        exact hacts k (Nat.le_of_succ_le_succ hk)

/-- **A fork invokes its target at once**, and its driver does nothing else until the target has given
its work. -/
theorem invoking_of_process
    (hacts : Acts (after p {} moves) pollers d (.process (.builtin .fork) (.fork target args) spot))
    {calls : List SinkCall} (hexec : Executes p (some d.key) (after p {} moves) (p.invoke target args)
      calls l' (some work)) :
    Acts (after p {} (stepping moves 1)) pollers d
        (.invoke .fork target (p.invoke target args) spot) ∧
      ∃ n, Acts (after p {} (stepping moves (n + 1))) pollers d
          (.invoke .fork target (.ret work) spot) ∧
        ∀ k, k ≤ n → ∃ a, Acts (after p {} (stepping moves (k + 1))) pollers d
          (.invoke .fork target a spot) := by
  have hstep : (after p {} moves).move p .step =
      (after p {} moves).focusOn pollers d.key (.invoke .fork target (p.invoke target args) spot) :=
    move_step_of_driver p hacts.focus hacts.driver nofun
  have hproceeds := hexec.proceeds p Act.ret
  rw [Act.bind_ret] at hproceeds
  obtain ⟨n, hn, hinvoking⟩ :=
    acts_of_proceeds p pollers (.invoke .fork target spot) hproceeds hacts.driver
  refine ⟨?_, n, ?_, fun k hk => ?_⟩
  · rw [after_stepping_of_step, hstep]
    exact ⟨rfl, hacts.driver⟩
  · obtain ⟨_, hlast⟩ := hinvoking n (Nat.le_refl n)
    rw [after_stepping_of_step, hstep]
    rw [hn] at hlast ⊢
    exact ⟨rfl, hlast.driver⟩
  · obtain ⟨a, ha⟩ := hinvoking k hk
    rw [after_stepping_of_step, hstep]
    exact ⟨a, ha⟩

/-! ## The entry -/

/-- The drivers that are there stay when another one is entered. -/
theorem driver?_of_arrival {m : Move Co Fu} {current : Option DriverKey} {x : Arrival Co Fu}
    (hx : l.arrival? m = some (current, x)) {key : DriverKey} (hd : l.driver? key = some d) :
    (l.move p m).driver? key = some d := by
  unfold driver? at hd ⊢
  rw [(drivers_move_of_arrival p hx).1, List.find?_append, hd]
  rfl

/-- The step that enters the task of a fork answers the fork with its handle, which has the next number. -/
theorem answers_of_invoked
    (hacts : Acts (after p {} moves) pollers d (.invoke .fork target (.ret work) spot)) :
    ∃ key t, Enters (after p {} moves) d.key .fork work key t ∧ t.scheduler = d.task.scheduler ∧
      (∀ id, ((after p {} moves).activeTasks t.scheduler).Allotted id → id.val < t.id.val) ∧
      Acts (after p {} (moves ++ [.step])) pollers d (.answer (.ok (.task t)) spot) := by
  have henters := Enters.intro hacts.focus hacts.driver (.inl rfl)
  obtain ⟨x, hx, _⟩ := henters.arrival p
  have hdriver := driver?_of_arrival p hx hacts.driver
  refine ⟨_, _, henters, rfl, fun id hid => Nat.lt_succ_of_le hid.2, ?_⟩
  rw [after_snoc]
  refine ⟨?_, hdriver⟩
  rw [move_step_of_driver p hacts.focus hacts.driver nofun]
  cases work <;> rfl

/-- A task that was entered is active, has no outcome, and shows that it is created, or that it runs if it is
a plain computation. -/
theorem registered_of_arrival {m : Move Co Fu} {current : Option DriverKey} {x : Arrival Co Fu}
    (hx : (after p {} moves).arrival? m = some (current, x)) :
    Registered (after p {} (moves ++ [m])) (x.driver p (after p {} moves) current).task x.work.begins := by
  have htasks : (after p {} (moves ++ [m])).activeTasks =
      ((after p {} moves).books.postAll (x.postings (after p {} moves))).tasks := by
    rw [after_snoc, ← (drivers_move_of_arrival p hx).2]
    exact congrArg Books.tasks (books_move p (after p {} moves) m)
  have hstate : ((after p {} (moves ++ [m])).activeTasks x.scheduler).state?
      ((after p {} moves).activeTasks x.scheduler).nextId = some x.work.begins := by
    rw [htasks, state_arrival (orderly_after p moves).balanced.sound x]
    cases x.work <;> rfl
  have hcontains : ((after p {} (moves ++ [m])).activeTasks x.scheduler).contains
      ((after p {} moves).activeTasks x.scheduler).nextId = true := by
    rw [← ActiveTasks.isSome_state?, hstate]
    rfl
  have hsound := (orderly_after p (moves ++ [m])).balanced.sound x.scheduler
  exact ⟨hstate, hsound.outcome_eq_none hcontains⟩

/-- The task that was entered for a fork is active and has no outcome. -/
theorem registered_of_enters {key : DriverKey} (h : Enters (after p {} moves) parent b work key t) :
    Registered (after p {} (moves ++ [.step])) t work.begins := by
  obtain ⟨x, hx, rfl, _, rfl⟩ := h.arrival p
  exact registered_of_arrival p hx

/-- A fork enters a driver that is nested in nobody, and has not begun. -/
theorem Enters.forked {key : DriverKey} (h : Enters l parent .fork work key t) :
    ∃ c ∈ (l.move p .step).drivers, c.key = key ∧ c.task = t ∧ c.owner = .loop ∧ c.IsFor work := by
  obtain ⟨x, hx, hwork, hkey, htask⟩ := h.arrival p
  have hnested : x.nested = false := by
    cases h with
    | @intro pollers target spot d hfocus hd hown =>
      cases key_of_driver? hd
      rw [arrival?_of_driver hfocus hd] at hx
      cases work <;> cases hx <;> rfl
  refine ⟨x.driver p l (some parent), ?_, hkey, htask, ?_, ?_⟩
  · rw [(drivers_move_of_arrival p hx).1]
    exact List.mem_append_right _ List.mem_cons_self
  · rw [Arrival.owner_driver, Arrival.owner, hnested]
    rfl
  · subst hwork
    unfold Driver.IsFor
    rw [Arrival.job_driver, Arrival.activity_driver, Arrival.job, Arrival.activity]
    cases x.work <;> exact ⟨rfl, rfl⟩

/-- The driver that was entered for a fork has not begun, and has a home of its own. -/
theorem unstarted_of_enters {key : DriverKey} (h : Enters (after p {} moves) parent .fork work key t) :
    (∃ c ∈ (after p {} (moves ++ [.step])).drivers, c.key = key ∧ c.task = t ∧ c.owner = .loop) ∧
      Unstarted (after p {} (moves ++ [.step])) key work ∧
      history p (moves ++ [.step]) key = work.told t.scheduler := by
  obtain ⟨c, hc, hkey, htask, howner, hfor⟩ := h.forked p
  rw [← after_snoc] at hc
  refine ⟨⟨c, hc, hkey, htask, howner⟩, ⟨⟨c, hc, hkey, hfor⟩, fun ps doing hf => ?_⟩, ?_⟩
  · -- the focus is still on the driver that forks
    have hnew := h.key_eq
    cases h with
    | @intro pollers target spot d hfocus hd hown =>
      cases key_of_driver? hd
      obtain ⟨_, _, _, _, _, hanswer⟩ := answers_of_invoked p ⟨hfocus, hd⟩
      have hsame := hanswer.focus.symm.trans hf
      have hold := ((orderly_after p moves).proper d (mem_of_driver? hd)).1
      rw [(Focus.active.inj hsame).2.1, hnew] at hold
      exact absurd hold (Nat.not_succ_le_self _)
  · cases work with
    | coroutine co => exact entered_of_enters p h
    | pending fu => exact history_of_pending p h

/-- The driver that was entered for a fork has no part in the poll under way. -/
theorem aside_of_enters {key : DriverKey} (hown : OwnersPollIn p (moves ++ [.step]))
    (h : Enters (after p {} moves) parent .fork work key t) : Aside (after p {} (moves ++ [.step])) key := by
  have hladdered := (wakeful_after p _ hown).1.laddered
  have hnew := h.key_eq
  cases h with
  | @intro pollers target spot d hfocus hd hown =>
    cases key_of_driver? hd
    obtain ⟨_, _, _, _, _, hanswer⟩ := answers_of_invoked p ⟨hfocus, hd⟩
    have hold := (housed_after p moves).bounded d (mem_of_driver? hd)
    intro x hx hparty hhome
    have hsame : x.home = d.home := by
      refine hladdered.home_eq hx (mem_of_driver? hanswer.driver) hparty ?_
      rw [parties_of_active hanswer.focus]
      exact List.mem_cons_self
    rw [hsame] at hhome
    rw [hhome] at hold
    omega

/-! ## The rest of the poll -/

/-- A driver that has not begun does not begin while the poll of another home goes on. -/
theorem unstarted_move {key : DriverKey} (ho : Orderly l) (hh : Housed l) {m : Move Co Fu}
    (hladdered : Laddered (l.move p m)) (hactive : l.focus ≠ .idle) (haside : Aside l key)
    (hroot : ∀ c ∈ l.drivers, c.key = key → c.owner = .loop) (h : Unstarted l key work) :
    Aside (l.move p m) key ∧ Unstarted (l.move p m) key work ∧
      ∀ c ∈ (l.move p m).drivers, c.key = key → c.owner = .loop := by
  obtain ⟨⟨c, hc, rfl, hfor⟩, hfocus⟩ := h
  have howner := hroot c hc rfl
  have hisRoot : c.IsRoot := fun k => by simp [howner]
  have haside' : Aside (l.move p m) c.key :=
    aside_move p ho m hladdered (housed_move p ho hh m) haside fun hidle => absurd hidle hactive
  obtain ⟨c', hc', hk⟩ := root_stays p ho hh hc hisRoot haside fun hidle => absurd hidle hactive
  obtain rfl : c' = c := by
    cases seat_move p ho m hc hc' hk with
    | still he _ _ => exact he
    | broken he _ _ _ => exact he
    | back he _ _ _ _ => exact he
    | bodyBack he _ _ => exact he
    | begins hf _ _ => exact absurd hf (hfocus _ _)
    | acts hf _ _ => exact absurd hf (hfocus _ _)
  refine ⟨haside', ⟨⟨c', hc', rfl, hfor⟩, fun ps doing hf => ?_⟩, fun x hx hxk => ?_⟩
  · refine haside' c' hc' ?_ ((housed_move p ho hh m).root c' hc' hisRoot)
    rw [parties_of_active hf]
    exact List.mem_cons_self
  · rw [(orderly_move p ho m).eq_of_key hx hc' hxk, howner]

/-- Nothing happens to a coroutine while its driver has not begun. -/
theorem history_of_unstarted {key : DriverKey} (h : Unstarted (after p {} moves) key work)
    (m : Move Co Fu) : history p (moves ++ [m]) key = history p moves key := by
  obtain ⟨⟨c, hc, rfl, _⟩, hfocus⟩ := h
  have hold := ((orderly_after p moves).proper c hc).1
  rw [history_snoc, happenings, eventsOf_append, eventsOf_newcomers_old hold, List.append_nil]
  rcases eventsOf_acting (after p {} moves) m c.key with hnone | ⟨_, _, _, _, _, hf, _, hk, _, _⟩
  · rw [hnone, List.append_nil]
  · rw [hk] at hf
    exact absurd hf (hfocus _ _)

/-- **What was forked does not begin before the poll under way is over.** -/
theorem unstarted_after {key : DriverKey} {rest : List (Move Co Fu)}
    (hown : OwnersPollIn p (moves ++ [.step] ++ rest))
    (h : Enters (after p {} moves) parent .fork work key t)
    (hactive : ∀ more m, more ++ [m] <+: rest → (after p {} (moves ++ [.step] ++ more)).focus ≠ .idle) :
    Aside (after p {} (moves ++ [.step] ++ rest)) key ∧
      Unstarted (after p {} (moves ++ [.step] ++ rest)) key work ∧
      (∀ c ∈ (after p {} (moves ++ [.step] ++ rest)).drivers, c.key = key → c.owner = .loop) ∧
      history p (moves ++ [.step] ++ rest) key = work.told t.scheduler := by
  induction rest using List.reverseRecOn with
  | nil =>
    rw [List.append_nil] at hown ⊢
    obtain ⟨⟨c, hc, hkey, _, howner⟩, hunstarted, htold⟩ := unstarted_of_enters p h
    refine ⟨aside_of_enters p hown h, hunstarted, fun x hx hk => ?_, htold⟩
    rw [(orderly_after p _).eq_of_key hx hc (hk.trans hkey.symm), howner]
  | append_singleton rest m ih =>
    have hown' : OwnersPollIn p (moves ++ [.step] ++ rest) := fun first hfirst =>
      hown first (hfirst.trans ⟨[m], List.append_assoc ..⟩)
    obtain ⟨haside, hunstarted, hroot, htold⟩ :=
      ih hown' fun more m' hmore => hactive more m' (hmore.trans (List.prefix_append ..))
    have hladdered := (wakeful_after p _ hown).1.laddered
    rw [← List.append_assoc, after_snoc] at hladdered
    obtain ⟨haside', hunstarted', hroot'⟩ := unstarted_move p (orderly_after p _) (housed_after p _)
      hladdered (hactive rest m (List.prefix_refl _)) haside hroot hunstarted
    rw [← List.append_assoc, history_of_unstarted p hunstarted, after_snoc]
    exact ⟨haside', hunstarted', hroot', htold⟩

/-! ## The answer -/

/-- Nothing happens to a coroutine while a target is invoked for it. -/
theorem history_of_invoking {n : Nat} (h : ∀ k ≤ n, ∃ a, Acts (after p {} (stepping moves (k + 1))) pollers d
    (.invoke b target a spot)) :
    history p (stepping moves (n + 2)) d.key = history p (stepping moves 1) d.key := by
  have hstep : ∀ k ≤ n, history p (stepping moves (k + 2)) d.key = history p (stepping moves (k + 1)) d.key := by
    intro k hk
    obtain ⟨a, ha⟩ := h k hk
    rw [stepping_succ, history_step p ha.focus ha.driver]
    cases hjob : d.job <;> simp [Doing.event?, hjob]
  induction n with
  | zero => exact hstep 0 (Nat.le_refl 0)
  | succ n ih =>
    rw [hstep (n + 1) (Nat.le_refl _)]
    exact ih (fun k hk => h k (Nat.le_succ_of_le hk)) fun k hk => hstep k (Nat.le_succ_of_le hk)

/-- A fork that was yielded is given to its processor, and answered. -/
theorem history_of_forking {n : Nat} (hjob : d.job ≠ .plain)
    (hacts : Acts (after p {} moves) pollers d (.process (.builtin .fork) (.fork target args) {}))
    (hinvokes : ∀ k ≤ n, ∃ a, Acts (after p {} (stepping moves (k + 1))) pollers d (.invoke .fork target a {}))
    (hanswer : Acts (after p {} (stepping moves (n + 2))) pollers d (.answer (.ok (.task t)) {})) :
    Acts (after p {} (stepping moves (n + 3))) pollers d (.resume (.ok (.task t))) ∧
      ∃ co, history p (stepping moves (n + 4)) d.key = history p moves d.key ++
        [.given (.builtin .fork) (.fork target args), .resolved (.ok (.task t)), .resumed co (.ok (.task t))] := by
  cases hd : d.job with
  | plain => exact absurd hd hjob
  | coroutine co passes kind =>
    have hresume := acts_answer p hd hanswer
    rw [← after_stepping_succ] at hresume
    have hgiven : history p (stepping moves 1) d.key = _ := history_step p hacts.focus hacts.driver
    refine ⟨hresume, co, ?_⟩
    rw [stepping_succ, history_step p hresume.focus hresume.driver, stepping_succ,
      history_step p hanswer.focus hanswer.driver, history_of_invoking p hinvokes, hgiven]
    simp [Doing.event?, hd]

/-- Nothing changes in the registers when a driver is answered. -/
theorem activeTasks_of_answer {r : Resume} (h : Acts l pollers d (.answer r spot)) :
    (l.move p .step).activeTasks = l.activeTasks := by
  have hpost : l.postings p .step = [] := postings_of_driver p h.focus h.driver
  have hbooks := books_move p l .step
  rw [hpost, Books.postAll_nil] at hbooks
  exact congrArg Books.tasks hbooks

end

end EventLoop

end EffectLoop
