import EffectLoop.Proofs.Books
import EffectLoop.Proofs.Steps

/-!
# What a move posts

`postings` says of every move what it enters in the books: which tasks it enters, which states it
notes and which attempts on an outcome it makes, in order. `books_move` is the law that ties it to
the loop: the books after a move are the books before it with these entries made. What is proved of
books and lists of postings is thereby proved of every run (`books_after`, `balanced_after`).
-/

namespace EffectLoop

variable {Co Fu α : Type}

/-- The duty a driver holds. -/
def Driver.duty (d : Driver Co Fu) : Duty := ⟨d.key, d.task.scheduler, d.guard.id⟩

/-- Drivers go away without an outcome, in order. -/
def abandonments (ds : List (Driver Co Fu)) : List Posting :=
  (ds.map fun d => Attempt.abandon d.duty).map .attempt

namespace EventLoop

/-- The books of a loop. -/
def books (l : EventLoop Co Fu) : Books where
  tasks := l.activeTasks
  duties := l.drivers.map Driver.duty
  lastKey := l.lastKey

/-! ## The postings of a move -/

/-- What the first request of an act posts. -/
def actPostings (l : EventLoop Co Fu) : Act Co Fu α → List Posting
  | .ask (.terminate s id) _ => [.attempt (.terminate s id)]
  | .start s name _ _ | .nest s name _ _ => [.enter s name]
  | .spawn s name _ _ => [.enter s name, .note s (l.activeTasks s).nextId .running]
  | _ => []

/-- What the start of an invoked target posts, for the driver `d`. -/
def invokedPostings (l : EventLoop Co Fu) (d : Driver Co Fu) (b : Builtin) (target : Target) :
    Invoked Co Fu → List Posting
  | .pending _ =>
    match b with
    | .fork =>
      [.enter d.task.scheduler target.name,
        .note d.task.scheduler (l.activeTasks d.task.scheduler).nextId .running]
    | _ => []
  | .coroutine _ => [.enter d.task.scheduler target.name]

/-- What one step of the driver `d` posts. -/
def doingPostings (p : Program Co Fu) (l : EventLoop Co Fu) (d : Driver Co Fu) :
    Doing Co Fu → List Posting
  | .resume _ =>
    match d.job with
    | .coroutine _ _ _ => [.note d.task.scheduler d.task.id .running]
    | .plain => []
  | .advance (.ret (.yield (.effect e) _)) =>
    match d.job, (p.scheduler d.task.scheduler).processors.get? e.kind with
    | .coroutine _ _ _, some _ => [.note d.task.scheduler d.task.id (.suspended e.kind)]
    | _, _ => []
  | .advance (.ret (.done _ _)) => abandonments (nestedBelow [d.key] l.drivers).reverse
  | .invoke b target (.ret invoked) _ => l.invokedPostings d b target invoked
  | .advance a => l.actPostings a
  | .work a _ => l.actPostings a
  | .invoke _ _ a _ => l.actPostings a
  | .dispatch a _ => l.actPostings a
  | .finish o =>
    .attempt (.outcome d.duty o) ::
      abandonments (nestedBelow [d.key] (l.drivers.filter (·.key ≠ d.key))).reverse
  | .crash => abandonments (l.drivers.filter (·.home = d.home)).reverse
  | _ => []

/-- What a step of the poll under way posts. -/
def stepPostings (p : Program Co Fu) (l : EventLoop Co Fu) : List Posting :=
  match l.focus with
  | .idle => []
  | .active _ key doing =>
    match l.driver? key with
    | some d => l.doingPostings p d doing
    | none => []

/-- What a move posts. -/
def postings (p : Program Co Fu) (l : EventLoop Co Fu) (m : Move Co Fu) : List Posting :=
  match l.focus, m with
  | .idle, .act a => l.actPostings a
  | .idle, .drop key => abandonments (l.driver? key).toList
  | .active _ _ _, .step => l.stepPostings p
  | _, _ => []

/-- What the moves of a run post. -/
def ledger (p : Program Co Fu) : EventLoop Co Fu → List (Move Co Fu) → List Posting
  | _, [] => []
  | l, m :: moves => l.postings p m ++ ledger p (l.move p m) moves

/-! ## The books of each operation -/

theorem activeTasks_setTasks (l : EventLoop Co Fu) (s : SchedulerId) (tasks : ActiveTasks) :
    (l.setTasks s tasks).activeTasks = Function.update l.activeTasks s tasks := by
  funext s'
  unfold activeTasks setTasks
  rw [Assoc.find?_insert]
  by_cases hs : s = s'
  · subst hs
    rw [if_pos rfl, Function.update_self, Option.getD_some]
  · rw [if_neg hs, Function.update_of_ne (Ne.symm hs)]

theorem books_openGate (l : EventLoop Co Fu) (name : String) (v : Json) :
    (l.openGate name v).books = l.books := by
  unfold openGate
  split <;> rfl

theorem books_setState (l : EventLoop Co Fu) (h : TaskHandle) (state : TaskState) :
    (l.setState h state).books = l.books.post (.note h.scheduler h.id state) :=
  Books.ext (activeTasks_setTasks ..) rfl rfl

theorem books_modifyDriver (l : EventLoop Co Fu) (key : DriverKey)
    {f : Driver Co Fu → Driver Co Fu} (hf : ∀ d, (f d).duty = d.duty) :
    (l.modifyDriver key f).books = l.books := by
  refine Books.ext rfl ?_ rfl
  show (l.drivers.map _).map Driver.duty = l.drivers.map Driver.duty
  rw [List.map_map]
  apply List.map_congr_left
  intro d _
  simp only [Function.comp_apply]
  split
  · exact hf d
  · rfl

theorem books_setActivity (l : EventLoop Co Fu) (key : DriverKey) (activity : Activity Fu) :
    (l.setActivity key activity).books = l.books :=
  l.books_modifyDriver key fun _ => rfl

theorem books_setJob (l : EventLoop Co Fu) (key : DriverKey) (job : Job Co) :
    (l.setJob key job).books = l.books :=
  l.books_modifyDriver key fun _ => rfl

/-! ### Settling -/

/-- A register that is put back only when it was changed is put back in either case. -/
theorem update_settle (l : EventLoop Co Fu) (s : SchedulerId) (id : TaskId) (o : Outcome) :
    Function.update l.activeTasks s ((l.activeTasks s).settle id o).1 =
      if (l.activeTasks s).contains id then
        (l.setTasks s ((l.activeTasks s).settle id o).1).activeTasks
      else l.activeTasks := by
  split
  · rw [activeTasks_setTasks]
  · rename_i h
    rw [ActiveTasks.settle_of_not_contains (Bool.eq_false_iff.mpr h), Function.update_eq_self]

theorem settle_fst (l : EventLoop Co Fu) (d : Driver Co Fu) (id : TaskId) (o : Outcome) :
    (l.settle d fun tasks => tasks.settle id o).1 =
      if (l.activeTasks d.task.scheduler).contains id then
        (l.setTasks d.task.scheduler ((l.activeTasks d.task.scheduler).settle id o).1).wake
          (Wait.isFor d.task.scheduler d.task.id)
      else l.record d.spans .debug .registry "settlement dropped, task no longer registered"
        [⟨"task", d.task.id.text, false⟩] := by
  rw [← ActiveTasks.settle_snd (o := o)]
  unfold settle
  beta_reduce
  rcases (l.activeTasks d.task.scheduler).settle id o with ⟨tasks, active⟩
  cases active <;> rfl

theorem terminate_eq (l : EventLoop Co Fu) (spans : List Span) (s : SchedulerId) (id : TaskId) :
    l.terminate spans s id =
      if (l.activeTasks s).contains id then
        (((l.setTasks s ((l.activeTasks s).settle id (.error (.terminated id))).1).wake
          (Wait.isFor s id)).record spans .info .scheduler "Task terminated"
            [⟨"task", id.text, false⟩], true)
      else (l, false) := by
  rw [← ActiveTasks.settle_snd (o := .error (.terminated id))]
  unfold terminate ActiveTasks.terminate
  rcases (l.activeTasks s).settle id (.error (.terminated id)) with ⟨tasks, active⟩
  cases active <;> rfl

theorem activeTasks_settle (l : EventLoop Co Fu) (d : Driver Co Fu) (id : TaskId) (o : Outcome) :
    (l.settle d fun tasks => tasks.settle id o).1.activeTasks =
      Function.update l.activeTasks d.task.scheduler
        ((l.activeTasks d.task.scheduler).settle id o).1 := by
  rw [settle_fst, update_settle]
  split <;> rfl

theorem settle_drivers (l : EventLoop Co Fu) (d : Driver Co Fu) (id : TaskId) (o : Outcome) :
    (l.settle d fun tasks => tasks.settle id o).1.drivers = l.drivers := by
  rw [settle_fst]
  split <;> rfl

theorem settle_lastKey (l : EventLoop Co Fu) (d : Driver Co Fu) (id : TaskId) (o : Outcome) :
    (l.settle d fun tasks => tasks.settle id o).1.lastKey = l.lastKey := by
  rw [settle_fst]
  split <;> rfl

theorem terminate_drivers (l : EventLoop Co Fu) (spans : List Span) (s : SchedulerId)
    (id : TaskId) : (l.terminate spans s id).1.drivers = l.drivers := by
  rw [terminate_eq]
  split <;> rfl

theorem books_terminate (l : EventLoop Co Fu) (spans : List Span) (s : SchedulerId) (id : TaskId) :
    (l.terminate spans s id).1.books = l.books.post (.attempt (.terminate s id)) := by
  refine Books.ext ?_ ?_ ?_
  · show _ = Function.update l.activeTasks s
      ((l.activeTasks s).settle id (.error (.terminated id))).1
    rw [update_settle, terminate_eq]
    split <;> rfl
  · show (l.terminate spans s id).1.drivers.map Driver.duty = List.filter _ (l.drivers.map _)
    rw [terminate_drivers]
    exact (List.filter_eq_self.mpr fun _ _ => decide_eq_true nofun).symm
  · rw [terminate_eq]
    split <;> rfl

/-- The drivers other than `d` hold the duties other than its own. -/
theorem duties_filter_key (ds : List (Driver Co Fu)) (d : Driver Co Fu) :
    (ds.filter (·.key ≠ d.key)).map Driver.duty =
      (ds.map Driver.duty).filter fun x => some d.duty.key ≠ some x.key := by
  rw [List.filter_map]
  congr 1
  apply List.filter_congr
  intro x _
  exact decide_eq_decide.mpr
    ⟨fun h he => h (Option.some.inj he).symm, fun h he => h (congrArg some he.symm)⟩

/-- Take a driver away when its duty was settled. -/
def discharge (l : EventLoop Co Fu) (d : Driver Co Fu) (o : Outcome) : EventLoop Co Fu :=
  let l := (l.settle d fun tasks => tasks.settle d.guard.id o).1
  { l with drivers := l.drivers.filter (·.key ≠ d.key) }

theorem books_discharge (l : EventLoop Co Fu) (d : Driver Co Fu) {a : Attempt}
    (ha : a.duty? = some d.duty) (hs : a.scheduler = d.task.scheduler) (hi : a.id = d.guard.id) :
    (l.discharge d a.result).books = l.books.post (.attempt a) := by
  refine Books.ext ?_ ?_ (l.settle_lastKey d _ _)
  · refine (l.activeTasks_settle d _ _).trans ?_
    show _ = Function.update l.activeTasks a.scheduler
      ((l.activeTasks a.scheduler).settle a.id a.result).1
    rw [hs, hi]
  · show ((l.settle d _).1.drivers.filter _).map Driver.duty = List.filter _ (l.drivers.map _)
    rw [settle_drivers, duties_filter_key, ha]
    rfl

theorem drivers_discharge (l : EventLoop Co Fu) (d : Driver Co Fu) (o : Outcome) :
    (l.discharge d o).drivers = l.drivers.filter (·.key ≠ d.key) := by
  show List.filter _ (l.settle d _).1.drivers = _
  rw [settle_drivers]

theorem abandon_eq (l : EventLoop Co Fu) (d : Driver Co Fu) :
    l.abandon d = l.discharge d (.error (.abandoned d.guard.id)) ∨
      l.abandon d = (l.discharge d (.error (.abandoned d.guard.id))).record d.spans .warn .registry
        "Task abandoned by its driver" [⟨"task", d.task.id.text, false⟩] := by
  unfold abandon discharge SettleGuard.drop
  rcases l.settle d fun tasks => tasks.settle d.guard.id (.error (.abandoned d.guard.id))
    with ⟨l', active⟩
  cases active with
  | false => exact .inl rfl
  | true => exact .inr rfl

theorem books_abandon (l : EventLoop Co Fu) (d : Driver Co Fu) :
    (l.abandon d).books = l.books.post (.attempt (.abandon d.duty)) := by
  rw [← l.books_discharge d (a := .abandon d.duty) rfl rfl rfl]
  rcases l.abandon_eq d with h | h
  · rw [h]
    rfl
  · rw [h]
    rfl

theorem drivers_abandon (l : EventLoop Co Fu) (d : Driver Co Fu) :
    (l.abandon d).drivers = l.drivers.filter (·.key ≠ d.key) := by
  rcases l.abandon_eq d with h | h
  · rw [h, drivers_discharge]
  · rw [h]
    exact l.drivers_discharge d _

theorem books_foldl_abandon (ds : List (Driver Co Fu)) (l : EventLoop Co Fu) :
    (ds.foldl abandon l).books = l.books.postAll (abandonments ds) := by
  induction ds generalizing l with
  | nil => rfl
  | cons d ds ih =>
    rw [List.foldl_cons, ih, books_abandon]
    rfl

theorem mem_foldl_abandon {ds : List (Driver Co Fu)} {l : EventLoop Co Fu} {d : Driver Co Fu} :
    d ∈ (ds.foldl abandon l).drivers ↔ d ∈ l.drivers ∧ ∀ x ∈ ds, d.key ≠ x.key := by
  induction ds generalizing l with
  | nil => simp only [List.foldl_nil, List.not_mem_nil, false_implies, implies_true, and_true]
  | cons x ds ih =>
    refine (ih (l := l.abandon x)).trans ?_
    rw [drivers_abandon, List.mem_filter, List.forall_mem_cons, decide_eq_true_eq, and_assoc]

theorem books_dropNested (l : EventLoop Co Fu) (key : DriverKey) :
    (l.dropNested key).books =
      l.books.postAll (abandonments (nestedBelow [key] l.drivers).reverse) :=
  books_foldl_abandon ..

theorem books_crash (l : EventLoop Co Fu) (home : DriverKey) :
    (l.crash home).books =
      l.books.postAll (abandonments (l.drivers.filter (·.home = home)).reverse) :=
  books_foldl_abandon ..

theorem recordOutcome_eq (l : EventLoop Co Fu) (d : Driver Co Fu) (o : Outcome) :
    ∃ e, l.recordOutcome d o = l.note e := by
  cases o <;> exact ⟨_, rfl⟩

theorem conclude_eq (l : EventLoop Co Fu) (d : Driver Co Fu) (o : Outcome) :
    ∃ e, l.conclude d o = ((l.note e).discharge d o).dropNested d.key := by
  obtain ⟨e, he⟩ := l.recordOutcome_eq d o
  refine ⟨e, ?_⟩
  unfold conclude
  rw [he]
  rfl

/-- A driver that has concluded is gone. -/
theorem key_ne_of_mem_conclude {l : EventLoop Co Fu} {d x : Driver Co Fu} {o : Outcome}
    (hx : x ∈ (l.conclude d o).drivers) : x.key ≠ d.key := by
  obtain ⟨e, he⟩ := l.conclude_eq d o
  rw [he] at hx
  have hmem : x ∈ ((l.note e).discharge d o).drivers := (mem_foldl_abandon.mp hx).1
  rw [drivers_discharge] at hmem
  exact of_decide_eq_true (List.mem_filter.mp hmem).2

theorem books_conclude (l : EventLoop Co Fu) (d : Driver Co Fu) (o : Outcome) :
    (l.conclude d o).books = l.books.postAll (.attempt (.outcome d.duty o) ::
      abandonments (nestedBelow [d.key] (l.drivers.filter (·.key ≠ d.key))).reverse) := by
  obtain ⟨e, he⟩ := l.conclude_eq d o
  have hdrivers : ((l.note e).discharge d o).drivers = l.drivers.filter (·.key ≠ d.key) :=
    (l.note e).drivers_discharge d o
  rw [he, books_dropNested, hdrivers, Books.postAll_cons]
  congr 1
  exact (l.note e).books_discharge d (a := .outcome d.duty o) rfl rfl rfl

/-! ### Starting work -/

theorem books_enter (l : EventLoop Co Fu) (spec : SchedulerSpec) (current : Option DriverKey)
    (owner : Owner) (s : SchedulerId) (name : String) (job : Job Co) (activity : Activity Fu) :
    (l.enter spec current owner s name job activity).1.books = l.books.post (.enter s name) :=
  Books.ext (activeTasks_setTasks ..) List.map_append rfl

theorem books_start (l : EventLoop Co Fu) (spec : SchedulerSpec) (current : Option DriverKey)
    (s : SchedulerId) (name : String) (co : Co) :
    (l.start spec current s name co).1.books = l.books.post (.enter s name) :=
  l.books_enter spec current .loop s name _ _

theorem books_spawn (l : EventLoop Co Fu) (spec : SchedulerSpec) (current : Option DriverKey)
    (s : SchedulerId) (name : String) (fu : Fu) :
    (l.spawn spec current s name fu).1.books =
      (l.books.post (.enter s name)).post (.note s (l.activeTasks s).nextId .running) := by
  rw [← l.books_enter spec current .loop s name .plain (.pending (.unbegun fu))]
  exact books_setState ..

theorem books_nest (l : EventLoop Co Fu) (spec : SchedulerSpec) (current : Option DriverKey)
    (s : SchedulerId) (name : String) (co : Co) :
    (l.nest spec current s name co).1.books = l.books.post (.enter s name) :=
  l.books_enter spec current _ s name _ _

/-- A request posts what `actPostings` says. -/
theorem books_perform (p : Program Co Fu) (l : EventLoop Co Fu) (current : Option DriverKey)
    (a : Act Co Fu α) : (l.perform p current a).1.books = l.books.postAll (l.actPostings a) := by
  cases a with
  | ask q k =>
    cases q with
    | openGate name v => exact l.books_openGate name v
    | terminate s id => exact l.books_terminate _ s id
    | _ => rfl
  | start s name co k => exact l.books_start _ current s name co
  | spawn s name fu k => exact l.books_spawn _ current s name fu
  | nest s name co k => exact l.books_nest _ current s name co
  | _ => rfl

/-! ### Steps -/

theorem books_wait (l : EventLoop Co Fu) (pollers : List (Poller Co Fu)) (d : Driver Co Fu)
    (w : Wait) : (l.wait pollers d w).books = l.books := by
  unfold wait
  split
  · split <;> rfl
  · rfl

theorem books_stepYield (p : Program Co Fu) (l : EventLoop Co Fu) (pollers : List (Poller Co Fu))
    {d : Driver Co Fu} {co₀ : Co} {passes : Nat} {kind : EffectKind}
    (hd : d.job = .coroutine co₀ passes kind) (co : Co) (y : Yielded) :
    (l.stepYield p pollers d passes kind co y).books =
      l.books.postAll (l.doingPostings p d (.advance (.ret (.yield y co)))) := by
  cases y with
  | pass o =>
    have hjob := l.books_setJob d.key (.coroutine co (passes + 1) kind)
    unfold stepYield
    dsimp only
    split
    · split
      · exact hjob
      · exact hjob
    · exact hjob
  | effect e =>
    have hjob := l.books_setJob d.key (.coroutine co 0 e.kind)
    unfold stepYield doingPostings
    rw [hd]
    dsimp only
    cases (p.scheduler d.task.scheduler).processors.get? e.kind with
    | none => exact hjob
    | some processor =>
      refine (books_setState ..).trans ?_
      exact congrArg (Books.post · (.note d.task.scheduler d.task.id (.suspended e.kind))) hjob

theorem books_stepInvoked (p : Program Co Fu) (l : EventLoop Co Fu)
    (pollers : List (Poller Co Fu)) (d : Driver Co Fu) (b : Builtin) (target : Target)
    (spot : Spot Fu) (invoked : Invoked Co Fu) :
    (l.stepInvoked p pollers d b target spot invoked).books =
      l.books.postAll (l.invokedPostings d b target invoked) := by
  cases invoked with
  | pending fu =>
    cases b with
    | fork => exact l.books_spawn ..
    | _ => rfl
  | coroutine co =>
    cases b with
    | fork => exact l.books_start ..
    | _ => exact l.books_nest ..

theorem books_stepAnswer (p : Program Co Fu) (l : EventLoop Co Fu) (pollers : List (Poller Co Fu))
    (d : Driver Co Fu) (r : Resume) (spot : Spot Fu) :
    (l.stepAnswer p pollers d r spot).books = l.books := by
  unfold stepAnswer
  split
  case h_7 => split <;> rfl
  all_goals rfl

/-- **A step of a driver posts what `doingPostings` says.** -/
theorem books_stepDriver (p : Program Co Fu) (l : EventLoop Co Fu) (pollers : List (Poller Co Fu))
    (d : Driver Co Fu) (doing : Doing Co Fu) :
    (l.stepDriver p pollers d doing).books = l.books.postAll (l.doingPostings p d doing) := by
  cases doing with
  | poll =>
    unfold stepDriver
    dsimp only
    split
    · rfl
    · exact l.books_setActivity d.key .busy
    · rfl
  | resume input =>
    unfold stepDriver doingPostings
    cases d.job with
    | plain => rfl
    | coroutine co passes kind =>
      show (((l.setState d.task .running).setActivity d.key .busy).setJob d.key _).books = _
      rw [books_setJob, books_setActivity]
      exact books_setState ..
  | advance a =>
    cases a with
    | ret progress =>
      cases progress with
      | more co => rfl
      | poll key k => rfl
      | yield y co =>
        cases hd : d.job with
        | coroutine co₀ passes kind =>
          unfold stepDriver
          rw [hd]
          exact l.books_stepYield p pollers hd co y
        | plain =>
          unfold stepDriver doingPostings
          rw [hd]
          cases y <;> rfl
      | done outcome co => exact l.books_dropNested d.key
    | panic => rfl
    | _ => exact (congrArg books (stepDriver_advance p l pollers d rfl)).trans (books_perform ..)
  | visit branch forks =>
    cases branch with
    | waiting w frames =>
      rcases l.stepDriver_visit_waiting p pollers d w frames forks with
        ⟨key, _, h⟩ | ⟨r, _, h⟩ | ⟨_, h⟩
      all_goals
        rw [h]
        rfl
    | _ => rfl
  | work a spot =>
    cases a with
    | ret await => cases await <;> rfl
    | panic => rfl
    | _ => exact (congrArg books (stepDriver_work p l pollers d rfl spot)).trans (books_perform ..)
  | process ref e spot => cases ref <;> rfl
  | invoke b target a spot =>
    cases a with
    | ret invoked => exact l.books_stepInvoked p pollers d b target spot invoked
    | panic => rfl
    | _ =>
      exact (congrArg books (stepDriver_invoke p l pollers d b target rfl spot)).trans
        (books_perform ..)
  | dispatch a spot =>
    cases a with
    | ret v => rfl
    | panic => rfl
    | _ =>
      exact (congrArg books (stepDriver_dispatch p l pollers d rfl spot)).trans (books_perform ..)
  | await w spot =>
    rcases l.stepDriver_await p pollers d w spot with ⟨key, _, h⟩ | ⟨r, _, h⟩ | ⟨_, h⟩
    · rw [h]
      rfl
    · rw [h]
      rfl
    · rw [h]
      exact l.books_wait pollers d w
  | answer r spot => exact l.books_stepAnswer p pollers d r spot
  | pause branch forks =>
    cases forks with
    | nil => exact l.books_setActivity d.key (.pending branch)
    | cons fork forks => cases fork <;> rfl
  | finish outcome => exact l.books_conclude d outcome
  | leave outcome => rfl
  | crash => exact l.books_crash d.home

theorem books_leave (p : Program Co Fu) (l : EventLoop Co Fu) (key : DriverKey)
    (outcome : Option Outcome) (pollers : List (Poller Co Fu)) :
    (l.leave p key outcome pollers).books = l.books := by
  unfold leave
  split
  case h_4 => split <;> rfl
  all_goals rfl

theorem stepPostings_of_driver (p : Program Co Fu) {l : EventLoop Co Fu}
    {pollers : List (Poller Co Fu)} {key : DriverKey} {doing : Doing Co Fu}
    (hfocus : l.focus = .active pollers key doing) {d : Driver Co Fu} (hd : l.driver? key = some d) :
    l.stepPostings p = l.doingPostings p d doing := by
  simp only [stepPostings, hfocus, hd]

theorem stepPostings_of_gone (p : Program Co Fu) {l : EventLoop Co Fu}
    {pollers : List (Poller Co Fu)} {key : DriverKey} {doing : Doing Co Fu}
    (hfocus : l.focus = .active pollers key doing) (hd : l.driver? key = none) :
    l.stepPostings p = [] := by
  simp only [stepPostings, hfocus, hd]

theorem postings_of_driver (p : Program Co Fu) {l : EventLoop Co Fu}
    {pollers : List (Poller Co Fu)} {key : DriverKey} {doing : Doing Co Fu}
    (hfocus : l.focus = .active pollers key doing) {d : Driver Co Fu} (hd : l.driver? key = some d) :
    l.postings p .step = l.doingPostings p d doing := by
  simp only [postings, hfocus, stepPostings_of_driver p hfocus hd]

theorem postings_of_gone (p : Program Co Fu) {l : EventLoop Co Fu}
    {pollers : List (Poller Co Fu)} {key : DriverKey} {doing : Doing Co Fu}
    (hfocus : l.focus = .active pollers key doing) (hd : l.driver? key = none) :
    l.postings p .step = [] := by
  simp only [postings, hfocus, stepPostings_of_gone p hfocus hd]

theorem books_step (p : Program Co Fu) {l l' : EventLoop Co Fu} (h : l.step? p = some l') :
    l'.books = l.books.postAll (l.stepPostings p) := by
  unfold step? at h
  split at h
  · cases h
  · rename_i pollers key outcome hfocus
    cases h
    rw [books_leave]
    cases hd : l.driver? key with
    | some d =>
      rw [stepPostings_of_driver p hfocus hd]
      rfl
    | none =>
      rw [stepPostings_of_gone p hfocus hd]
      rfl
  · rename_i pollers key doing hleave hfocus
    cases hd : l.driver? key with
    | some d =>
      rw [hd] at h
      cases h
      rw [stepPostings_of_driver p hfocus hd]
      exact l.books_stepDriver p pollers d doing
    | none =>
      rw [hd] at h
      cases h
      rw [stepPostings_of_gone p hfocus hd]
      exact l.books_leave p key none pollers

/-- **A move posts what `postings` says**, and nothing else. -/
theorem books_move (p : Program Co Fu) (l : EventLoop Co Fu) (m : Move Co Fu) :
    (l.move p m).books = l.books.postAll (l.postings p m) := by
  cases hfocus : l.focus with
  | idle =>
    rw [move_of_idle p hfocus]
    simp only [postings, hfocus]
    cases m with
    | step => rfl
    | act a => exact l.books_perform p none a
    | poll home =>
      show (if home ∈ l.queue then focusOn _ [] home .poll else l).books = l.books
      split <;> rfl
    | call key byHand =>
      show (match l.driver? key with
        | some d => if d.owner = Owner.caller then focusOn _ _ key .poll else l
        | none => l).books = l.books
      split
      · split <;> rfl
      · rfl
    | flush => rfl
    | jump time =>
      show (if l.now ≤ time ∧ _ then l.jump time else l).books = l.books
      split <;> rfl
    | drop key =>
      show (match l.driver? key with
        | some d => l.abandon d
        | none => l).books = l.books.postAll (abandonments (l.driver? key).toList)
      cases l.driver? key with
      | some d => exact l.books_abandon d
      | none => rfl
    | forget home =>
      show (if (l.driver? home).isNone then l.forget home else l).books = l.books
      split <;> rfl
  | active pollers key doing =>
    cases m with
    | step =>
      obtain ⟨l', hl'⟩ := step_of_active p hfocus
      rw [move_step, hl']
      simp only [postings, hfocus]
      exact l.books_step p hl'
    | _ =>
      rw [move_of_active p hfocus (by exact nofun)]
      simp only [postings, hfocus, Books.postAll_nil]

/-- What a run makes of the books is what it posts. -/
theorem books_after (p : Program Co Fu) (l : EventLoop Co Fu) (moves : List (Move Co Fu)) :
    (l.after p moves).books = l.books.postAll (ledger p l moves) := by
  induction moves generalizing l with
  | nil => rfl
  | cons m moves ih => rw [after_cons, ih, books_move, ledger, Books.postAll_append]

/-! ## The books stay balanced -/

theorem nestedBelow_sublist (keys : List DriverKey) (ds : List (Driver Co Fu)) :
    (nestedBelow keys ds).Sublist ds := by
  induction ds generalizing keys with
  | nil => exact .slnil
  | cons d ds ih =>
    unfold nestedBelow
    split
    · split
      · exact (ih _).cons_cons d
      · exact (ih _).cons d
    · exact (ih _).cons d

/-- Drivers of the loop may attempt to decide their own tasks, in any order. -/
theorem admitsAll_attempts {l : EventLoop Co Fu} (h : l.books.Balanced) (as : List Attempt)
    (has : ∀ a ∈ as, ∃ d ∈ l.drivers, a.duty? = some d.duty) :
    l.books.AdmitsAll (as.map .attempt) := by
  refine Books.admitsAll_of_attempts fun a ha => ?_
  obtain ⟨d, hd, hduty⟩ := has a ha
  exact h.admits_of_mem hduty (List.mem_map_of_mem hd)

theorem admitsAll_abandonments {l : EventLoop Co Fu} (h : l.books.Balanced)
    {ds : List (Driver Co Fu)} (hds : ds ⊆ l.drivers) : l.books.AdmitsAll (abandonments ds) := by
  refine admitsAll_attempts h _ fun a ha => ?_
  obtain ⟨d, hd, rfl⟩ := List.mem_map.mp ha
  exact ⟨d, hds hd, rfl⟩

theorem admitsAll_actPostings (l : EventLoop Co Fu) (b : Books) (a : Act Co Fu α) :
    b.AdmitsAll (l.actPostings a) := by
  cases a with
  | ask q k =>
    cases q with
    | terminate s id => exact ⟨fun _ hduty => (nomatch hduty), trivial⟩
    | _ => trivial
  | start s name co k => exact ⟨trivial, trivial⟩
  | spawn s name fu k => exact ⟨trivial, trivial, trivial⟩
  | nest s name co k => exact ⟨trivial, trivial⟩
  | _ => trivial

theorem admitsAll_invokedPostings (l : EventLoop Co Fu) (books : Books) (d : Driver Co Fu)
    (b : Builtin) (target : Target) (invoked : Invoked Co Fu) :
    books.AdmitsAll (l.invokedPostings d b target invoked) := by
  cases invoked with
  | pending fu =>
    cases b with
    | fork => exact ⟨trivial, trivial, trivial⟩
    | _ => trivial
  | coroutine co => exact ⟨trivial, trivial⟩

/-- The postings of a driver's step use up no duty but its own and those of drivers it drops. -/
theorem admitsAll_doingPostings (p : Program Co Fu) {l : EventLoop Co Fu} (h : l.books.Balanced)
    {d : Driver Co Fu} (hd : d ∈ l.drivers) (doing : Doing Co Fu) :
    l.books.AdmitsAll (l.doingPostings p d doing) := by
  have hnested : ∀ ds : List (Driver Co Fu), ds ⊆ l.drivers →
      (nestedBelow [d.key] ds).reverse ⊆ l.drivers := fun ds hds x hx =>
    hds ((nestedBelow_sublist _ _).subset (List.mem_reverse.mp hx))
  unfold doingPostings
  split
  · split
    · exact ⟨trivial, trivial⟩
    · trivial
  · split
    · exact ⟨trivial, trivial⟩
    · trivial
  · exact admitsAll_abandonments h (hnested _ (List.Subset.refl _))
  · exact admitsAll_invokedPostings ..
  · exact admitsAll_actPostings ..
  · exact admitsAll_actPostings ..
  · exact admitsAll_actPostings ..
  · exact admitsAll_actPostings ..
  · rename_i o
    refine admitsAll_attempts h (.outcome d.duty o :: _) fun a ha => ?_
    rcases List.mem_cons.mp ha with rfl | ha
    · exact ⟨d, hd, rfl⟩
    · obtain ⟨d', hd', rfl⟩ := List.mem_map.mp ha
      exact ⟨d', hnested _ List.filter_sublist.subset hd', rfl⟩
  · exact admitsAll_abandonments h fun x hx => (List.mem_filter.mp (List.mem_reverse.mp hx)).1
  · trivial

theorem admitsAll_postings (p : Program Co Fu) {l : EventLoop Co Fu} (h : l.books.Balanced)
    (m : Move Co Fu) : l.books.AdmitsAll (l.postings p m) := by
  unfold postings
  split
  · exact admitsAll_actPostings ..
  · rename_i key _
    refine admitsAll_abandonments h fun x hx => ?_
    exact mem_of_driver? (Option.mem_toList.mp hx)
  · unfold stepPostings
    split
    · trivial
    · split
      · rename_i hd
        exact admitsAll_doingPostings p h (mem_of_driver? hd) _
      · trivial
  · trivial

theorem balanced_move (p : Program Co Fu) {l : EventLoop Co Fu} (h : l.books.Balanced)
    (m : Move Co Fu) : (l.move p m).books.Balanced := by
  rw [books_move]
  exact h.postAll (admitsAll_postings p h m)

/-- **The books stay balanced**, whatever moves are made. -/
theorem balanced_after (p : Program Co Fu) {l : EventLoop Co Fu} (h : l.books.Balanced)
    (moves : List (Move Co Fu)) : (l.after p moves).books.Balanced := by
  induction moves generalizing l with
  | nil => exact h
  | cons m moves ih => exact ih (balanced_move p h m)

/-- A loop that has not run has balanced books. -/
theorem balanced_empty : (books ({} : EventLoop Co Fu)).Balanced := .empty

end EventLoop

end EffectLoop
