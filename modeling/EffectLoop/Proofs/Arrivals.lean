import EffectLoop.Proofs.History
import EffectLoop.Proofs.Homes

/-!
# Who is entered

A move enters at most one task, and it is the request carried out that says which. `arrival?` reads that
off the state, as `postings` does with what is posted: under which scheduler the task is entered, what
its driver is to work on, and whether the driver is nested in the one that enters it.

`arrival_move` is the law: the only driver that a move adds is that of the arrival.
-/

namespace EffectLoop

variable {Co Fu α : Type}

/-- A task to be entered. -/
structure Arrival (Co Fu : Type) where
  scheduler : SchedulerId
  name : String
  /-- What the driver is to work on. -/
  work : Invoked Co Fu
  /-- Whether it is driven from where it is entered, and not in a runtime task of its own. -/
  nested : Bool := false

namespace Arrival

/-- The job of a driver that is to work on something. -/
def job (x : Arrival Co Fu) : Job Co :=
  match x.work with
  | .coroutine co => .coroutine co 0 .put
  | .pending _ => .plain

def activity (x : Arrival Co Fu) : Activity Fu :=
  match x.work with
  | .coroutine _ => .fresh
  | .pending fu => .pending (.unbegun fu)

def owner (x : Arrival Co Fu) (current : Option DriverKey) : Owner :=
  if x.nested then current.elim .caller .driver else .loop

/-- The driver that is entered on behalf of a driver, or of the program around the loop. -/
def driver (x : Arrival Co Fu) (p : Program Co Fu) (l : EventLoop Co Fu)
    (current : Option DriverKey) : Driver Co Fu :=
  (l.enter (p.scheduler x.scheduler) current (x.owner current) x.scheduler x.name x.job
    x.activity).2

/-- A plain computation runs from the moment that it is entered. -/
def postings (x : Arrival Co Fu) (l : EventLoop Co Fu) : List Posting :=
  .enter x.scheduler x.name ::
    match x.work with
    | .coroutine _ => []
    | .pending _ => [.note x.scheduler (l.activeTasks x.scheduler).nextId .running]

section

variable (x : Arrival Co Fu) (p : Program Co Fu) (l : EventLoop Co Fu) (current : Option DriverKey)

@[simp] theorem key_driver : (x.driver p l current).key = ⟨l.lastKey + 1⟩ := rfl

@[simp] theorem job_driver : (x.driver p l current).job = x.job := rfl

@[simp] theorem activity_driver : (x.driver p l current).activity = x.activity := rfl

@[simp] theorem owner_driver : (x.driver p l current).owner = x.owner current := rfl

@[simp] theorem task_driver : (x.driver p l current).task =
    ⟨x.scheduler, (l.activeTasks x.scheduler).nextId, x.name⟩ := rfl

end

end Arrival

/-- The task that the first request of an act enters. -/
def Act.arrival? : Act Co Fu α → Option (Arrival Co Fu)
  | .start s name co _ => some { scheduler := s, name, work := .coroutine co }
  | .spawn s name fu _ => some { scheduler := s, name, work := .pending fu }
  | .nest s name co _ => some { scheduler := s, name, work := .coroutine co, nested := true }
  | _ => none

/-- The task that is entered for a target that a driver has invoked: a fork enters it whatever it is,
and a call only a coroutine, which it drives itself. -/
def Invoked.arrival? (s : SchedulerId) (b : Builtin) (target : Target) :
    Invoked Co Fu → Option (Arrival Co Fu)
  | .pending fu =>
    match b with
    | .fork => some { scheduler := s, name := target.name, work := .pending fu }
    | _ => none
  | .coroutine co =>
    match b with
    | .fork => some { scheduler := s, name := target.name, work := .coroutine co }
    | _ => some { scheduler := s, name := target.name, work := .coroutine co, nested := true }

/-- The task that a step of the driver `d` enters. -/
def Doing.arrival? (d : Driver Co Fu) : Doing Co Fu → Option (Arrival Co Fu)
  | .advance a => a.arrival?
  | .work a _ => a.arrival?
  | .invoke b target (.ret invoked) _ => invoked.arrival? d.task.scheduler b target
  | .invoke _ _ a _ => a.arrival?
  | .dispatch a _ => a.arrival?
  | _ => none

theorem Doing.arrival?_invoke (d : Driver Co Fu) (b : Builtin) (target : Target)
    {a : Act Co Fu (Invoked Co Fu)} (ha : a.asks = true) (spot : Spot Fu) :
    (Doing.invoke b target a spot).arrival? d = a.arrival? := by
  cases a <;> first | rfl | cases ha

namespace EventLoop

/-- The task that a move enters, and on behalf of which driver. -/
def arrival? (l : EventLoop Co Fu) (m : Move Co Fu) :
    Option (Option DriverKey × Arrival Co Fu) :=
  match l.focus, m with
  | .idle, .act a => a.arrival?.map fun x => (none, x)
  | .active _ key doing, .step => (l.driver? key).bind fun d =>
      (doing.arrival? d).map fun x => (some key, x)
  | _, _ => none

section

variable (p : Program Co Fu) {l : EventLoop Co Fu} {pollers : List (Poller Co Fu)}
  {d d' : Driver Co Fu} {x : Arrival Co Fu}

theorem arrival?_of_idle (h : l.focus = .idle) (a : Act Co Fu Unit) :
    l.arrival? (.act a) = a.arrival?.map fun x => (none, x) := by
  simp only [arrival?, h]

theorem arrival?_of_driver {doing : Doing Co Fu} (hfocus : l.focus = .active pollers d.key doing)
    (hd : l.driver? d.key = some d) :
    l.arrival? .step = (doing.arrival? d).map fun x => (some d.key, x) := by
  simp only [arrival?, hfocus, hd, Option.bind_some]

/-! ## What is added for an arrival -/

theorem actPostings_of_arrival {a : Act Co Fu α} (h : a.arrival? = some x) :
    l.actPostings a = x.postings l := by
  cases a with
  | start s name co k => cases h; rfl
  | spawn s name fu k => cases h; rfl
  | nest s name co k => cases h; rfl
  | _ => cases h

/-- A request that enters a task adds its driver. -/
theorem drivers_perform_of_arrival {current : Option DriverKey} {a : Act Co Fu α}
    (h : a.arrival? = some x) :
    (l.perform p current a).1.drivers = l.drivers ++ [x.driver p l current] := by
  cases a with
  | start s name co k => cases h; rfl
  | spawn s name fu k => cases h; rfl
  | nest s name co k => cases h; rfl
  | _ => cases h

theorem drivers_stepInvoked_of_arrival {b : Builtin} {target : Target} (spot : Spot Fu)
    {invoked : Invoked Co Fu} (h : invoked.arrival? d.task.scheduler b target = some x) :
    (l.stepInvoked p pollers d b target spot invoked).drivers =
        l.drivers ++ [x.driver p l (some d.key)] ∧
      l.invokedPostings d b target invoked = x.postings l := by
  cases invoked with
  | pending fu =>
    cases b with
    | fork => cases h; exact ⟨rfl, rfl⟩
    | _ => cases h
  | coroutine co =>
    cases b with
    | fork => cases h; exact ⟨rfl, rfl⟩
    | _ => cases h; exact ⟨rfl, rfl⟩

theorem asks_of_arrival {a : Act Co Fu α} (h : a.arrival? = some x) : a.asks = true := by
  cases a <;> first | rfl | cases h

theorem drivers_stepDriver_of_arrival {doing : Doing Co Fu} (h : doing.arrival? d = some x) :
    (l.stepDriver p pollers d doing).drivers = l.drivers ++ [x.driver p l (some d.key)] ∧
      l.doingPostings p d doing = x.postings l := by
  cases doing with
  | advance a =>
    rw [stepDriver_advance p l pollers d (asks_of_arrival h)]
    refine ⟨drivers_perform_of_arrival p h, ?_⟩
    rw [← actPostings_of_arrival (a := a) h]
    cases a <;> first | rfl | cases h
  | work a spot =>
    rw [stepDriver_work p l pollers d (asks_of_arrival h)]
    exact ⟨drivers_perform_of_arrival p h, actPostings_of_arrival h⟩
  | invoke b target a spot =>
    cases a with
    | ret invoked => exact drivers_stepInvoked_of_arrival p spot h
    | panic => cases h
    | _ =>
      rw [Doing.arrival?_invoke d b target rfl] at h
      rw [stepDriver_invoke p l pollers d b target rfl]
      exact ⟨drivers_perform_of_arrival p h, actPostings_of_arrival h⟩
  | dispatch a spot =>
    rw [stepDriver_dispatch p l pollers d (asks_of_arrival h)]
    exact ⟨drivers_perform_of_arrival p h, actPostings_of_arrival h⟩
  | _ => cases h

/-- What a move enters comes last among the drivers, and nothing else is posted. -/
theorem drivers_move_of_arrival {m : Move Co Fu} {current : Option DriverKey}
    (h : l.arrival? m = some (current, x)) :
    (l.move p m).drivers = l.drivers ++ [x.driver p l current] ∧
      l.postings p m = x.postings l := by
  unfold arrival? at h
  split at h
  · rename_i a hfocus
    obtain ⟨y, hy, he⟩ := Option.map_eq_some_iff.mp h
    cases he
    rw [move_of_idle p hfocus]
    refine ⟨drivers_perform_of_arrival p hy, ?_⟩
    simp only [postings, hfocus]
    exact actPostings_of_arrival hy
  · rename_i pollers key doing hfocus
    obtain ⟨d, hd, h⟩ := Option.bind_eq_some_iff.mp h
    obtain ⟨y, hy, he⟩ := Option.map_eq_some_iff.mp h
    cases he
    cases key_of_driver? hd
    have hleave : ∀ outcome, doing ≠ .leave outcome := by
      rintro outcome rfl
      cases hy
    rw [move_step_of_driver p hfocus hd hleave, postings_of_driver p hfocus hd]
    exact drivers_stepDriver_of_arrival p hy
  · cases h

/-! ## Nobody else is added -/

theorem enters_of_arrival?_eq_none {a : Act Co Fu α} (h : a.arrival? = none) : a.enters = false := by
  cases a <;> first | rfl | cases h

theorem lastKey_stepInvoked_of_none {b : Builtin} {target : Target} (spot : Spot Fu)
    {invoked : Invoked Co Fu} (h : invoked.arrival? d.task.scheduler b target = none) :
    (l.stepInvoked p pollers d b target spot invoked).lastKey = l.lastKey := by
  cases invoked with
  | pending fu =>
    cases b with
    | fork => cases h
    | _ => rfl
  | coroutine co => cases b <;> cases h

theorem lastKey_stepDriver_of_none {doing : Doing Co Fu} (h : doing.arrival? d = none) :
    (l.stepDriver p pollers d doing).lastKey = l.lastKey := by
  cases doing with
  | invoke b target a spot =>
    cases a with
    | ret invoked => exact lastKey_stepInvoked_of_none p spot h
    | _ => first | exact lastKey_stepDriver p rfl | cases h
  | advance a => exact lastKey_stepDriver p (enters_of_arrival?_eq_none (a := a) h)
  | work a spot => exact lastKey_stepDriver p (enters_of_arrival?_eq_none (a := a) h)
  | dispatch a spot => exact lastKey_stepDriver p (enters_of_arrival?_eq_none (a := a) h)
  | _ => exact lastKey_stepDriver p rfl

/-- A move without an arrival gives out no key. -/
theorem lastKey_move_of_none {m : Move Co Fu} (h : l.arrival? m = none) :
    (l.move p m).lastKey = l.lastKey := by
  have hturn := turn_move p m (l := l)
  generalize l.move p m = l' at hturn ⊢
  cases hturn with
  | outside hidle m =>
    by_cases hact : ∃ a, m = .act a
    · obtain ⟨a, rfl⟩ := hact
      rw [arrival?_of_idle hidle, Option.map_eq_none_iff] at h
      have hlast := congrArg Books.lastKey (l.books_perform p none a)
      rw [Books.lastKey_postAll _ fun x hx =>
        ne_enter_of_mem_actPostings (enters_of_arrival?_eq_none h) hx] at hlast
      exact hlast
    · exact lastKey_outside p hidle fun a ha => hact ⟨a, ha⟩
  | refused _ _ => rfl
  | leave _ _ outcome => exact (leave_drivers p _ outcome).2
  | driver hfocus hd hleave =>
    rw [arrival?_of_driver hfocus hd, Option.map_eq_none_iff] at h
    exact lastKey_stepDriver_of_none p h

/-- **The only driver that a move adds is that of the arrival.** -/
theorem arrival_move (hl : Proper l) (m : Move Co Fu) (hd : d ∈ (l.move p m).drivers)
    (hnew : l.lastKey < d.key.val) :
    ∃ current x, l.arrival? m = some (current, x) ∧ d = x.driver p l current := by
  cases h : l.arrival? m with
  | none =>
    exact absurd hnew
      (not_new_of_lastKey_eq (proper_move p hl m) (lastKey_move_of_none p h) hd)
  | some v =>
    obtain ⟨current, x⟩ := v
    refine ⟨current, x, rfl, ?_⟩
    rw [(drivers_move_of_arrival p h).1, List.mem_append, List.mem_singleton] at hd
    refine hd.resolve_left fun hold => ?_
    have := (hl d hold).1
    omega

/-! ## Keys along a run -/

theorem lastKey_le_after (hl : Proper l) (moves : List (Move Co Fu)) :
    l.lastKey ≤ (l.after p moves).lastKey := by
  induction moves generalizing l with
  | nil => exact Nat.le_refl _
  | cons m moves ih =>
    obtain ⟨_, _, htouches⟩ := touches_move p hl m
    exact Nat.le_trans htouches.lastKey_le (ih (proper_move p hl m))

/-- A driver whose key was given out has been there since. -/
theorem exists_earlier (hl : Proper l) (moves : List (Move Co Fu))
    (hd : d ∈ (l.after p moves).drivers) (hold : d.key.val ≤ l.lastKey) :
    ∃ d₀ ∈ l.drivers, d₀.key = d.key ∧ d₀.owner = d.owner ∧ d₀.home = d.home ∧
      d₀.task = d.task := by
  induction moves generalizing l with
  | nil => exact ⟨d, hd, rfl, rfl, rfl, rfl⟩
  | cons m moves ih =>
    obtain ⟨_, _, htouches⟩ := touches_move p hl m
    obtain ⟨d₁, hd₁, hk, how, hhome, htask⟩ :=
      ih (proper_move p hl m) hd (Nat.le_trans hold htouches.lastKey_le)
    rcases tenant_move p hl m hd₁ with ⟨d₀, hd₀, hk₀, how₀, hhome₀, htask₀⟩ | ⟨hnew, _⟩
    · exact ⟨d₀, hd₀, hk₀.trans hk, how₀.trans how, hhome₀.trans hhome, htask₀.trans htask⟩
    · rw [hk] at hnew
      omega

end

end EventLoop

end EffectLoop
