import EffectLoop.Proofs.Waking
import EffectLoop.Proofs.Registry

/-!
# A panic ends a home and nothing else

When user code panics, every driver that lives in the home of the polled one goes away, at whatever
depth it is nested, and each gives up its duty: a task that is still active is abandoned, one that
has an outcome keeps it. `PanicEnds` says what this leaves of the loop, `panic_ends_home` that it is
what every panic does in every run, and `Vacant` that the home is never polled again.
-/

namespace EffectLoop

variable {Co Fu : Type}

/-- What the driver is about to do is a panic of user code: of the coroutine, of a computation or a
processor, of a target that is invoked, or of the sink. -/
def Doing.panics : Doing Co Fu → Bool
  | .advance .panic | .work .panic _ | .invoke _ _ .panic _ | .dispatch .panic _ => true
  | _ => false

/-! ## Drivers that go away together -/

namespace Books

variable {ds : List (Driver Co Fu)} {s : SchedulerId} {id : TaskId}

/-- The entries that are left when drivers go away are those of tasks that none of them drives. -/
theorem mem_entries_abandonments (b : Books) (ds : List (Driver Co Fu)) (s : SchedulerId)
    (e : TaskEntry) : e ∈ ((b.postAll (abandonments ds)).tasks s).entries ↔
      e ∈ (b.tasks s).entries ∧ ∀ d ∈ ds, d.task.scheduler = s → d.guard.id ≠ e.id := by
  induction ds generalizing b with
  | nil => simp [abandonments]
  | cons d ds ih =>
    refine (ih (b.post (.attempt (.abandon d.duty)))).trans ?_
    rw [List.forall_mem_cons, ← and_assoc]
    refine and_congr_left fun _ => ?_
    by_cases hs : s = d.task.scheduler
    · rw [tasks_post_of_eq b (x := .attempt (.abandon d.duty)) hs]
      show e ∈ ((b.tasks s).settle d.guard.id _).1.entries ↔ _
      rw [ActiveTasks.entries_settle, List.mem_filter, decide_eq_true_eq]
      exact and_congr_right fun _ => ⟨fun h _ he => h he.symm, fun h he => h hs.symm he.symm⟩
    · rw [tasks_post_of_ne b (x := .attempt (.abandon d.duty)) hs]
      exact (and_iff_left fun h => absurd h.symm hs).symm

/-- The first attempt that drivers make on the task of one of them abandons it. -/
theorem firstAttempt_abandonments (h : ∃ d ∈ ds, d.task.scheduler = s ∧ d.guard.id = id) :
    firstAttempt s id (abandonments ds) = some (.error (.abandoned id)) := by
  induction ds with
  | nil =>
    obtain ⟨_, hd, _⟩ := h
    cases hd
  | cons d ds ih =>
    show List.findSome? _ (Posting.attempt (.abandon d.duty) :: abandonments ds) = _
    rw [List.findSome?_cons]
    by_cases hd : d.task.scheduler = s ∧ d.guard.id = id
    · have hfirst : Posting.outcomeFor s id (.attempt (.abandon d.duty)) =
          some (.error (.abandoned d.guard.id)) := if_pos hd
      rw [hfirst, hd.2]
    · have hfirst : Posting.outcomeFor s id (.attempt (.abandon d.duty)) = none := if_neg hd
      rw [hfirst]
      obtain ⟨x, hx, hown⟩ := h
      refine ih ⟨x, ?_, hown⟩
      rcases List.mem_cons.mp hx with rfl | hx
      · exact absurd hown hd
      · exact hx

/-- Drivers that go away decide nothing about a task that none of them drives. -/
theorem outcome_abandonments_of_ne (b : Books)
    (h : ∀ d ∈ ds, d.task.scheduler = s → d.guard.id ≠ id) :
    ((b.postAll (abandonments ds)).tasks s).outcome? id = (b.tasks s).outcome? id := by
  induction ds generalizing b with
  | nil => rfl
  | cons d ds ih =>
    obtain ⟨hd, hds⟩ := List.forall_mem_cons.mp h
    refine (ih (b.post (.attempt (.abandon d.duty))) hds).trans ?_
    by_cases hs : s = d.task.scheduler
    · rw [tasks_post_of_eq b (x := .attempt (.abandon d.duty)) hs]
      exact ActiveTasks.outcome?_settle_of_ne _ (Ne.symm (hd hs.symm)) _
    · rw [tasks_post_of_ne b (x := .attempt (.abandon d.duty)) hs]

theorem lastId_abandonments (b : Books) (ds : List (Driver Co Fu)) (s : SchedulerId) :
    ((b.postAll (abandonments ds)).tasks s).lastId = (b.tasks s).lastId := by
  induction ds generalizing b with
  | nil => rfl
  | cons d ds ih =>
    refine (ih (b.post (.attempt (.abandon d.duty)))).trans ?_
    by_cases hs : s = d.task.scheduler
    · rw [tasks_post_of_eq b (x := .attempt (.abandon d.duty)) hs]
      exact ActiveTasks.lastId_settle ..
    · rw [tasks_post_of_ne b (x := .attempt (.abandon d.duty)) hs]

end Books

namespace EventLoop

variable (p : Program Co Fu) {l : EventLoop Co Fu} {pollers : List (Poller Co Fu)}
  {d : Driver Co Fu}

/-! ## What a panic leaves -/

/-- The task is driven at the home. -/
def DrivenAt (l : EventLoop Co Fu) (home : DriverKey) (t : TaskHandle) : Prop :=
  ∃ d ∈ l.drivers, d.home = home ∧ d.task.scheduler = t.scheduler ∧ d.task.id = t.id

/-- What a panic in a home makes of a loop. -/
structure PanicEnds (home : DriverKey) (l l' : EventLoop Co Fu) : Prop where
  drivers : ∀ d, d ∈ l'.drivers ↔ d ∈ l.drivers ∧ d.home ≠ home
  abandoned : ∀ t, l.DrivenAt home t → (l.activeTasks t.scheduler).contains t.id = true →
    l'.outcome? t = some (.error (.abandoned t.id))
  kept : ∀ t o, l.DrivenAt home t → l.outcome? t = some o → l'.outcome? t = some o
  removed : ∀ t, l.DrivenAt home t → (l'.activeTasks t.scheduler).contains t.id = false
  apart : ∀ d ∈ l.drivers, d.home ≠ home → ¬ l.DrivenAt home d.task
  elsewhere : ∀ t, ¬ l.DrivenAt home t → l'.outcome? t = l.outcome? t ∧
    ∀ e : TaskEntry, e.id = t.id →
      (e ∈ (l'.activeTasks t.scheduler).entries ↔ e ∈ (l.activeTasks t.scheduler).entries)
  numbers : ∀ s, (l'.activeTasks s).lastId = (l.activeTasks s).lastId

/-- A task that is driven has been given its number. -/
theorem allotted_of_drivenAt (ho : Orderly l) {home : DriverKey} {t : TaskHandle}
    (h : l.DrivenAt home t) : (l.activeTasks t.scheduler).Allotted t.id := by
  obtain ⟨d, hd, _, hs, hi⟩ := h
  have hallotted := ho.balanced.allotted d.duty (List.mem_map_of_mem hd)
  rwa [show d.duty.id = t.id from (ho.proper d hd).2.guard.trans hi,
    show d.duty.scheduler = t.scheduler from hs] at hallotted

/-- No task is driven at two homes. -/
theorem not_drivenAt_of_home_ne (ho : Orderly l) {home : DriverKey} (hd : d ∈ l.drivers)
    (h : d.home ≠ home) : ¬ l.DrivenAt home d.task := by
  rintro ⟨x, hx, hhome, hs, hi⟩
  have hdistinct : (l.drivers.map fun d => (d.task.scheduler, d.guard.id)).Nodup := by
    have := ho.balanced.distinct
    rwa [show l.books.duties = l.drivers.map Driver.duty from rfl, List.map_map] at this
  have htask : (x.task.scheduler, x.guard.id) = (d.task.scheduler, d.guard.id) := by
    rw [(ho.proper x hx).2.guard, (ho.proper d hd).2.guard, hs, hi]
  cases List.inj_on_of_nodup_map hdistinct hx hd htask
  exact h hhome

theorem panicEnds_crash (ho : Orderly l) (home : DriverKey) : PanicEnds home l (l.crash home) := by
  have hbooks := l.books_crash home
  have htasks : ∀ s, (l.crash home).activeTasks s = ((l.books.postAll
      (abandonments (l.drivers.filter (·.home = home)).reverse)).tasks s) :=
    congrFun (congrArg Books.tasks hbooks)
  have hmem : ∀ d, d ∈ (l.drivers.filter (·.home = home)).reverse ↔
      d ∈ l.drivers ∧ d.home = home := fun d => by
    rw [List.mem_reverse, List.mem_filter, decide_eq_true_eq]
  have hdriven : ∀ t, l.DrivenAt home t → ∃ d ∈ (l.drivers.filter (·.home = home)).reverse,
      d.task.scheduler = t.scheduler ∧ d.guard.id = t.id := by
    rintro t ⟨d, hd, hhome, hs, hi⟩
    exact ⟨d, (hmem d).mpr ⟨hd, hhome⟩, hs, (ho.proper d hd).2.guard.trans hi⟩
  have hundriven : ∀ t, ¬ l.DrivenAt home t →
      ∀ d ∈ (l.drivers.filter (·.home = home)).reverse, d.task.scheduler = t.scheduler →
        d.guard.id ≠ t.id := by
    intro t ht d hd hs hi
    obtain ⟨hd, hhome⟩ := (hmem d).mp hd
    exact ht ⟨d, hd, hhome, hs, (ho.proper d hd).2.guard.symm.trans hi⟩
  constructor
  case drivers =>
    intro d
    refine (mem_foldl_abandon (l := l)).trans (and_congr_right fun hd => ?_)
    constructor
    · exact fun h hhome => h d ((hmem d).mpr ⟨hd, hhome⟩) rfl
    · intro hne x hx hk
      obtain ⟨hx, hhome⟩ := (hmem x).mp hx
      rw [ho.eq_of_key hd hx hk] at hne
      exact hne hhome
  case abandoned =>
    intro t ht hc
    show ((l.crash home).activeTasks t.scheduler).outcome? t.id = _
    rw [htasks, ho.balanced.sound.outcome_eq_firstAttempt hc]
    exact Books.firstAttempt_abandonments (hdriven t ht)
  case kept =>
    intro t o _ h
    show ((l.crash home).activeTasks t.scheduler).outcome? t.id = _
    rw [htasks]
    exact ho.balanced.sound.outcome_postAll h _
  case removed =>
    intro t ht
    rw [Bool.eq_false_iff, ne_eq, ActiveTasks.contains_iff, htasks, List.mem_map]
    rintro ⟨e, he, hid⟩
    obtain ⟨d, hd, hs, hi⟩ := hdriven t ht
    exact ((Books.mem_entries_abandonments _ _ _ e).mp he).2 d hd hs (hi.trans hid.symm)
  case apart => exact fun d hd h => not_drivenAt_of_home_ne ho hd h
  case elsewhere =>
    intro t ht
    constructor
    · show ((l.crash home).activeTasks t.scheduler).outcome? t.id = _
      rw [htasks]
      exact Books.outcome_abandonments_of_ne _ (hundriven t ht)
    · intro e hid
      rw [htasks, Books.mem_entries_abandonments]
      exact and_iff_left fun d hd hs => hid ▸ hundriven t ht d hd hs
  case numbers =>
    intro s
    rw [htasks]
    exact Books.lastId_abandonments ..

/-! ## Homes that are vacant -/

/-- Nobody lives at the home, nobody will, and nothing summons it. -/
structure Vacant (l : EventLoop Co Fu) (home : DriverKey) : Prop where
  given : home.val ≤ l.lastKey
  nobody : ∀ d ∈ l.drivers, d.home ≠ home
  gone : ∀ d ∈ l.drivers, d.key ≠ home
  unsummoned : home ∉ l.summoned

/-- A home that is vacant stays vacant. -/
theorem vacant_move (ho : Orderly l) {home : DriverKey} (h : Vacant l home) (m : Move Co Fu) :
    Vacant (l.move p m) home := by
  have hle : l.lastKey ≤ (l.move p m).lastKey := by
    obtain ⟨_, _, htouches⟩ := touches_move p ho.proper m
    exact htouches.lastKey_le
  refine ⟨Nat.le_trans h.given hle, ?_, ?_, ?_⟩
  · intro d hd hhome
    rcases tenant_move p ho.proper m hd with ⟨d₀, hd₀, _, _, he, _⟩ | ⟨hnew, hin⟩
    · exact h.nobody d₀ hd₀ (he.trans hhome)
    · cases hin with
      | root _ he =>
        have := h.given
        rw [← hhome, he] at this
        omega
      | nested hx _ he => exact h.nobody _ hx (he.symm.trans hhome)
  · intro d hd hk
    rcases tenant_move p ho.proper m hd with ⟨d₀, hd₀, hk₀, _⟩ | ⟨hnew, _⟩
    · exact h.gone d₀ hd₀ (hk₀.trans hk)
    · have := h.given
      rw [hk] at hnew
      omega
  · intro hs
    rcases summoned_move p ho.proper m hs with hs | ⟨d, hd, hhome⟩ | ⟨hnew, _⟩
    · exact h.unsummoned hs
    · exact h.nobody d hd hhome
    · have := h.given
      omega

theorem vacant_after (ho : Orderly l) {home : DriverKey} (h : Vacant l home)
    (moves : List (Move Co Fu)) : Vacant (l.after p moves) home := by
  induction moves generalizing l with
  | nil => exact h
  | cons m moves ih => exact ih (orderly_move p ho m) (vacant_move p ho h m)

/-- A vacant home is not polled, from the queue or from outside. -/
theorem Vacant.unpolled {home : DriverKey} (h : Vacant l home) (byHand : Bool) :
    l.move p (.poll home) = l ∧ l.move p (.call home byHand) = l := by
  have hqueue : home ∉ l.queue := fun hq =>
    h.unsummoned (List.mem_append_left _ (List.mem_append_left _ hq))
  have hdriver : l.driver? home = none := by
    refine List.find?_eq_none.mpr fun d hd hk => ?_
    exact h.gone d hd (eq_of_beq hk)
  cases hf : l.focus with
  | idle =>
    rw [move_of_idle p hf, move_of_idle p hf]
    refine ⟨if_neg hqueue, ?_⟩
    unfold outside
    dsimp only
    rw [hdriver]
  | active _ _ _ => exact ⟨move_of_active p hf nofun, move_of_active p hf nofun⟩

/-- What a panic leaves of a home is vacant. -/
theorem vacant_crash (ho : Orderly l) (hh : Housed l) (hd : d ∈ l.drivers) :
    Vacant (l.crash d.home) d.home := by
  have hends := panicEnds_crash ho d.home
  refine ⟨?_, fun x hx => ((hends.drivers x).mp hx).2, ?_, ?_⟩
  · exact Nat.le_trans (hh.bounded d hd) (l.spares_crash d.home).lastKey_le
  · intro x hx hk
    obtain ⟨hx, hhome⟩ := (hends.drivers x).mp hx
    exact hhome ((hh.root x hx (hh.head d hd x hx hk)).trans hk)
  · intro hs
    simp only [summoned, crash, forget, List.mem_append, List.mem_filter, List.mem_map,
      decide_eq_true_eq, ne_eq, not_true_eq_false, and_false, or_self, false_or] at hs
    obtain ⟨w, ⟨_, hne⟩, he⟩ := hs
    exact hne he

/-! ## Panics in a run -/

/-- User code that panics brings the driver to crash. -/
theorem stepDriver_of_panics {doing : Doing Co Fu} (h : doing.panics = true) :
    l.stepDriver p pollers d doing = l.focusOn pollers d.key .crash := by
  unfold Doing.panics at h
  split at h
  · rfl
  · rfl
  · rfl
  · rfl
  · cases h

/-- The first of the two steps from a panic to the end of the home. -/
theorem move_step_of_panics (hd : l.driver? d.key = some d) {doing : Doing Co Fu}
    (hfocus : l.focus = .active pollers d.key doing) (h : doing.panics = true) :
    l.move p .step = l.focusOn pollers d.key .crash := by
  rw [move_step_of_driver p hfocus hd, stepDriver_of_panics p h]
  rintro outcome rfl
  cases h

theorem after_panic (hd : l.driver? d.key = some d) {doing : Doing Co Fu}
    (hfocus : l.focus = .active pollers d.key doing) (h : doing.panics = true) :
    l.after p [.step, .step] =
      { (l.focusOn pollers d.key .crash).crash d.home with focus := .idle } := by
  have hsecond : (l.focusOn pollers d.key .crash).move p .step =
      (l.focusOn pollers d.key .crash).stepDriver p pollers d .crash :=
    move_step_of_driver p rfl hd nofun
  rw [after_cons, after_cons, after_nil, move_step_of_panics p hd hfocus h, hsecond]
  rfl

/-- Coroutine 0 calls a target again and again, which gives coroutine 1, which panics. -/
def callsPanic : Program Nat Unit where
  scheduler := fun _ => { sink := ⟨"sink"⟩ }
  resume := fun co _ => co
  advance := fun co =>
    if co = 0 then .ret (.yield (.effect (.call ⟨"target", .coroutine, ⟨"panic", []⟩⟩ [])) 0) else .panic
  work := fun _ => .ret (.done (.ok (.value .null)))
  invoke := fun _ _ => .ret (.coroutine 1)
  process := fun _ _ _ => ()
  dispatch := fun _ _ => .ret .null

/-- The moves that bring it to the panic. -/
def toPanic : List (Move Nat Unit) :=
  .act (.start ⟨0⟩ "caller" 0 fun _ => .ret ()) :: .poll ⟨1⟩ :: List.replicate 8 .step

end EventLoop

end EffectLoop
