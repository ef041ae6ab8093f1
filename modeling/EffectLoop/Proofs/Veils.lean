import EffectLoop.Proofs.Waking

/-!
# What is out of sight

Two states of a loop may differ in what some of those who live in it never look at: the entry of a
task and its outcome, what others do who have looked there, gates, keys and sinks that only those
use. A `Veil` says what is out of sight, and `Alike` that two states agree on the rest.

Every operation of a loop keeps states alike (`Alike.settle`, `Alike.crash`, `Alike.enter` and so on),
and to decide a task that is out of sight changes nothing in sight (`Alike.settle_hidden`).
-/

namespace EffectLoop

variable {Co Fu α : Type}

/-- What is out of sight. -/
structure Veil where
  homes : DriverKey → Bool := fun _ => false
  tasks : SchedulerId → TaskId → Bool := fun _ _ => false
  gates : String → Bool := fun _ => false
  keys : String → Bool := fun _ => false
  sinks : String → Bool := fun _ => false

namespace Veil

/-- The driver lives in sight. -/
def shows (v : Veil) (d : Driver Co Fu) : Bool := !v.homes d.home

/-- The entry is that of a task in sight. -/
def lists (v : Veil) (s : SchedulerId) (e : TaskEntry) : Bool := !v.tasks s e.id

/-- The wait is for nothing that is out of sight. -/
def InSight (v : Veil) : Wait → Prop
  | .task h => v.tasks h.scheduler h.id = false
  | .gate name => v.gates name = false
  | _ => True

/-- The second veil hides at least as much. -/
structure Le (v v' : Veil) : Prop where
  homes : ∀ home, v.homes home = true → v'.homes home = true
  tasks : ∀ s id, v.tasks s id = true → v'.tasks s id = true
  gates : ∀ name, v.gates name = true → v'.gates name = true
  keys : ∀ key, v.keys key = true → v'.keys key = true
  sinks : ∀ name, v.sinks name = true → v'.sinks name = true

theorem eq_false_of_le {a b : Bool} (h : a = true → b = true) (hb : b = false) : a = false := by
  cases a with
  | false => rfl
  | true => rw [h rfl] at hb; cases hb

theorem Le.refl (v : Veil) : Le v v :=
  ⟨fun _ h => h, fun _ _ h => h, fun _ h => h, fun _ h => h, fun _ h => h⟩

end Veil

/-- Somebody among the pollers hears with which outcome the polled driver is over. -/
def heeded : List (Poller Co Fu) → Bool
  | [] | .hand :: _ => false
  | _ => true

/-- The doing as it matters to the pollers. -/
def Doing.heard (pollers : List (Poller Co Fu)) : Doing Co Fu → Doing Co Fu
  | .leave outcome => .leave (if heeded pollers then outcome else none)
  | doing => doing

namespace EventLoop

/-- The driver that a poll began with. -/
def root (pollers : List (Poller Co Fu)) (key : DriverKey) : DriverKey :=
  (pollers.filterMap Poller.key?).getLast?.getD key

end EventLoop

/-- A poll that began out of sight is not seen. -/
def Veil.focus (v : Veil) : Focus Co Fu → Focus Co Fu
  | .idle => .idle
  | .active pollers key doing =>
    if v.homes (EventLoop.root pollers key) then .idle
    else .active pollers key (doing.heard pollers)

namespace EventLoop

/-- Two states agree on all that is in sight, and nobody in sight waits for what is not. -/
structure Alike (v : Veil) (l l' : EventLoop Co Fu) : Prop where
  now : l.now = l'.now
  entries : ∀ s, (l.activeTasks s).entries.filter (v.lists s) =
    (l'.activeTasks s).entries.filter (v.lists s)
  outcome : ∀ t, v.tasks t.scheduler t.id = false → l.outcome? t = l'.outcome? t
  gates : ∀ name, v.gates name = false → l.gates.find? name = l'.gates.find? name
  board : ∀ key, v.keys key = false → l.board.find? key = l'.board.find? key
  sinks : ∀ name, v.sinks name = false → l.sinks.find? name = l'.sinks.find? name
  drivers : l.drivers.filter v.shows = l'.drivers.filter v.shows
  queue : l.queue.filter (fun home => !v.homes home) = l'.queue.filter (fun home => !v.homes home)
  deferred : l.deferred.filter (fun home => !v.homes home) =
    l'.deferred.filter (fun home => !v.homes home)
  waiting : l.waiting.filter (fun w => !v.homes w.2) = l'.waiting.filter (fun w => !v.homes w.2)
  waits : ∀ w ∈ l.waiting, v.homes w.2 = false → v.InSight w.1
  focus : v.focus l.focus = v.focus l'.focus

theorem filter_enqueue (f : DriverKey → Bool) (queue homes : List DriverKey) :
    (enqueue queue homes).filter f = enqueue (queue.filter f) (homes.filter f) := by
  induction homes generalizing queue with
  | nil => rfl
  | cons home homes ih =>
    rw [show enqueue queue (home :: homes) =
      enqueue (if home ∈ queue then queue else queue ++ [home]) homes from rfl, ih]
    cases hf : f home with
    | false =>
      rw [List.filter_cons_of_neg (by simp [hf])]
      split
      · rfl
      · simp [hf]
    | true =>
      rw [List.filter_cons_of_pos hf]
      show _ = enqueue (if home ∈ queue.filter f then _ else _) _
      congr 1
      by_cases hmem : home ∈ queue
      · simp [hmem, hf]
      · simp [hmem, hf]

/-- What agrees under a filter agrees under a stronger one. -/
theorem filter_of_imp {xs ys : List α} {f g : α → Bool} (hg : ∀ x, g x = true → f x = true)
    (h : xs.filter f = ys.filter f) : xs.filter g = ys.filter g := by
  have hboth : ∀ zs : List α, zs.filter g = (zs.filter f).filter g := by
    intro zs
    rw [List.filter_filter]
    apply List.filter_congr
    intro x _
    cases hx : g x with
    | false => rfl
    | true => simp [hg x hx]
  rw [hboth xs, hboth ys, h]

/-- Where a loop gives out the same numbers to the next task of a scheduler. -/
structure SameNumbers (l l' : EventLoop Co Fu) (s : SchedulerId) : Prop where
  key : l.lastKey = l'.lastKey
  id : (l.activeTasks s).lastId = (l'.activeTasks s).lastId

theorem Housed.of_subset {l l' : EventLoop Co Fu} (hh : Housed l) (hd : l'.drivers ⊆ l.drivers)
    (hk : l'.lastKey = l.lastKey) : Housed l' where
  root := fun d h => hh.root d (hd h)
  nested := fun d h o ho => hh.nested d (hd h) o (hd ho)
  head := fun d h x hx => hh.head d (hd h) x (hd hx)
  bounded := fun d h => by
    rw [hk]
    exact hh.bounded d (hd h)

/-- What is nested in a driver in sight is in sight. -/
theorem Housed.shows_nested {v : Veil} {l : EventLoop Co Fu} (hh : Housed l) :
    ∀ d ∈ l.drivers, ∀ o ∈ l.drivers, v.shows o = true → d.owner = .driver o.key →
      v.shows d = true := by
  intro d hd o ho hv hown
  simpa only [Veil.shows, hh.nested d hd o ho hown] using hv

/-- A driver that is not nested in the keys is passed over. -/
theorem nestedBelow_cons_of_ne {keys : List DriverKey} {d : Driver Co Fu}
    (h : ∀ key ∈ keys, d.owner ≠ .driver key) (ds : List (Driver Co Fu)) :
    nestedBelow keys (d :: ds) = nestedBelow keys ds := by
  simp only [nestedBelow]
  split
  · rename_i key hown
    rw [if_neg fun hmem => h key hmem hown]
  · rfl

/-- The drivers below keys in sight are found among the drivers in sight. -/
theorem nestedBelow_shows {v : Veil} {ds : List (Driver Co Fu)} {keys : List DriverKey}
    (hnested : ∀ d ∈ ds, ∀ o ∈ ds, v.shows o = true → d.owner = .driver o.key → v.shows d = true)
    (hkeys : ∀ d ∈ ds, ∀ key ∈ keys, d.owner = .driver key → v.shows d = true) :
    nestedBelow keys ds = nestedBelow keys (ds.filter v.shows) := by
  induction ds generalizing keys with
  | nil => rfl
  | cons d ds ih =>
    have hnested' : ∀ x ∈ ds, ∀ o ∈ ds, v.shows o = true → x.owner = .driver o.key →
        v.shows x = true := fun x hx o ho =>
      hnested x (List.mem_cons_of_mem _ hx) o (List.mem_cons_of_mem _ ho)
    have hkeys' : ∀ x ∈ ds, ∀ key ∈ keys, x.owner = .driver key → v.shows x = true := fun x hx =>
      hkeys x (List.mem_cons_of_mem _ hx)
    by_cases hbelow : ∃ key ∈ keys, d.owner = .driver key
    · obtain ⟨key, hmem, hown⟩ := hbelow
      have hd : v.shows d = true := hkeys d List.mem_cons_self key hmem hown
      have hdeeper : ∀ x ∈ ds, ∀ k ∈ d.key :: keys, x.owner = .driver k → v.shows x = true := by
        intro x hx k hk hxo
        rcases List.mem_cons.mp hk with rfl | hk
        · exact hnested x (List.mem_cons_of_mem _ hx) d List.mem_cons_self hd hxo
        · exact hkeys' x hx k hk hxo
      rw [List.filter_cons_of_pos hd]
      unfold nestedBelow
      rw [hown]
      simp only [if_pos hmem]
      rw [ih hnested' hdeeper]
    · have hne : ∀ key ∈ keys, d.owner ≠ .driver key := fun key hmem hown =>
        hbelow ⟨key, hmem, hown⟩
      rw [nestedBelow_cons_of_ne hne, ih hnested' hkeys', List.filter_cons]
      split
      · rw [nestedBelow_cons_of_ne hne]
      · rfl

namespace Alike

variable {v : Veil} {l l' l'' : EventLoop Co Fu}

theorem symm (h : Alike v l l') : Alike v l' l where
  now := h.now.symm
  entries := fun s => (h.entries s).symm
  outcome := fun t ht => (h.outcome t ht).symm
  gates := fun name hn => (h.gates name hn).symm
  board := fun key hk => (h.board key hk).symm
  sinks := fun name hn => (h.sinks name hn).symm
  drivers := h.drivers.symm
  queue := h.queue.symm
  deferred := h.deferred.symm
  waiting := h.waiting.symm
  waits := by
    intro w hw hv
    have hmem : w ∈ l'.waiting.filter (fun w => !v.homes w.2) := by simp [hw, hv]
    rw [← h.waiting] at hmem
    exact h.waits w (List.mem_filter.mp hmem).1 hv
  focus := h.focus.symm

theorem trans (h : Alike v l l') (h' : Alike v l' l'') : Alike v l l'' where
  now := h.now.trans h'.now
  entries := fun s => (h.entries s).trans (h'.entries s)
  outcome := fun t ht => (h.outcome t ht).trans (h'.outcome t ht)
  gates := fun name hn => (h.gates name hn).trans (h'.gates name hn)
  board := fun key hk => (h.board key hk).trans (h'.board key hk)
  sinks := fun name hn => (h.sinks name hn).trans (h'.sinks name hn)
  drivers := h.drivers.trans h'.drivers
  queue := h.queue.trans h'.queue
  deferred := h.deferred.trans h'.deferred
  waiting := h.waiting.trans h'.waiting
  waits := h.waits
  focus := h.focus.trans h'.focus

theorem left (h : Alike v l l') : Alike v l l := h.trans h.symm

/-- What lies behind one veil lies behind a larger one. -/
theorem mono {v' : Veil} (h : Alike v l l') (hle : Veil.Le v v')
    (hwaits : ∀ w ∈ l.waiting, v'.homes w.2 = false → v'.InSight w.1) : Alike v' l l' := by
  have hhomes : ∀ {home}, v'.homes home = false → v.homes home = false := fun {home} =>
    Veil.eq_false_of_le (hle.homes home)
  refine ⟨h.now, ?_, ?_, ?_, ?_, ?_, ?_, ?_, ?_, ?_, hwaits, ?_⟩
  · intro s
    refine filter_of_imp (fun e he => ?_) (h.entries s)
    simp only [Veil.lists, Bool.not_eq_true'] at he ⊢
    exact Veil.eq_false_of_le (hle.tasks s e.id) he
  · exact fun t ht => h.outcome t (Veil.eq_false_of_le (hle.tasks _ _) ht)
  · exact fun name hn => h.gates name (Veil.eq_false_of_le (hle.gates name) hn)
  · exact fun key hk => h.board key (Veil.eq_false_of_le (hle.keys key) hk)
  · exact fun name hn => h.sinks name (Veil.eq_false_of_le (hle.sinks name) hn)
  · refine filter_of_imp (fun d hd => ?_) h.drivers
    simp only [Veil.shows, Bool.not_eq_true'] at hd ⊢
    exact hhomes hd
  · exact filter_of_imp (fun home hh => by simp only [Bool.not_eq_true'] at hh ⊢; exact hhomes hh) h.queue
  · exact filter_of_imp (fun home hh => by simp only [Bool.not_eq_true'] at hh ⊢; exact hhomes hh)
      h.deferred
  · exact filter_of_imp (fun w hw => by simp only [Bool.not_eq_true'] at hw ⊢; exact hhomes hw) h.waiting
  · have hfocus : ∀ f : Focus Co Fu, v'.focus f = v'.focus (v.focus f) := by
      intro f
      cases f with
      | idle => rfl
      | active pollers key doing =>
        simp only [Veil.focus]
        cases hv : v.homes (root pollers key) with
        | true => simp [hle.homes _ hv]
        | false =>
          simp only [Bool.false_eq_true, if_false]
          congr 2
          cases doing with
          | leave outcome => simp only [Doing.heard]; split <;> rfl
          | _ => rfl
    rw [hfocus l.focus, hfocus l'.focus, h.focus]

/-! ### Tasks -/

section

variable (h : Alike v l l')
include h

theorem note (e : Entry) : Alike v (l.note e) l' := { h with }

theorem record (spans spans' : List Span) (level : Level) (source : Source) (message : String)
    (fields : List LogField) : Alike v (l.record spans level source message fields)
      (l'.record spans' level source message fields) :=
  (((h.note _).symm).note _).symm

theorem focusOn (pollers : List (Poller Co Fu)) (key : DriverKey) (doing : Doing Co Fu) :
    Alike v (l.focusOn pollers key doing) (l'.focusOn pollers key doing) :=
  { h with focus := rfl }

theorem contains_eq {s : SchedulerId} {id : TaskId} (hid : v.tasks s id = false) :
    (l.activeTasks s).contains id = (l'.activeTasks s).contains id := by
  have hseen : ∀ tasks : ActiveTasks, tasks.contains id = true ↔
      id ∈ (tasks.entries.filter (v.lists s)).map TaskEntry.id := by
    intro tasks
    rw [ActiveTasks.contains_iff]
    simp only [List.mem_map, List.mem_filter, Veil.lists, Bool.not_eq_true']
    constructor
    · rintro ⟨e, he, rfl⟩
      exact ⟨e, ⟨he, hid⟩, rfl⟩
    · rintro ⟨e, ⟨he, _⟩, rfl⟩
      exact ⟨e, he, rfl⟩
  rw [Bool.eq_iff_iff, hseen, hseen, h.entries]

theorem setTasks (s : SchedulerId) {tasks tasks' : ActiveTasks}
    (he : tasks.entries.filter (v.lists s) = tasks'.entries.filter (v.lists s))
    (ho : ∀ id, v.tasks s id = false → tasks.outcome? id = tasks'.outcome? id) :
    Alike v (l.setTasks s tasks) (l'.setTasks s tasks') :=
  { h with
    entries := by
      intro s'
      simp only [activeTasks_setTasks, Function.update_apply]
      split
      · rename_i hs
        subst hs
        exact he
      · exact h.entries s'
    outcome := by
      intro t ht
      rw [outcome?_setTasks, outcome?_setTasks]
      split
      · rename_i hs
        subst hs
        exact ho t.id ht
      · exact h.outcome t ht }

theorem setState (t : TaskHandle) (state : TaskState) :
    Alike v (l.setState t state) (l'.setState t state) := by
  apply h.setTasks
  · have hlists : ∀ tasks : ActiveTasks,
        (tasks.setState t.id state).1.entries.filter (v.lists t.scheduler) =
          (tasks.entries.filter (v.lists t.scheduler)).map
            fun e => if e.id = t.id then { e with state } else e := by
      intro tasks
      simp only [ActiveTasks.setState, List.filter_map]
      congr 2
      funext e
      simp only [Function.comp_apply, Veil.lists]
      split <;> rfl
    rw [hlists, hlists, h.entries]
  · intro id hid
    simp only [ActiveTasks.outcome?_setState]
    exact h.outcome ⟨t.scheduler, id, t.name⟩ hid

theorem wake (ready : Wait → Bool) : Alike v (l.wake ready) (l'.wake ready) :=
  { h with
    queue := by
      have hhomes : ∀ ws : List (Wait × DriverKey),
          ((ws.filter fun w => ready w.1).map Prod.snd).filter (fun home => !v.homes home) =
            ((ws.filter fun w => !v.homes w.2).filter fun w => ready w.1).map Prod.snd := by
        intro ws
        rw [List.filter_map, List.filter_comm]
        rfl
      show (enqueue _ _).filter _ = (enqueue _ _).filter _
      rw [filter_enqueue, filter_enqueue, h.queue, hhomes, hhomes, h.waiting]
    waiting := by
      show (List.filter _ _).filter _ = (List.filter _ _).filter _
      rw [List.filter_comm, h.waiting, List.filter_comm]
    waits := fun w hw => h.waits w (List.mem_filter.mp hw).1 }

end

/-- To decide a task that is out of sight changes nothing in sight. -/
theorem settle_hidden (h : Alike v l l) {s : SchedulerId} {id : TaskId}
    (hid : v.tasks s id = true) (o : Outcome) :
    Alike v l ((l.setTasks s ((l.activeTasks s).settle id o).1).wake (Wait.isFor s id)) := by
  -- nobody in sight is woken
  have hready : ∀ w ∈ l.waiting, v.homes w.2 = false → Wait.isFor s id w.1 = false := by
    rintro ⟨w, home⟩ hw hv
    have hsight := h.waits _ hw hv
    cases w with
    | task t =>
      simp only [Veil.InSight] at hsight
      rw [Wait.isFor, Bool.and_eq_false_imp]
      intro hs
      rw [beq_iff_eq] at hs
      rw [beq_eq_false_iff_ne]
      rintro rfl
      rw [← hs, hsight] at hid
      cases hid
    | _ => rfl
  refine { h with entries := ?_, outcome := ?_, queue := ?_, waiting := ?_ }
  · intro s'
    show _ = ((l.setTasks s _).activeTasks s').entries.filter _
    simp only [activeTasks_setTasks, Function.update_apply]
    split
    · rename_i hs
      subst hs
      rw [ActiveTasks.entries_settle, List.filter_filter]
      apply List.filter_congr
      intro e _
      by_cases he : e.id = id
      · simp [Veil.lists, he, hid]
      · simp [he]
    · rfl
  · intro t ht
    show _ = (l.setTasks s _).outcome? t
    rw [outcome?_setTasks]
    split
    · rename_i hs
      subst hs
      rw [ActiveTasks.outcome?_settle_of_ne _ (fun he => ?_)]
      · rfl
      · rw [he, hid] at ht
        cases ht
    · rfl
  · show _ = (enqueue l.queue ((l.waiting.filter _).map Prod.snd)).filter _
    have hnone : ((l.waiting.filter fun w => Wait.isFor s id w.1).map Prod.snd).filter
        (fun home => !v.homes home) = [] := by
      rw [List.filter_eq_nil_iff]
      intro home hhome
      obtain ⟨w, hw, rfl⟩ := List.mem_map.mp hhome
      obtain ⟨hw, hfor⟩ := List.mem_filter.mp hw
      intro hv
      rw [Bool.not_eq_true'] at hv
      rw [hready w hw hv] at hfor
      cases hfor
    rw [filter_enqueue, hnone]
    rfl
  · show _ = (l.waiting.filter _).filter _
    rw [List.filter_filter]
    apply List.filter_congr
    intro w hw
    cases hv : v.homes w.2 with
    | true => simp
    | false => simp [hready w hw hv]

/-- To end a task early that is out of sight changes nothing in sight. -/
theorem terminate_hidden (h : Alike v l l') (spans : List Span) {s : SchedulerId} {id : TaskId}
    (hid : v.tasks s id = true) : Alike v (l.terminate spans s id).1 l' := by
  rw [terminate_eq]
  split
  · exact ((h.left.settle_hidden hid _).symm.note _).trans h
  · exact h

section

variable (h : Alike v l l')
include h

theorem settled {s : SchedulerId} {id : TaskId} (hc : (l.activeTasks s).contains id = true)
    (hc' : (l'.activeTasks s).contains id = true) (o : Outcome) :
    Alike v (l.setTasks s ((l.activeTasks s).settle id o).1)
      (l'.setTasks s ((l'.activeTasks s).settle id o).1) := by
  apply h.setTasks
  · simp only [ActiveTasks.entries_settle]
    rw [List.filter_comm, h.entries, List.filter_comm]
  · intro other hv
    have ho := h.outcome ⟨s, other, ""⟩ hv
    simp only [outcome?] at ho
    by_cases hne : other = id
    · subst hne
      rw [ActiveTasks.outcome?_settle_same hc, ActiveTasks.outcome?_settle_same hc', ho]
    · rw [ActiveTasks.outcome?_settle_of_ne _ hne, ActiveTasks.outcome?_settle_of_ne _ hne, ho]

theorem settle {d : Driver Co Fu} (hd : d.Proper) (o : Outcome) :
    Alike v (l.settle d fun tasks => tasks.settle d.guard.id o).1
      (l'.settle d fun tasks => tasks.settle d.guard.id o).1 := by
  rw [settle_fst, settle_fst, hd.guard]
  cases hid : v.tasks d.task.scheduler d.task.id with
  | false =>
    rw [h.contains_eq hid]
    split
    · rename_i hc'
      exact (h.settled ((h.contains_eq hid).trans hc') hc' o).wake _
    · exact h.record _ _ _ _ _ _
  | true =>
    have hsettle : ∀ l : EventLoop Co Fu, Alike v l l → Alike v l
        (if (l.activeTasks d.task.scheduler).contains d.task.id then
          (l.setTasks d.task.scheduler
            ((l.activeTasks d.task.scheduler).settle d.task.id o).1).wake
              (Wait.isFor d.task.scheduler d.task.id)
        else l.record d.spans .debug .registry "settlement dropped, task no longer registered"
          [⟨"task", d.task.id.text, false⟩]) := by
      intro l h
      split
      · exact h.settle_hidden hid o
      · exact (h.note _).symm
    exact (hsettle l h.left).symm.trans (h.trans (hsettle l' h.symm.left))

/-! ### Drivers -/

theorem changeDrivers {f : List (Driver Co Fu) → List (Driver Co Fu)}
    (hf : ∀ ds, (f ds).filter v.shows = f (ds.filter v.shows)) :
    Alike v { l with drivers := f l.drivers } { l' with drivers := f l'.drivers } :=
  { h with
    drivers := by
      show (f l.drivers).filter _ = (f l'.drivers).filter _
      rw [hf, hf, h.drivers] }

theorem modifyDriver (key : DriverKey) {f : Driver Co Fu → Driver Co Fu}
    (hf : ∀ d, (f d).home = d.home) :
    Alike v (l.modifyDriver key f) (l'.modifyDriver key f) := by
  apply h.changeDrivers
  intro ds
  rw [List.filter_map]
  congr 2
  funext d
  simp only [Function.comp_apply, Veil.shows]
  split
  · rw [hf]
  · rfl

theorem discharge {d : Driver Co Fu} (hd : d.Proper) (o : Outcome) :
    Alike v (l.discharge d o) (l'.discharge d o) :=
  (h.settle hd o).changeDrivers fun _ => List.filter_comm ..

theorem abandon {d : Driver Co Fu} (hd : d.Proper) : Alike v (l.abandon d) (l'.abandon d) := by
  have hleft : Alike v (l.abandon d) (l'.discharge d (.error (.abandoned d.guard.id))) := by
    rcases l.abandon_eq d with he | he
    · rw [he]
      exact h.discharge hd _
    · rw [he]
      exact (h.discharge hd _).note _
  rcases l'.abandon_eq d with he | he
  · rw [he]
    exact hleft
  · rw [he]
    exact (hleft.symm.note _).symm

theorem foldl_abandon {ds : List (Driver Co Fu)} (hds : ∀ d ∈ ds, d.Proper) :
    Alike v (ds.foldl EventLoop.abandon l) (ds.foldl EventLoop.abandon l') := by
  induction ds generalizing l l' with
  | nil => exact h
  | cons d ds ih =>
    obtain ⟨hd, hds⟩ := List.forall_mem_cons.mp hds
    exact ih (h.abandon hd) hds

theorem forget (home : DriverKey) : Alike v (l.forget home) (l'.forget home) :=
  { h with
    queue := by
      show (List.filter _ _).filter _ = (List.filter _ _).filter _
      rw [List.filter_comm, h.queue, List.filter_comm]
    deferred := by
      show (List.filter _ _).filter _ = (List.filter _ _).filter _
      rw [List.filter_comm, h.deferred, List.filter_comm]
    waiting := by
      show (List.filter _ _).filter _ = (List.filter _ _).filter _
      rw [List.filter_comm, h.waiting, List.filter_comm]
    waits := fun w hw => h.waits w (List.mem_filter.mp hw).1 }

/-- The drivers that go away with a coroutine in sight are in sight, and the same in both. -/
theorem dropNested (hl : Proper l) (hh : Housed l) (hh' : Housed l') {key : DriverKey}
    (hkey : ∀ d ∈ l.drivers, d.owner = .driver key → v.shows d = true)
    (hkey' : ∀ d ∈ l'.drivers, d.owner = .driver key → v.shows d = true) :
    Alike v (l.dropNested key) (l'.dropNested key) := by
  have hds : nestedBelow [key] l.drivers = nestedBelow [key] l'.drivers := by
    rw [nestedBelow_shows hh.shows_nested (by simpa using hkey),
      nestedBelow_shows hh'.shows_nested (by simpa using hkey'), h.drivers]
  show Alike v ((nestedBelow [key] l.drivers).reverse.foldl _ l)
    ((nestedBelow [key] l'.drivers).reverse.foldl _ l')
  rw [← hds]
  apply h.foldl_abandon
  intro d hd
  exact (hl d ((nestedBelow_sublist _ _).subset (List.mem_reverse.mp hd))).2

theorem conclude (hl : Proper l) (hh : Housed l) (hh' : Housed l') {d : Driver Co Fu}
    (hd : d ∈ l.drivers) (hd' : d ∈ l'.drivers) (hshows : v.shows d = true) (o : Outcome) :
    Alike v (l.conclude d o) (l'.conclude d o) := by
  obtain ⟨e, he⟩ := l.conclude_eq d o
  obtain ⟨e', he'⟩ := l'.conclude_eq d o
  rw [he, he']
  have hdis : Alike v ((l.note e).discharge d o) ((l'.note e').discharge d o) :=
    ((h.note e).symm.note e').symm.discharge (hl d hd).2 o
  have hsub : ∀ (l : EventLoop Co Fu) (e : Entry) {x : Driver Co Fu},
      x ∈ ((l.note e).discharge d o).drivers → x ∈ l.drivers := by
    intro l e x hx
    rw [drivers_discharge] at hx
    exact (List.mem_filter.mp hx).1
  have hlast : ∀ (l : EventLoop Co Fu) (e : Entry),
      ((l.note e).discharge d o).lastKey = l.lastKey := fun l e => (l.note e).settle_lastKey d _ _
  apply hdis.dropNested
  · intro x hx
    rw [hlast]
    exact hl x (hsub l e hx)
  · exact hh.of_subset (fun x hx => hsub l e hx) (hlast l e)
  · exact hh'.of_subset (fun x hx => hsub l' e' hx) (hlast l' e')
  · exact fun x hx => hh.shows_nested x (hsub l e hx) d hd hshows
  · exact fun x hx => hh'.shows_nested x (hsub l' e' hx) d hd' hshows

/-- A panic in sight ends the same drivers in both. -/
theorem crash (hl : Proper l) {home : DriverKey} (hv : v.homes home = false) :
    Alike v (l.crash home) (l'.crash home) := by
  have hlives : ∀ ds : List (Driver Co Fu), ds.filter (·.home = home) =
      (ds.filter v.shows).filter (·.home = home) := by
    intro ds
    rw [List.filter_filter]
    apply List.filter_congr
    intro d _
    by_cases hd : d.home = home
    · simp [hd, Veil.shows, hv]
    · simp [hd]
  have hds : l.drivers.filter (·.home = home) = l'.drivers.filter (·.home = home) := by
    rw [hlives l.drivers, hlives l'.drivers, h.drivers]
  have hdrop : Alike v ((l.drivers.filter (·.home = home)).reverse.foldl EventLoop.abandon l)
      ((l'.drivers.filter (·.home = home)).reverse.foldl EventLoop.abandon l') := by
    rw [← hds]
    apply h.foldl_abandon
    intro d hd
    exact (hl d (List.mem_filter.mp (List.mem_reverse.mp hd)).1).2
  exact { hdrop.forget home with }

/-! ### Waits -/

theorem flush : Alike v l.flush l'.flush :=
  { h with
    queue := by
      show (enqueue _ _).filter _ = (enqueue _ _).filter _
      rw [filter_enqueue, filter_enqueue, h.queue, h.deferred]
    deferred := rfl }

theorem jump (time : Nat) : Alike v (l.jump time) (l'.jump time) := by
  have hclock : Alike v { l with now := time } { l' with now := time } := { h with now := rfl }
  exact hclock.wake _

theorem openGate {name : String} (hname : v.gates name = false) (j : Json) :
    Alike v (l.openGate name j) (l'.openGate name j) := by
  unfold EventLoop.openGate
  rw [h.gates name hname]
  split
  · exact h
  · have hopen : Alike v { l with gates := l.gates.insert name j }
        { l' with gates := l'.gates.insert name j } :=
      { h with
        gates := by
          intro other ho
          show (l.gates.insert name j).find? other = (l'.gates.insert name j).find? other
          rw [Assoc.find?_insert, Assoc.find?_insert, h.gates other ho] }
    exact hopen.wake _

theorem peek_eq {w : Wait} (hw : v.InSight w) : l.peek w = l'.peek w := by
  cases w with
  | sleep deadline => simp only [peek, h.now]
  | gate name => simp only [peek, h.gates name hw]
  | task t => simp only [peek, h.outcome t hw]
  | _ => rfl

theorem wait (pollers : List (Poller Co Fu)) (d : Driver Co Fu) {w : Wait} (hw : v.InSight w) :
    Alike v (l.wait pollers d w) (l'.wait pollers d w) := by
  unfold EventLoop.wait
  split
  · split
    · refine { h with deferred := ?_ }
      show (l.deferred ++ [d.home]).filter _ = (l'.deferred ++ [d.home]).filter _
      rw [List.filter_append, List.filter_append, h.deferred]
    · exact h
    · exact h
    · refine { h with waiting := ?_, waits := ?_ }
      · show (l.waiting ++ [(w, d.home)]).filter _ = (l'.waiting ++ [(w, d.home)]).filter _
        rw [List.filter_append, List.filter_append, h.waiting]
      · intro w' hw' hv
        rcases List.mem_append.mp hw' with hw' | hw'
        · exact h.waits w' hw' hv
        · rw [List.mem_singleton.mp hw']
          exact hw
  · exact h

/-! ### Starting work -/

theorem push (home : DriverKey) : Alike v { l with queue := l.queue ++ [home] }
    { l' with queue := l'.queue ++ [home] } :=
  { h with
    queue := by
      show (l.queue ++ [home]).filter _ = (l'.queue ++ [home]).filter _
      rw [List.filter_append, List.filter_append, h.queue] }

variable (spec : SchedulerSpec) {current : Option DriverKey}
  (hcurrent : ∀ key ∈ current, l.driver? key = l'.driver? key) {s : SchedulerId}
  (hnumbers : SameNumbers l l' s)
include hcurrent

omit h in
theorem spansOf_eq : l.spansOf current = l'.spansOf current := by
  cases current with
  | none => rfl
  | some key => simp only [spansOf, Option.bind_some, hcurrent key rfl]

include hnumbers

/-- With the next numbers the same, the same driver is entered. -/
theorem enter {owner : Owner} (howner : ∀ key, owner = .driver key → l.driver? key = l'.driver? key)
    (name : String) (job : Job Co) (activity : Activity Fu) :
    Alike v (l.enter spec current owner s name job activity).1
        (l'.enter spec current owner s name job activity).1 ∧
      (l.enter spec current owner s name job activity).2 =
        (l'.enter spec current owner s name job activity).2 := by
  obtain ⟨hkey, hid⟩ := hnumbers
  have hnext : (l.activeTasks s).nextId = (l'.activeTasks s).nextId := by
    simp only [ActiveTasks.nextId, hid]
  have hspans := spansOf_eq hcurrent
  have hdriver : (l.enter spec current owner s name job activity).2 =
      (l'.enter spec current owner s name job activity).2 := by
    have hlast : (l.setTasks s ((l.activeTasks s).register name)).lastKey =
        (l'.setTasks s ((l'.activeTasks s).register name)).lastKey := hkey
    have hspans' : (l.setTasks s ((l.activeTasks s).register name)).spansOf current =
        (l'.setTasks s ((l'.activeTasks s).register name)).spansOf current := hspans
    simp only [EventLoop.enter, register, hlast, hspans', hnext]
    cases owner with
    | driver key =>
      have hhome : (l.setTasks s ((l.activeTasks s).register name)).driver? key =
          (l'.setTasks s ((l'.activeTasks s).register name)).driver? key := howner key rfl
      simp only [hhome]
    | _ => rfl
  have htasks : Alike v (l.setTasks s ((l.activeTasks s).register name))
      (l'.setTasks s ((l'.activeTasks s).register name)) := by
    apply h.setTasks
    · simp only [ActiveTasks.register, List.filter_append, h.entries, hnext]
    · intro id hv
      simp only [ActiveTasks.outcome?_register]
      exact h.outcome ⟨s, id, name⟩ hv
  refine ⟨{ htasks with drivers := ?_ }, hdriver⟩
  show (l.drivers ++ [(l.enter spec current owner s name job activity).2]).filter _ =
    (l'.drivers ++ [(l'.enter spec current owner s name job activity).2]).filter _
  rw [List.filter_append, List.filter_append, h.drivers, hdriver]

theorem start (name : String) (co : Co) :
    Alike v (l.start spec current s name co).1 (l'.start spec current s name co).1 ∧
      (l.start spec current s name co).2 = (l'.start spec current s name co).2 := by
  have howner : ∀ key, Owner.loop = .driver key → l.driver? key = l'.driver? key := nofun
  have henter := h.enter spec hcurrent hnumbers howner name (.coroutine co 0 .put) .fresh
  revert henter
  unfold EventLoop.start
  rcases l.enter spec current .loop s name (.coroutine co 0 .put) .fresh with ⟨l₁, d₁⟩
  rcases l'.enter spec current .loop s name (.coroutine co 0 .put) .fresh with ⟨l₁', d₁'⟩
  rintro ⟨hl, hd⟩
  cases hd
  exact ⟨hl.push d₁.key, rfl⟩

theorem spawn (name : String) (fu : Fu) :
    Alike v (l.spawn spec current s name fu).1 (l'.spawn spec current s name fu).1 ∧
      (l.spawn spec current s name fu).2 = (l'.spawn spec current s name fu).2 := by
  have howner : ∀ key, Owner.loop = .driver key → l.driver? key = l'.driver? key := nofun
  have henter := h.enter spec hcurrent hnumbers howner name .plain (.pending (.unbegun fu))
  revert henter
  unfold EventLoop.spawn
  rcases l.enter spec current .loop s name .plain (.pending (.unbegun fu)) with ⟨l₁, d₁⟩
  rcases l'.enter spec current .loop s name .plain (.pending (.unbegun fu)) with ⟨l₁', d₁'⟩
  rintro ⟨hl, hd⟩
  cases hd
  exact ⟨(hl.setState d₁.task .running).push d₁.key, rfl⟩

theorem nest (name : String) (co : Co) :
    Alike v (l.nest spec current s name co).1 (l'.nest spec current s name co).1 ∧
      (l.nest spec current s name co).2 = (l'.nest spec current s name co).2 := by
  apply h.enter spec hcurrent hnumbers
  intro key hkey
  cases current with
  | none => cases hkey
  | some key' =>
    cases hkey
    exact hcurrent _ rfl

end

end Alike

end EventLoop

end EffectLoop
