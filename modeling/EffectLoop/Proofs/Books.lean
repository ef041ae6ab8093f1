import EffectLoop.Proofs.ActiveTasks
import EffectLoop.Loop.Act
import Mathlib.Data.List.Nodup
import Mathlib.Logic.Function.Basic

/-!
# The books of a loop

What a loop knows of its tasks, apart from how it works on them: the register of every scheduler
and the duties to settle, each held by one driver. Three things are ever posted in these books: a
task is entered together with a duty, a state is noted, or somebody attempts to decide an outcome.

* `Books.Balanced`: every active task is owed by exactly one duty, and the registers are sound.
  Every posting that uses up no foreign duty keeps it (`Books.Balanced.post`).
* `firstAttempt`: the outcome of a task is that of the first attempt on it
  (`Books.Sound.outcome_eq_firstAttempt`), and later attempts are refused and change no register
  (`Books.Sound.takes_iff`, `Books.tasks_post_of_not_takes`).

Nothing here says what a loop posts; that is `EventLoop.postings`.
-/

namespace EffectLoop

/-- What a list holds once under `f` is found there alone. -/
theorem filter_eq_singleton {α β : Type} [DecidableEq β] {f : α → β} {xs : List α}
    (h : (xs.map f).Nodup) {x : α} (hx : x ∈ xs) : xs.filter (fun y => f y = f x) = [x] := by
  induction xs with
  | nil => cases hx
  | cons y ys ih =>
    obtain ⟨hy, hys⟩ := List.nodup_cons.mp h
    rcases List.mem_cons.mp hx with rfl | hx
    · have hnone : ys.filter (fun y => f y = f x) = [] := by
        rw [List.filter_eq_nil_iff]
        intro y hmem he
        rw [decide_eq_true_eq] at he
        exact hy (he ▸ List.mem_map_of_mem hmem)
      rw [List.filter_cons_of_pos (by simp), hnone]
    · have hne : f y ≠ f x := fun he => hy (he ▸ List.mem_map_of_mem hx)
      rw [List.filter_cons_of_neg (by simpa using hne)]
      exact ih hys hx

/-- A driver's duty to settle a task. -/
structure Duty where
  key : DriverKey
  scheduler : SchedulerId
  id : TaskId
deriving DecidableEq

/-- An attempt to decide the outcome of a task. -/
inductive Attempt
  /-- The driver has an outcome of its own. -/
  | outcome (duty : Duty) (o : Outcome)
  /-- The driver went away without one. -/
  | abandon (duty : Duty)
  /-- Somebody ends the task early. -/
  | terminate (s : SchedulerId) (id : TaskId)

namespace Attempt

def scheduler : Attempt → SchedulerId
  | .outcome duty _ | .abandon duty => duty.scheduler
  | .terminate s _ => s

def id : Attempt → TaskId
  | .outcome duty _ | .abandon duty => duty.id
  | .terminate _ id => id

/-- The outcome a task gets if this attempt is the first. -/
def result : Attempt → Outcome
  | .outcome _ o => o
  | .abandon duty => .error (.abandoned duty.id)
  | .terminate _ id => .error (.terminated id)

/-- The duty that is used up, if the attempt is a driver's. -/
def duty? : Attempt → Option Duty
  | .outcome duty _ | .abandon duty => some duty
  | .terminate _ _ => none

end Attempt

/-- One entry in the books. -/
inductive Posting
  | enter (s : SchedulerId) (name : String)
  | note (s : SchedulerId) (id : TaskId) (state : TaskState)
  | attempt (a : Attempt)

namespace Posting

/-- The scheduler whose register is concerned. -/
def scheduler : Posting → SchedulerId
  | .enter s _ | .note s _ _ => s
  | .attempt a => a.scheduler

/-- What is done to the register. -/
def revise : Posting → ActiveTasks → ActiveTasks
  | .enter _ name, tasks => tasks.register name
  | .note _ id state, tasks => (tasks.setState id state).1
  | .attempt a, tasks => (tasks.settle a.id a.result).1

/-- What is decided about a task, if this is an attempt on it. -/
def outcomeFor (s : SchedulerId) (id : TaskId) : Posting → Option Outcome
  | .attempt a => if a.scheduler = s ∧ a.id = id then some a.result else none
  | _ => none

theorem sound_revise (x : Posting) {tasks : ActiveTasks} (h : tasks.Sound) :
    (x.revise tasks).Sound := by
  cases x with
  | enter s name => exact h.register name
  | note s id state => exact h.setState id state
  | attempt a => exact h.settle a.id a.result

/-- A posting that decides nothing about a task leaves it active. -/
theorem contains_revise {x : Posting} {tasks : ActiveTasks} {id : TaskId}
    (h : tasks.contains id = true) (hx : x.outcomeFor x.scheduler id = none) :
    (x.revise tasks).contains id = true := by
  cases x with
  | enter s name => exact (ActiveTasks.contains_register tasks name id).mpr (.inl h)
  | note s id' state => exact (ActiveTasks.contains_setState tasks id' id state).trans h
  | attempt a =>
    refine (ActiveTasks.contains_settle tasks a.id id a.result).mpr ⟨h, ?_⟩
    rintro rfl
    simp [outcomeFor, scheduler] at hx

/-- An outcome stays whatever is posted. -/
theorem outcome_revise (x : Posting) {tasks : ActiveTasks} (h : tasks.Sound) {id : TaskId}
    {o : Outcome} (ho : tasks.outcome? id = some o) : (x.revise tasks).outcome? id = some o := by
  cases x with
  | enter s name => exact ho
  | note s id' state => exact ho
  | attempt a =>
    show (tasks.settle a.id a.result).1.outcome? id = some o
    by_cases hid : id = a.id
    · subst hid
      rwa [ActiveTasks.settle_of_not_contains (h.not_contains_of_outcome ho)]
    · rwa [ActiveTasks.outcome?_settle_of_ne tasks hid]

/-- An attempt on an active task decides its outcome. -/
theorem outcome_revise_of_outcomeFor {x : Posting} {s : SchedulerId} {tasks : ActiveTasks}
    (h : tasks.Sound) {id : TaskId} {o : Outcome} (hc : tasks.contains id = true)
    (hx : x.outcomeFor s id = some o) :
    x.scheduler = s ∧ (x.revise tasks).outcome? id = some o := by
  cases x with
  | enter s name => exact nomatch hx
  | note s id' state => exact nomatch hx
  | attempt a =>
    obtain ⟨ha, ho⟩ := (Option.ite_none_right_eq_some).mp hx
    obtain ⟨rfl, rfl⟩ := ha
    cases ho
    exact ⟨rfl, ActiveTasks.outcome?_settle_self hc (h.outcome_eq_none hc) _⟩

theorem allotted_revise (x : Posting) (tasks : ActiveTasks) (id : TaskId) :
    (x.revise tasks).Allotted id ↔
      tasks.Allotted id ∨ (∃ s name, x = .enter s name) ∧ id = tasks.nextId := by
  cases x with
  | enter s name =>
    refine (ActiveTasks.allotted_register tasks name id).trans (or_congr_right ?_)
    exact ⟨fun h => ⟨⟨s, name, rfl⟩, h⟩, And.right⟩
  | note s id' state => exact iff_self_or.mpr fun ⟨⟨s', name, he⟩, _⟩ => nomatch he
  | attempt a =>
    have hlast : (tasks.settle a.id a.result).1.Allotted id ↔ tasks.Allotted id := by
      unfold ActiveTasks.Allotted
      rw [ActiveTasks.lastId_settle]
    exact hlast.trans (iff_self_or.mpr fun ⟨⟨s', name, he⟩, _⟩ => nomatch he)

end Posting

/-- The outcome that the first attempt on a task brings, if one is made. -/
def firstAttempt (s : SchedulerId) (id : TaskId) (ps : List Posting) : Option Outcome :=
  ps.findSome? (Posting.outcomeFor s id)

/-- The registers and the duties that are not used up. -/
@[ext] structure Books where
  tasks : SchedulerId → ActiveTasks := fun _ => {}
  duties : List Duty := []
  lastKey : Nat := 0

namespace Books

/-- The duties after a posting: a task is entered with the next key, and an attempt of a driver uses
its duty up. -/
def dutiesAfter (b : Books) : Posting → List Duty
  | .enter s _ => b.duties ++ [⟨⟨b.lastKey + 1⟩, s, (b.tasks s).nextId⟩]
  | .note _ _ _ => b.duties
  | .attempt a => b.duties.filter fun d => a.duty?.map Duty.key ≠ some d.key

/-- Make an entry. -/
def post (b : Books) (x : Posting) : Books where
  tasks := Function.update b.tasks x.scheduler (x.revise (b.tasks x.scheduler))
  duties := b.dutiesAfter x
  lastKey := match x with
    | .enter _ _ => b.lastKey + 1
    | _ => b.lastKey

/-- Make entries in order. -/
def postAll (b : Books) (ps : List Posting) : Books := ps.foldl post b

@[simp] theorem postAll_nil (b : Books) : b.postAll [] = b := rfl

@[simp] theorem postAll_cons (b : Books) (x : Posting) (ps : List Posting) :
    b.postAll (x :: ps) = (b.post x).postAll ps := rfl

theorem postAll_append (b : Books) (ps qs : List Posting) :
    b.postAll (ps ++ qs) = (b.postAll ps).postAll qs := List.foldl_append

/-- Keys are given out to the tasks that are entered, and to nothing else. -/
theorem lastKey_postAll (b : Books) {ps : List Posting} (h : ∀ x ∈ ps, ∀ s name, x ≠ .enter s name) :
    (b.postAll ps).lastKey = b.lastKey := by
  induction ps generalizing b with
  | nil => rfl
  | cons x ps ih =>
    rw [postAll_cons, ih (b.post x) fun y hy => h y (List.mem_cons_of_mem _ hy)]
    cases x with
    | enter s name => exact absurd rfl (h _ List.mem_cons_self s name)
    | note s id state => rfl
    | attempt a => rfl

theorem tasks_post_of_eq (b : Books) {x : Posting} {s : SchedulerId} (h : s = x.scheduler) :
    (b.post x).tasks s = x.revise (b.tasks s) := by
  subst h
  exact Function.update_self ..

theorem tasks_post_of_ne (b : Books) {x : Posting} {s : SchedulerId} (h : s ≠ x.scheduler) :
    (b.post x).tasks s = b.tasks s := Function.update_of_ne h ..

/-! ## Sound registers -/

/-- Every register is sound. -/
def Sound (b : Books) : Prop := ∀ s, (b.tasks s).Sound

theorem Sound.post {b : Books} (h : b.Sound) (x : Posting) : (b.post x).Sound := by
  intro s
  by_cases hs : s = x.scheduler
  · rw [tasks_post_of_eq b hs]
    exact x.sound_revise (h s)
  · rw [tasks_post_of_ne b hs]
    exact h s

theorem Sound.postAll {b : Books} (h : b.Sound) (ps : List Posting) : (b.postAll ps).Sound := by
  induction ps generalizing b with
  | nil => exact h
  | cons x ps ih => exact ih (h.post x)

/-! ## The first attempt decides -/

/-- What the register says to an attempt: whether the task is active. -/
def takes (b : Books) (a : Attempt) : Bool := (b.tasks a.scheduler).contains a.id

/-- An attempt that is refused changes no register. -/
theorem tasks_post_of_not_takes {b : Books} {a : Attempt} (h : b.takes a = false) :
    (b.post (.attempt a)).tasks = b.tasks := by
  have hr : (Posting.attempt a).revise (b.tasks a.scheduler) = b.tasks a.scheduler := by
    show ((b.tasks a.scheduler).settle a.id a.result).1 = _
    rw [ActiveTasks.settle_of_not_contains h]
  show Function.update b.tasks a.scheduler _ = b.tasks
  rw [Posting.scheduler, hr, Function.update_eq_self]

theorem contains_post {b : Books} {s : SchedulerId} {id : TaskId} {x : Posting}
    (h : (b.tasks s).contains id = true) (hx : x.outcomeFor s id = none) :
    ((b.post x).tasks s).contains id = true := by
  by_cases hs : s = x.scheduler
  · rw [tasks_post_of_eq b hs]
    exact Posting.contains_revise h (hs ▸ hx)
  · rwa [tasks_post_of_ne b hs]

theorem Sound.outcome_post {b : Books} (h : b.Sound) {s : SchedulerId} {id : TaskId} {o : Outcome}
    (ho : (b.tasks s).outcome? id = some o) (x : Posting) :
    ((b.post x).tasks s).outcome? id = some o := by
  by_cases hs : s = x.scheduler
  · rw [tasks_post_of_eq b hs]
    exact x.outcome_revise (h s) ho
  · rwa [tasks_post_of_ne b hs]

theorem Sound.outcome_postAll {b : Books} (h : b.Sound) {s : SchedulerId} {id : TaskId}
    {o : Outcome} (ho : (b.tasks s).outcome? id = some o) (ps : List Posting) :
    ((b.postAll ps).tasks s).outcome? id = some o := by
  induction ps generalizing b with
  | nil => exact ho
  | cons x ps ih => exact ih (h.post x) (h.outcome_post ho x)

/-- **The first attempt decides**: the outcome of a task that was active is that of the first
attempt on it since, and it has none as long as none is made. -/
theorem Sound.outcome_eq_firstAttempt {b : Books} (h : b.Sound) {s : SchedulerId} {id : TaskId}
    (hc : (b.tasks s).contains id = true) (ps : List Posting) :
    ((b.postAll ps).tasks s).outcome? id = firstAttempt s id ps := by
  induction ps generalizing b with
  | nil => exact (h s).outcome_eq_none hc
  | cons x ps ih =>
    rw [postAll_cons, firstAttempt, List.findSome?_cons]
    cases hx : x.outcomeFor s id with
    | none => exact ih (h.post x) (contains_post hc hx)
    | some o =>
      obtain ⟨hs, ho⟩ := Posting.outcome_revise_of_outcomeFor (h s) hc hx
      rw [← tasks_post_of_eq b hs.symm] at ho
      exact (h.post x).outcome_postAll ho ps

theorem allotted_post {b : Books} {s : SchedulerId} {id : TaskId} (x : Posting)
    (h : (b.tasks s).Allotted id) : ((b.post x).tasks s).Allotted id := by
  by_cases hs : s = x.scheduler
  · rw [tasks_post_of_eq b hs]
    exact (x.allotted_revise _ id).mpr (.inl h)
  · rwa [tasks_post_of_ne b hs]

theorem allotted_postAll {b : Books} {s : SchedulerId} {id : TaskId}
    (h : (b.tasks s).Allotted id) (ps : List Posting) : ((b.postAll ps).tasks s).Allotted id := by
  induction ps generalizing b with
  | nil => exact h
  | cons x ps ih => exact ih (allotted_post x h)

/-- A number is given out by the posting that enters its task. -/
theorem exists_enter {b : Books} {s : SchedulerId} {id : TaskId} {ps : List Posting}
    (hn : ¬ (b.tasks s).Allotted id) (ha : ((b.postAll ps).tasks s).Allotted id) :
    ∃ first name rest, ps = first ++ .enter s name :: rest ∧
      ((b.postAll first).tasks s).nextId = id := by
  induction ps generalizing b with
  | nil => exact absurd ha hn
  | cons x ps ih =>
    by_cases hx : ((b.post x).tasks s).Allotted id
    · by_cases hs : s = x.scheduler
      · rw [tasks_post_of_eq b hs] at hx
        rcases (x.allotted_revise _ id).mp hx with hx | ⟨⟨s', name, rfl⟩, hid⟩
        · exact absurd hx hn
        · subst hs
          exact ⟨[], name, ps, rfl, hid.symm⟩
      · rw [tasks_post_of_ne b hs] at hx
        exact absurd hx hn
    · obtain ⟨first, name, rest, rfl, hid⟩ := ih hx ha
      exact ⟨x :: first, name, rest, rfl, hid⟩

theorem contains_of_enter {b : Books} {s : SchedulerId} {id : TaskId}
    (hid : (b.tasks s).nextId = id) (name : String) :
    ((b.post (.enter s name)).tasks s).contains id = true := by
  rw [tasks_post_of_eq b (x := .enter s name) (s := s) rfl]
  exact (ActiveTasks.contains_register _ _ _).mpr (.inr hid.symm)

/-- The outcome of a task is that of the first attempt on it since it was entered. -/
theorem Sound.outcome_of_enter {b : Books} (h : b.Sound) {s : SchedulerId} {id : TaskId}
    (hid : (b.tasks s).nextId = id) (name : String) (ps : List Posting) :
    ((b.postAll (.enter s name :: ps)).tasks s).outcome? id = firstAttempt s id ps :=
  (h.post (.enter s name)).outcome_eq_firstAttempt (contains_of_enter hid name) ps

/-- Of the attempts on a task that was active the first is taken, and every later one is refused. -/
theorem Sound.takes_iff {b : Books} (h : b.Sound) {a : Attempt}
    (hc : (b.tasks a.scheduler).contains a.id = true) (ps : List Posting) :
    (b.postAll ps).takes a = true ↔ firstAttempt a.scheduler a.id ps = none := by
  rw [← h.outcome_eq_firstAttempt hc ps]
  exact (h.postAll ps a.scheduler).active_iff a.id
    (allotted_postAll ((h a.scheduler).allotted_of_contains a.id hc) ps)

/-- Once a first attempt has been made on a task, every later one is refused. -/
theorem Sound.not_takes_of_firstAttempt {b : Books} (h : b.Sound) {a : Attempt}
    (hid : (b.tasks a.scheduler).nextId = a.id) (name : String) {ps : List Posting}
    (hfirst : firstAttempt a.scheduler a.id ps ≠ none) :
    ((b.post (.enter a.scheduler name)).postAll ps).takes a = false := by
  rw [Bool.eq_false_iff, ne_eq]
  intro htakes
  refine hfirst ?_
  exact ((h.post (.enter a.scheduler name)).takes_iff (contains_of_enter hid name) ps).mp htakes

/-! ## Balanced books -/

/-- Every active task is owed by exactly one duty. -/
structure Balanced (b : Books) : Prop where
  sound : b.Sound
  keys : (b.duties.map Duty.key).Nodup
  bounded : ∀ d ∈ b.duties, d.key.val ≤ b.lastKey
  distinct : (b.duties.map fun d => (d.scheduler, d.id)).Nodup
  allotted : ∀ d ∈ b.duties, (b.tasks d.scheduler).Allotted d.id
  owed : ∀ s id, (b.tasks s).contains id = true → ∃ d ∈ b.duties, d.scheduler = s ∧ d.id = id

/-- A posting uses up no duty but the one it names. -/
def Admits (b : Books) : Posting → Prop
  | .attempt a => ∀ duty, a.duty? = some duty → ∀ d ∈ b.duties, d.key = duty.key → d = duty
  | _ => True

/-- Every posting in order uses up no duty but the one it names. -/
def AdmitsAll : Books → List Posting → Prop
  | _, [] => True
  | b, x :: ps => b.Admits x ∧ AdmitsAll (b.post x) ps

theorem Balanced.empty : Balanced {} where
  sound := fun _ => .empty
  keys := List.nodup_nil
  bounded := fun _ h => absurd h List.not_mem_nil
  distinct := List.nodup_nil
  allotted := fun _ h => absurd h List.not_mem_nil
  owed := fun _ _ h => nomatch h

/-- A duty after an attempt is one of those before. -/
theorem mem_of_mem_duties_attempt {b : Books} {a : Attempt} {d : Duty}
    (h : d ∈ (b.post (.attempt a)).duties) : d ∈ b.duties := (List.mem_filter.mp h).1

namespace Balanced

variable {b : Books}

/-- A key names one duty. -/
theorem eq_of_key (h : b.Balanced) {d d' : Duty} (hd : d ∈ b.duties) (hd' : d' ∈ b.duties)
    (hk : d.key = d'.key) : d = d' :=
  List.inj_on_of_nodup_map h.keys hd hd' hk

theorem enter (h : b.Balanced) (s : SchedulerId) (name : String) :
    (b.post (.enter s name)).Balanced where
  sound := h.sound.post _
  keys := by
    show ((b.duties ++ [_]).map Duty.key).Nodup
    rw [List.map_append, List.nodup_append]
    refine ⟨h.keys, List.pairwise_singleton _ _, ?_⟩
    intro k hk k' hk' he
    obtain ⟨d, hd, rfl⟩ := List.mem_map.mp hk
    have hle := h.bounded d hd
    rw [List.map_singleton, List.mem_singleton] at hk'
    rw [he, hk'] at hle
    exact Nat.not_succ_le_self _ hle
  bounded := by
    intro d hd
    rcases List.mem_append.mp hd with hd | hd
    · exact Nat.le_succ_of_le (h.bounded d hd)
    · rw [List.mem_singleton.mp hd]
      exact Nat.le_refl _
  distinct := by
    show ((b.duties ++ [_]).map fun d : Duty => (d.scheduler, d.id)).Nodup
    rw [List.map_append, List.nodup_append]
    refine ⟨h.distinct, List.pairwise_singleton _ _, ?_⟩
    intro t ht t' ht' he
    obtain ⟨d, hd, rfl⟩ := List.mem_map.mp ht
    have ha := h.allotted d hd
    rw [List.map_singleton, List.mem_singleton] at ht'
    obtain ⟨hs, hi⟩ := Prod.mk.inj (he.trans ht')
    rw [hs, hi] at ha
    exact ActiveTasks.nextId_not_allotted _ ha
  allotted := by
    intro d hd
    rcases List.mem_append.mp hd with hd | hd
    · exact allotted_post _ (h.allotted d hd)
    · rw [List.mem_singleton.mp hd]
      show ((b.post (.enter s name)).tasks s).Allotted (b.tasks s).nextId
      rw [tasks_post_of_eq b (x := .enter s name) (s := s) rfl]
      exact (ActiveTasks.allotted_register _ _ _).mpr (.inr rfl)
  owed := by
    intro s' id hc
    by_cases hs : s' = s
    · rw [tasks_post_of_eq b (x := .enter s name) hs] at hc
      subst hs
      rcases (ActiveTasks.contains_register _ _ _).mp hc with hc | rfl
      · obtain ⟨d, hd, hown⟩ := h.owed s' id hc
        exact ⟨d, List.mem_append_left _ hd, hown⟩
      · exact ⟨_, List.mem_append_right _ List.mem_cons_self, rfl, rfl⟩
    · rw [tasks_post_of_ne b (x := .enter s name) hs] at hc
      obtain ⟨d, hd, hown⟩ := h.owed s' id hc
      exact ⟨d, List.mem_append_left _ hd, hown⟩

theorem note (h : b.Balanced) (s : SchedulerId) (id : TaskId) (state : TaskState) :
    (b.post (.note s id state)).Balanced where
  sound := h.sound.post _
  keys := h.keys
  bounded := h.bounded
  distinct := h.distinct
  allotted := fun d hd => allotted_post _ (h.allotted d hd)
  owed := by
    intro s' id' hc
    refine h.owed s' id' ?_
    by_cases hs : s' = s
    · rw [tasks_post_of_eq b (x := .note s id state) hs] at hc
      exact (ActiveTasks.contains_setState _ _ _ _).symm.trans hc
    · rwa [tasks_post_of_ne b (x := .note s id state) hs] at hc

theorem attempt (h : b.Balanced) {a : Attempt} (ha : b.Admits (.attempt a)) :
    (b.post (.attempt a)).Balanced where
  sound := h.sound.post _
  keys := h.keys.sublist (List.filter_sublist.map _)
  bounded := fun d hd => h.bounded d (mem_of_mem_duties_attempt hd)
  distinct := h.distinct.sublist (List.filter_sublist.map _)
  allotted := fun d hd => allotted_post _ (h.allotted d (mem_of_mem_duties_attempt hd))
  owed := by
    intro s id hc
    have hkept : (b.tasks s).contains id = true ∧ ¬ (s = a.scheduler ∧ id = a.id) := by
      by_cases hs : s = a.scheduler
      · rw [tasks_post_of_eq b (x := .attempt a) hs] at hc
        obtain ⟨hc, hid⟩ := (ActiveTasks.contains_settle _ _ _ _).mp hc
        exact ⟨hc, fun hn => hid hn.2⟩
      · rw [tasks_post_of_ne b (x := .attempt a) hs] at hc
        exact ⟨hc, fun hn => hs hn.1⟩
    obtain ⟨d, hd, rfl, rfl⟩ := h.owed s id hkept.1
    refine ⟨d, List.mem_filter.mpr ⟨hd, ?_⟩, rfl, rfl⟩
    -- the duty that is used up is for the task that was attempted, so it is not this one
    rw [decide_eq_true_eq]
    intro hk
    obtain ⟨duty, hduty, hkey⟩ := Option.map_eq_some_iff.mp hk
    have he := ha duty hduty d hd hkey.symm
    subst he
    apply hkept.2
    cases a with
    | outcome duty o => cases hduty; exact ⟨rfl, rfl⟩
    | abandon duty => cases hduty; exact ⟨rfl, rfl⟩
    | terminate s id => cases hduty

theorem post (h : b.Balanced) {x : Posting} (hx : b.Admits x) : (b.post x).Balanced := by
  cases x with
  | enter s name => exact h.enter s name
  | note s id state => exact h.note s id state
  | attempt a => exact h.attempt hx

theorem postAll (h : b.Balanced) {ps : List Posting} (hps : b.AdmitsAll ps) :
    (b.postAll ps).Balanced := by
  induction ps generalizing b with
  | nil => exact h
  | cons x ps ih => exact ih (h.post hps.1) hps.2

/-- An attempt on a duty in the books uses up no other. -/
theorem admits_of_mem (h : b.Balanced) {a : Attempt} {duty : Duty} (ha : a.duty? = some duty)
    (hd : duty ∈ b.duties) : b.Admits (.attempt a) := by
  intro duty' hduty' d hmem hk
  rw [ha] at hduty'
  cases hduty'
  exact h.eq_of_key hmem hd hk

end Balanced

/-- Attempts that use up no foreign duty at the start do not do so on the way either. -/
theorem admitsAll_of_attempts {b : Books} {as : List Attempt}
    (h : ∀ a ∈ as, b.Admits (.attempt a)) : b.AdmitsAll (as.map .attempt) := by
  induction as generalizing b with
  | nil => trivial
  | cons a as ih =>
    refine ⟨h a List.mem_cons_self, ih fun a' ha' duty hduty d hd hk => ?_⟩
    exact h a' (List.mem_cons_of_mem _ ha') duty hduty d (mem_of_mem_duties_attempt hd) hk

end Books

end EffectLoop
