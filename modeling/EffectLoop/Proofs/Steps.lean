import EffectLoop.Proofs.Run

/-!
# What a step can do

`EventLoop.stepDriver` has a branch for everything a driver may be about to do. Most of what is said
of runs needs less: which driver is in focus after the step, what it does next, and which drivers
are touched. This module says that much once.

* `Spares`: a change takes drivers away and adds new ones, and leaves the others as they are. All
  operations of the loop but `modifyDriver` do only that.
* `ComputingStep`: what a driver that processes an effect can do in one step
  (`computingStep_of_computes`).
-/

namespace EffectLoop

variable {Co Fu α : Type}

/-- The act begins with a request: there is something for the loop to carry out. -/
def Act.asks : Act Co Fu α → Bool
  | .ret _ | .panic => false
  | _ => true

/-- The driver has a computation under way: it processes an effect of its coroutine, or it is a
plain computation. At the root of the computation `process` comes before it. -/
def Doing.computes : Doing Co Fu → Bool
  | .process _ _ ⟨[], []⟩ => false
  | .visit _ _ | .work _ _ | .process _ _ _ | .invoke _ _ _ _ | .dispatch _ _ | .await _ _
  | .answer _ _ | .pause _ _ => true
  | _ => false

/-- The driver that polls. -/
def Poller.key? : Poller Co Fu → Option DriverKey
  | .waiting key _ | .body key _ => some key
  | .hand => none

/-- A driver guards its own task and is younger than the driver it is nested in. -/
structure Driver.Proper (d : Driver Co Fu) : Prop where
  guard : d.guard.id = d.task.id
  owner : ∀ key, d.owner = .driver key → key.val < d.key.val

/-- The coroutine of the driver was never resumed, or its computation never begun. -/
def Driver.Unbegun (d : Driver Co Fu) : Prop :=
  match d.job with
  | .coroutine _ passes _ => passes = 0 ∧ d.activity = .fresh
  | .plain => ∃ fu, d.activity = .pending (.unbegun fu)

namespace EventLoop

/-! ## Drivers that are left alone -/

/-- The driver was entered between two states. -/
def NewTo (l l' : EventLoop Co Fu) (d : Driver Co Fu) : Prop :=
  l.lastKey < d.key.val ∧ d.key.val ≤ l'.lastKey ∧ d.Proper

/-- Between two states drivers go away and new ones are entered, and nothing else happens to them. -/
structure Spares (l l' : EventLoop Co Fu) : Prop where
  old_or_new : ∀ d ∈ l'.drivers, d ∈ l.drivers ∨ NewTo l l' d ∧ d.Unbegun
  lastKey_le : l.lastKey ≤ l'.lastKey

namespace Spares

variable {l l' l'' : EventLoop Co Fu}

theorem of_subset (hd : l'.drivers ⊆ l.drivers) (hk : l'.lastKey = l.lastKey) : Spares l l' where
  old_or_new := fun _ h => .inl (hd h)
  lastKey_le := Nat.le_of_eq hk.symm

theorem of_eq (hd : l'.drivers = l.drivers) (hk : l'.lastKey = l.lastKey) : Spares l l' :=
  of_subset (fun _ h => hd ▸ h) hk

theorem refl (l : EventLoop Co Fu) : Spares l l := of_eq rfl rfl

theorem trans (h : Spares l l') (h' : Spares l' l'') : Spares l l'' where
  old_or_new := by
    intro d hd
    have hle := h.lastKey_le
    have hle' := h'.lastKey_le
    rcases h'.old_or_new d hd with hd | ⟨⟨hlt, hb, hp⟩, hn⟩
    · rcases h.old_or_new d hd with hd | ⟨⟨hlt, hb, hp⟩, hn⟩
      · exact .inl hd
      · exact .inr ⟨⟨hlt, by omega, hp⟩, hn⟩
    · exact .inr ⟨⟨by omega, hb, hp⟩, hn⟩
  lastKey_le := Nat.le_trans h.lastKey_le h'.lastKey_le

end Spares

theorem spares_settle (l : EventLoop Co Fu) (d : Driver Co Fu)
    (act : ActiveTasks → ActiveTasks × Bool) : Spares l (l.settle d act).1 := by
  unfold settle
  split
  split
  · exact .of_eq rfl rfl
  · exact .of_eq rfl rfl

theorem spares_terminate (l : EventLoop Co Fu) (spans : List Span) (s : SchedulerId)
    (id : TaskId) : Spares l (l.terminate spans s id).1 := by
  unfold terminate
  split
  split
  · exact .of_eq rfl rfl
  · exact .refl l

theorem spares_abandon (l : EventLoop Co Fu) (d : Driver Co Fu) : Spares l (l.abandon d) := by
  refine (l.spares_settle d d.guard.drop).trans ?_
  unfold abandon
  split
  rename_i l' active h
  rw [h]
  split
  · exact .of_subset List.filter_sublist.subset rfl
  · exact .of_subset List.filter_sublist.subset rfl

theorem spares_foldl_abandon (ds : List (Driver Co Fu)) (l : EventLoop Co Fu) :
    Spares l (ds.foldl abandon l) := by
  induction ds generalizing l with
  | nil => exact .refl l
  | cons d ds ih => exact (l.spares_abandon d).trans (ih _)

theorem spares_dropNested (l : EventLoop Co Fu) (key : DriverKey) : Spares l (l.dropNested key) :=
  spares_foldl_abandon ..

theorem spares_crash (l : EventLoop Co Fu) (home : DriverKey) : Spares l (l.crash home) :=
  (l.spares_foldl_abandon _).trans (.of_eq rfl rfl)

theorem spares_conclude (l : EventLoop Co Fu) (d : Driver Co Fu) (o : Outcome) :
    Spares l (l.conclude d o) := by
  have hrecord : Spares l (l.recordOutcome d o) := by
    cases o <;> exact .of_eq rfl rfl
  refine (hrecord.trans (spares_settle _ d (d.guard.settle o))).trans ?_
  refine .trans ?_ (spares_dropNested _ d.key)
  exact .of_subset List.filter_sublist.subset rfl

theorem spares_enter (l : EventLoop Co Fu) (spec : SchedulerSpec) (current : Option DriverKey)
    (owner : Owner) (howner : ∀ key, owner = .driver key → key.val ≤ l.lastKey)
    (s : SchedulerId) (name : String) {job : Job Co} {activity : Activity Fu}
    (h : (job = .plain ∧ ∃ fu, activity = .pending (.unbegun fu)) ∨
      activity = .fresh ∧ ∃ co, job = .coroutine co 0 .put) :
    Spares l (l.enter spec current owner s name job activity).1 where
  old_or_new := by
    intro d hd
    rcases List.mem_append.mp hd with hd | hd
    · exact .inl hd
    · rw [List.mem_singleton.mp hd]
      refine .inr ⟨⟨Nat.lt_succ_self _, Nat.le_refl _, rfl, fun key hkey => ?_⟩, ?_⟩
      · exact Nat.lt_succ_of_le (howner key hkey)
      · rcases h with ⟨rfl, fu, rfl⟩ | ⟨rfl, co, rfl⟩
        · exact ⟨fu, rfl⟩
        · exact ⟨rfl, rfl⟩
  lastKey_le := Nat.le_succ _

theorem spares_start (l : EventLoop Co Fu) (spec : SchedulerSpec) (current : Option DriverKey)
    (s : SchedulerId) (name : String) (co : Co) : Spares l (l.start spec current s name co).1 :=
  (l.spares_enter spec current .loop (fun _ h => nomatch h) s name (.inr ⟨rfl, co, rfl⟩)).trans
    (.of_eq rfl rfl)

theorem spares_spawn (l : EventLoop Co Fu) (spec : SchedulerSpec) (current : Option DriverKey)
    (s : SchedulerId) (name : String) (fu : Fu) : Spares l (l.spawn spec current s name fu).1 :=
  (l.spares_enter spec current .loop (fun _ h => nomatch h) s name
    (.inl ⟨rfl, fu, rfl⟩)).trans (.of_eq rfl rfl)

theorem spares_nest (l : EventLoop Co Fu) (spec : SchedulerSpec) {current : Option DriverKey}
    (hc : ∀ key ∈ current, key.val ≤ l.lastKey) (s : SchedulerId) (name : String) (co : Co) :
    Spares l (l.nest spec current s name co).1 := by
  refine l.spares_enter spec current _ ?_ s name (.inr ⟨rfl, co, rfl⟩)
  intro key hkey
  cases current with
  | none => cases hkey
  | some k =>
    cases hkey
    exact hc _ rfl

theorem spares_openGate (l : EventLoop Co Fu) (name : String) (v : Json) :
    Spares l (l.openGate name v) := by
  unfold openGate
  split
  · exact .refl l
  · exact .of_eq rfl rfl

theorem spares_perform (p : Program Co Fu) (l : EventLoop Co Fu) (current : Option DriverKey)
    (hc : ∀ key ∈ current, key.val ≤ l.lastKey) (a : Act Co Fu α) :
    Spares l (l.perform p current a).1 := by
  cases a with
  | ask q k =>
    cases q with
    | openGate name v => exact l.spares_openGate name v
    | terminate s id => exact l.spares_terminate _ s id
    | _ => exact .of_eq rfl rfl
  | start s name co k => exact l.spares_start _ current s name co
  | spawn s name fu k => exact l.spares_spawn _ current s name fu
  | nest s name co k => exact l.spares_nest _ hc s name co
  | _ => exact .refl l

theorem spares_wait (l : EventLoop Co Fu) (pollers : List (Poller Co Fu)) (d : Driver Co Fu)
    (w : Wait) : Spares l (l.wait pollers d w) := by
  unfold wait
  split
  · split
    · exact .of_eq rfl rfl
    · exact .refl l
    · exact .refl l
    · exact .of_eq rfl rfl
  · exact .refl l

/-- What keeps the drivers and moves the focus spares them. -/
theorem Spares.focusOn {l l' : EventLoop Co Fu} (h : Spares l l') (pollers : List (Poller Co Fu))
    (key : DriverKey) (doing : Doing Co Fu) : Spares l (l'.focusOn pollers key doing) :=
  h.trans (.of_eq rfl rfl)

/-- A driver after the driver `key` was modified. -/
theorem mem_modifyDriver {l : EventLoop Co Fu} {key : DriverKey} {f : Driver Co Fu → Driver Co Fu}
    {d : Driver Co Fu} (h : d ∈ (l.modifyDriver key f).drivers) :
    ∃ d₀ ∈ l.drivers, d = if d₀.key = key then f d₀ else d₀ := by
  obtain ⟨d₀, hd₀, rfl⟩ := List.mem_map.mp h
  exact ⟨d₀, hd₀, rfl⟩

/-! ## Steps of one driver -/

/-- Between two states the driver `key` may come to another job or activity, but it stays the driver
of its task, and the other drivers are spared. -/
structure Touches (key : DriverKey) (l l' : EventLoop Co Fu) : Prop where
  old_or_new : ∀ d ∈ l'.drivers, d ∈ l.drivers ∨
    (d.key = key ∧ ∃ d₀ ∈ l.drivers, d = { d₀ with job := d.job, activity := d.activity }) ∨
      NewTo l l' d ∧ d.Unbegun
  lastKey_le : l.lastKey ≤ l'.lastKey

namespace Touches

variable {key : DriverKey} {l l' l'' : EventLoop Co Fu}

theorem of_spares (h : Spares l l') : Touches key l l' where
  old_or_new := fun d hd => (h.old_or_new d hd).imp_right .inr
  lastKey_le := h.lastKey_le

theorem trans (hk : key.val ≤ l.lastKey) (h : Touches key l l') (h' : Touches key l' l'') :
    Touches key l l'' where
  old_or_new := by
    intro d hd
    have hle := h.lastKey_le
    have hle' := h'.lastKey_le
    have hnew : ∀ x, NewTo l l' x → NewTo l l'' x := fun x ⟨hlt, hb, hp⟩ =>
      ⟨hlt, Nat.le_trans hb hle', hp⟩
    rcases h'.old_or_new d hd with hd | ⟨hkey, d₁, hd₁, he₁⟩ | ⟨⟨hlt, hb, hp⟩, hn⟩
    · exact (h.old_or_new d hd).imp_right (.imp_right fun hn => ⟨hnew d hn.1, hn.2⟩)
    · have hkey₁ : d₁.key = key := by rw [← hkey, he₁]
      rcases h.old_or_new d₁ hd₁ with hd₁ | ⟨_, d₀, hd₀, he₀⟩ | ⟨⟨hlt, _⟩, _⟩
      · exact .inr (.inl ⟨hkey, d₁, hd₁, he₁⟩)
      · refine .inr (.inl ⟨hkey, d₀, hd₀, ?_⟩)
        rw [he₁, he₀]
      · rw [hkey₁] at hlt
        omega
    · exact .inr (.inr ⟨⟨Nat.lt_of_le_of_lt hle hlt, hb, hp⟩, hn⟩)
  lastKey_le := Nat.le_trans h.lastKey_le h'.lastKey_le

/-- A driver that was there before and is not the one touched is as it was. -/
theorem mem_of_ne (h : Touches key l l') {d : Driver Co Fu} (hd : d ∈ l'.drivers)
    (hne : d.key ≠ key) (hold : d.key.val ≤ l.lastKey) : d ∈ l.drivers := by
  rcases h.old_or_new d hd with hd | ⟨hkey, _⟩ | ⟨⟨hlt, _⟩, _⟩
  · exact hd
  · exact absurd hkey hne
  · omega

theorem modify (l : EventLoop Co Fu) (key : DriverKey) {f : Driver Co Fu → Driver Co Fu}
    (hf : ∀ d, f d = { d with job := (f d).job, activity := (f d).activity }) :
    Touches key l (l.modifyDriver key f) where
  old_or_new := by
    intro d hd
    obtain ⟨d₀, hd₀, rfl⟩ := mem_modifyDriver hd
    by_cases hkey : d₀.key = key
    · rw [if_pos hkey]
      refine .inr (.inl ⟨?_, d₀, hd₀, hf d₀⟩)
      rw [hf d₀]
      exact hkey
    · rw [if_neg hkey]
      exact .inl hd₀
  lastKey_le := Nat.le_refl _

theorem setActivity (l : EventLoop Co Fu) (key : DriverKey) (activity : Activity Fu) :
    Touches key l (l.setActivity key activity) := modify l key fun _ => rfl

theorem setJob (l : EventLoop Co Fu) (key : DriverKey) (job : Job Co) :
    Touches key l (l.setJob key job) := modify l key fun _ => rfl

end Touches

/-! ## Acts -/

section

variable (p : Program Co Fu) (l : EventLoop Co Fu) (pollers : List (Poller Co Fu))
  (d : Driver Co Fu)

theorem stepDriver_advance {a : Act Co Fu (Progress Co)} (h : a.asks = true) :
    l.stepDriver p pollers d (.advance a) =
      (l.perform p (some d.key) a).1.focusOn pollers d.key
        (.advance (l.perform p (some d.key) a).2) := by
  cases a <;> first | rfl | cases h

theorem stepDriver_work {a : Act Co Fu (Await Fu)} (h : a.asks = true) (spot : Spot Fu) :
    l.stepDriver p pollers d (.work a spot) =
      (l.perform p (some d.key) a).1.focusOn pollers d.key
        (.work (l.perform p (some d.key) a).2 spot) := by
  cases a <;> first | rfl | cases h

theorem stepDriver_invoke (b : Builtin) (target : Target) {a : Act Co Fu (Invoked Co Fu)}
    (h : a.asks = true) (spot : Spot Fu) :
    l.stepDriver p pollers d (.invoke b target a spot) =
      (l.perform p (some d.key) a).1.focusOn pollers d.key
        (.invoke b target (l.perform p (some d.key) a).2 spot) := by
  cases a <;> first | rfl | cases h

theorem stepDriver_dispatch {a : Act Co Fu Json} (h : a.asks = true) (spot : Spot Fu) :
    l.stepDriver p pollers d (.dispatch a spot) =
      (l.perform p (some d.key) a).1.focusOn pollers d.key
        (.dispatch (l.perform p (some d.key) a).2 spot) := by
  cases a <;> first | rfl | cases h

/-! ## Waits -/

/-- A wait that is begun: a nested driver is polled, or the wait is over at once, or the branch
rests. -/
theorem stepDriver_await (w : Wait) (spot : Spot Fu) :
    (∃ key, w = .nested key ∧ l.stepDriver p pollers d (.await w spot) =
      l.focusOn (.waiting d.key spot :: pollers) key .poll) ∨
    (∃ r, l.peek w = some r ∧ l.stepDriver p pollers d (.await w spot) =
      l.focusOn pollers d.key (.answer r spot)) ∨
    (l.peek w = none ∧ l.stepDriver p pollers d (.await w spot) =
      (l.wait pollers d w).focusOn pollers d.key
        (.pause (.waiting w spot.frames) spot.forks)) := by
  by_cases hw : ∃ key, w = .nested key
  · obtain ⟨key, rfl⟩ := hw
    exact .inl ⟨key, rfl, rfl⟩
  · cases hpeek : l.peek w with
    | some r =>
      refine .inr (.inl ⟨r, rfl, ?_⟩)
      cases w with
      | nested key => exact absurd ⟨key, rfl⟩ hw
      | _ => simp only [stepDriver, hpeek]
    | none =>
      refine .inr (.inr ⟨rfl, ?_⟩)
      cases w with
      | nested key => exact absurd ⟨key, rfl⟩ hw
      | _ => simp only [stepDriver, hpeek]

/-- A wait that is taken up again at the next poll. -/
theorem stepDriver_visit_waiting (w : Wait) (frames : List (Frame Fu)) (forks : List (Fork Fu)) :
    (∃ key, w = .nested key ∧ l.stepDriver p pollers d (.visit (.waiting w frames) forks) =
      l.focusOn (.waiting d.key ⟨frames, forks⟩ :: pollers) key .poll) ∨
    (∃ r, (w = .turn ∨ l.peek w = some r) ∧
      l.stepDriver p pollers d (.visit (.waiting w frames) forks) =
        l.focusOn pollers d.key (.answer r ⟨frames, forks⟩)) ∨
    (l.peek w = none ∧ l.stepDriver p pollers d (.visit (.waiting w frames) forks) =
      l.focusOn pollers d.key (.pause (.waiting w frames) forks)) := by
  by_cases hn : ∃ key, w = .nested key
  · obtain ⟨key, rfl⟩ := hn
    exact .inl ⟨key, rfl, rfl⟩
  by_cases ht : w = .turn
  · subst ht
    exact .inr (.inl ⟨_, .inl rfl, rfl⟩)
  · cases hpeek : l.peek w with
    | some r =>
      refine .inr (.inl ⟨r, .inr rfl, ?_⟩)
      cases w with
      | nested key => exact absurd ⟨key, rfl⟩ hn
      | turn => exact absurd rfl ht
      | _ => simp only [stepDriver, hpeek]
    | none =>
      refine .inr (.inr ⟨rfl, ?_⟩)
      cases w with
      | nested key => exact absurd ⟨key, rfl⟩ hn
      | turn => exact absurd rfl ht
      | _ => simp only [stepDriver, hpeek]

/-! ## Computing -/

/-- What a driver that computes can do in one step: go on computing, poll a nested driver, rest, or
panic. -/
inductive ComputingStep : EventLoop Co Fu → Prop
  | on {l' : EventLoop Co Fu} {doing : Doing Co Fu} (hl : Spares l l')
      (hd : doing.computes = true) : ComputingStep (l'.focusOn pollers d.key doing)
  | nested (key : DriverKey) (spot : Spot Fu) :
      ComputingStep (l.focusOn (.waiting d.key spot :: pollers) key .poll)
  | rest (branch : Branch Fu) :
      ComputingStep ((l.setActivity d.key (.pending branch)).focusOn pollers d.key (.leave none))
  | panic : ComputingStep (l.focusOn pollers d.key .crash)

variable {l pollers d}

theorem current_le (hd : d.key.val ≤ l.lastKey) : ∀ key ∈ some d.key, key.val ≤ l.lastKey := by
  rintro _ ⟨⟩
  exact hd

theorem ComputingStep.here {doing : Doing Co Fu} (h : doing.computes = true) :
    ComputingStep l pollers d (l.focusOn pollers d.key doing) := .on (.refl l) h

theorem builtinDoing_computes (b : Builtin) (e : Effect) (spot : Spot Fu) :
    (builtinDoing p b e spot).computes = true := by
  cases b <;> cases e <;> rfl

theorem computingStep_stepInvoked (hd : d.key.val ≤ l.lastKey) (b : Builtin) (target : Target)
    (spot : Spot Fu) (invoked : Invoked Co Fu) :
    ComputingStep l pollers d (l.stepInvoked p pollers d b target spot invoked) := by
  cases invoked with
  | pending fu =>
    cases b with
    | fork => exact .on (l.spares_spawn ..) rfl
    | _ => exact .here rfl
  | coroutine co =>
    cases b with
    | fork => exact .on (l.spares_start ..) rfl
    | _ => exact .on (l.spares_nest _ (current_le hd) ..) rfl

/-- An answer below the root of the computation goes on through the frames and forks. -/
theorem computingStep_stepAnswer (r : Resume) {spot : Spot Fu} (h : spot ≠ {}) :
    ComputingStep l pollers d (l.stepAnswer p pollers d r spot) := by
  obtain ⟨frames, forks⟩ := spot
  cases frames with
  | cons frame frames => cases frame <;> exact .here rfl
  | nil =>
    cases forks with
    | nil => exact absurd rfl h
    | cons fork forks =>
      cases fork with
      | left right k frames => exact .here rfl
      | right left k frames => cases left <;> exact .here rfl

theorem computingStep_visit (branch : Branch Fu) (forks : List (Fork Fu)) :
    ComputingStep l pollers d (l.stepDriver p pollers d (.visit branch forks)) := by
  cases branch with
  | waiting w frames =>
    rcases l.stepDriver_visit_waiting p pollers d w frames forks with
      ⟨key, _, h⟩ | ⟨r, _, h⟩ | ⟨_, h⟩
    · exact h ▸ .nested key _
    · exact h ▸ .here rfl
    · exact h ▸ .here rfl
  | _ => exact .here rfl

theorem computingStep_await (w : Wait) (spot : Spot Fu) :
    ComputingStep l pollers d (l.stepDriver p pollers d (.await w spot)) := by
  rcases l.stepDriver_await p pollers d w spot with ⟨key, _, h⟩ | ⟨r, _, h⟩ | ⟨_, h⟩
  · exact h ▸ .nested key _
  · exact h ▸ .here rfl
  · exact h ▸ .on (l.spares_wait pollers d w) rfl

theorem computingStep_process (ref : ProcessorRef) (e : Effect) (spot : Spot Fu) :
    ComputingStep l pollers d (l.stepDriver p pollers d (.process ref e spot)) := by
  cases ref with
  | builtin b => exact .here (builtinDoing_computes p b e spot)
  | own number => exact .here rfl

/-- **A step of a driver that computes**, unless its computation has just come to its answer. -/
theorem computingStep_of_computes (hd : d.key.val ≤ l.lastKey) {doing : Doing Co Fu}
    (h : doing.computes = true) (hroot : ∀ r, doing ≠ .answer r {}) :
    ComputingStep l pollers d (l.stepDriver p pollers d doing) := by
  cases doing with
  | visit branch forks => exact computingStep_visit p branch forks
  | work a spot =>
    cases a with
    | ret await => cases await <;> exact .here rfl
    | panic => exact .panic
    | _ =>
      rw [stepDriver_work p l pollers d rfl]
      exact .on (l.spares_perform p _ (current_le hd) _) rfl
  | process ref e spot => exact computingStep_process p ref e spot
  | invoke b target a spot =>
    cases a with
    | ret invoked => exact computingStep_stepInvoked p hd b target spot invoked
    | panic => exact .panic
    | _ =>
      rw [stepDriver_invoke p l pollers d b target rfl]
      exact .on (l.spares_perform p _ (current_le hd) _) rfl
  | dispatch a spot =>
    cases a with
    | ret v => exact .here rfl
    | panic => exact .panic
    | _ =>
      rw [stepDriver_dispatch p l pollers d rfl]
      exact .on (l.spares_perform p _ (current_le hd) _) rfl
  | await w spot => exact computingStep_await p w spot
  | answer r spot => exact computingStep_stepAnswer p r fun hs => hroot r (hs ▸ rfl)
  | pause branch forks =>
    cases forks with
    | nil => exact .rest branch
    | cons fork forks => cases fork <;> exact .here rfl
  | _ => cases h

/-! ## The drivers after a move -/

variable (l pollers d)

/-- A computation has come to its answer: the coroutine is resumed with it, or it is the outcome of a
plain computation. -/
theorem stepAnswer_root (r : Resume) :
    ∃ l' doing, Spares l l' ∧ l.stepAnswer p pollers d r {} = l'.focusOn pollers d.key doing := by
  show ∃ l' doing, _ ∧ l.stepAnswer p pollers d r ⟨[], []⟩ = _
  unfold stepAnswer
  dsimp only
  split
  · exact ⟨l.record d.spans .debug .scheduler _ _, _, .of_eq rfl rfl, rfl⟩
  · exact ⟨l, _, .refl l, rfl⟩
  · exact ⟨l, _, .refl l, rfl⟩

theorem touches_stepYield (hd : d.key.val ≤ l.lastKey) (passes : Nat) (kind : EffectKind) (co : Co)
    (y : Yielded) : Touches d.key l (l.stepYield p pollers d passes kind co y) := by
  cases y with
  | pass o =>
    refine (Touches.setJob l d.key (.coroutine co (passes + 1) kind)).trans hd (.of_spares ?_)
    unfold stepYield
    dsimp only
    split
    · split
      · exact .of_eq rfl rfl
      · exact .of_eq rfl rfl
    · exact .of_eq rfl rfl
  | effect e =>
    refine (Touches.setJob l d.key (.coroutine co 0 e.kind)).trans hd (.of_spares ?_)
    unfold stepYield
    dsimp only
    split
    · exact .of_eq rfl rfl
    · exact .of_eq rfl rfl

/-- What a driver can do in one step, whatever it is about to do. -/
inductive DriverStep : EventLoop Co Fu → Prop
  /-- Something else goes on, and the driver remains in focus. -/
  | on {l' : EventLoop Co Fu} (hl : Spares l l') (doing : Doing Co Fu) :
      DriverStep (l'.focusOn pollers d.key doing)
  | nested {poller : Poller Co Fu} (h : poller.key? = some d.key) (key : DriverKey) :
      DriverStep (l.focusOn (poller :: pollers) key .poll)
  /-- The driver begins to act, or comes to rest. -/
  | turn {activity : Activity Fu} {doing : Doing Co Fu} (h : activity = .busy ∨ doing = .leave none) :
      DriverStep ((l.setActivity d.key activity).focusOn pollers d.key doing)
  | resume {co : Co} {passes : Nat} {kind : EffectKind} (h : d.job = .coroutine co passes kind)
      (co' : Co) (doing : Doing Co Fu) :
      DriverStep ((((l.setState d.task .running).setActivity d.key .busy).setJob d.key
        (.coroutine co' passes kind)).focusOn pollers d.key doing)
  | yield {co : Co} {passes : Nat} {kind : EffectKind} (h : d.job = .coroutine co passes kind)
      (co' : Co) (y : Yielded) : DriverStep (l.stepYield p pollers d passes kind co' y)
  | crash : DriverStep { l.crash d.home with focus := .idle }

theorem ComputingStep.driverStep {l' : EventLoop Co Fu} (h : ComputingStep l pollers d l') :
    DriverStep p l pollers d l' := by
  cases h with
  | on hl _ => exact .on hl _
  | nested key spot => exact .nested rfl key
  | rest branch => exact .turn (.inr rfl)
  | panic => exact .on (.refl l) _

/-- **A step of a driver** is one of these. -/
theorem driverStep_stepDriver (hd : d.key.val ≤ l.lastKey) {doing : Doing Co Fu}
    (hleave : ∀ outcome, doing ≠ .leave outcome) :
    DriverStep p l pollers d (l.stepDriver p pollers d doing) := by
  by_cases hc : doing.computes = true ∧ ∀ r, doing ≠ .answer r {}
  · exact (computingStep_of_computes p hd hc.1 hc.2).driverStep p l pollers d
  cases doing with
  | poll =>
    unfold stepDriver
    dsimp only
    split
    · exact .on (Spares.of_eq rfl rfl : Spares l (l.record ..)) _
    · exact .turn (.inl rfl)
    · exact .on (.refl l) _
  | resume input =>
    unfold stepDriver
    dsimp only
    split
    · rename_i hjob
      exact .resume hjob _ _
    · exact .on (.refl l) _
  | advance a =>
    cases a with
    | ret progress =>
      cases progress with
      | more co => exact .on (.refl l) _
      | poll key k => exact .nested rfl key
      | yield y co =>
        unfold stepDriver
        dsimp only
        split
        · rename_i hjob
          exact .yield hjob co y
        · exact .on (.refl l) _
      | done outcome co => exact .on (l.spares_dropNested d.key) _
    | panic => exact .on (.refl l) _
    | _ =>
      rw [stepDriver_advance p l pollers d rfl]
      exact .on (l.spares_perform p _ (current_le hd) _) _
  | process ref e spot => exact (computingStep_process p ref e spot).driverStep p l pollers d
  | answer r spot =>
    by_cases hs : spot = {}
    · subst hs
      obtain ⟨l', doing, hl, h⟩ := stepAnswer_root p l pollers d r
      rw [show l.stepDriver p pollers d (.answer r {}) = l'.focusOn pollers d.key doing from h]
      exact .on hl doing
    · exact absurd ⟨rfl, fun r' h => hs (Doing.answer.inj h).2⟩ hc
  | finish outcome => exact .on (l.spares_conclude d outcome) _
  | leave outcome => exact absurd rfl (hleave outcome)
  | crash => exact .crash
  | _ => exact absurd ⟨rfl, fun r => nofun⟩ hc

variable {l pollers d}

/-- A step of a driver touches no other driver. -/
theorem DriverStep.touches (hd : d.key.val ≤ l.lastKey) {l' : EventLoop Co Fu}
    (h : DriverStep p l pollers d l') : Touches d.key l l' := by
  cases h with
  | on hl _ => exact .of_spares (hl.focusOn _ _ _)
  | nested _ _ => exact .of_spares (.of_eq rfl rfl)
  | turn _ => exact (Touches.setActivity l d.key _).trans hd (.of_spares (.of_eq rfl rfl))
  | resume _ _ _ =>
    have hstate : Touches d.key l (l.setState d.task .running) := .of_spares (.of_eq rfl rfl)
    have hbusy := hstate.trans hd (Touches.setActivity _ d.key .busy)
    exact (hbusy.trans hd (Touches.setJob _ d.key _)).trans hd (.of_spares (.of_eq rfl rfl))
  | yield _ co' y => exact touches_stepYield p l pollers d hd _ _ co' y
  | crash => exact .of_spares ((l.spares_crash d.home).trans (.of_eq rfl rfl))

variable (l pollers)

theorem spares_leave (key : DriverKey) (outcome : Option Outcome) :
    Spares l (l.leave p key outcome pollers) := by
  unfold leave
  split
  case h_4 =>
    split
    · exact .of_eq rfl rfl
    · exact .of_eq rfl rfl
  all_goals exact .of_eq rfl rfl

/-- The surroundings add and drop drivers and touch no other. -/
theorem spares_outside (m : Move Co Fu) : Spares l (l.outside p m) := by
  unfold outside
  split
  · exact .refl l
  · exact l.spares_perform p none (fun _ h => nomatch h) _
  · split
    · exact .of_eq rfl rfl
    · exact .refl l
  · split
    · split
      · exact .of_eq rfl rfl
      · exact .refl l
    · exact .refl l
  · exact .of_eq rfl rfl
  · split
    · exact .of_eq rfl rfl
    · exact .refl l
  · split
    · exact l.spares_abandon _
    · exact .refl l
  · split
    · exact .of_eq rfl rfl
    · exact .refl l

/-- Every driver has a key that was given out, guards its own task and is younger than its owner. -/
def Proper (l : EventLoop Co Fu) : Prop := ∀ d ∈ l.drivers, d.key.val ≤ l.lastKey ∧ d.Proper

variable {l}

theorem Touches.proper {key : DriverKey} {l' : EventLoop Co Fu} (h : Touches key l l')
    (hl : Proper l) : Proper l' := by
  intro d hd
  rcases h.old_or_new d hd with hd | ⟨_, d₀, hd₀, he⟩ | ⟨⟨_, hb, hp⟩, _⟩
  · obtain ⟨hb, hp⟩ := hl d hd
    exact ⟨Nat.le_trans hb h.lastKey_le, hp⟩
  · obtain ⟨hb, hp⟩ := hl d₀ hd₀
    rw [he]
    exact ⟨Nat.le_trans hb h.lastKey_le, hp.guard, hp.owner⟩
  · exact ⟨hb, hp⟩

theorem Spares.proper {l' : EventLoop Co Fu} (h : Spares l l') (hl : Proper l) : Proper l' :=
  (Touches.of_spares h : Touches ⟨0⟩ l l').proper hl

theorem mem_of_driver? {key : DriverKey} {d : Driver Co Fu} (h : l.driver? key = some d) :
    d ∈ l.drivers := List.mem_of_find?_eq_some h

theorem key_of_driver? {key : DriverKey} {d : Driver Co Fu} (h : l.driver? key = some d) :
    d.key = key := by
  have hk := List.find?_some h
  exact eq_of_beq hk

/-- What a move can be. -/
inductive Turn (l : EventLoop Co Fu) : Move Co Fu → EventLoop Co Fu → Prop
  | outside (h : l.focus = .idle) (m : Move Co Fu) : Turn l m (l.outside p m)
  /-- A poll is under way, and only it goes on. -/
  | refused (h : l.focus ≠ .idle) {m : Move Co Fu} (hm : m ≠ .step) : Turn l m l
  | leave {pollers : List (Poller Co Fu)} {key : DriverKey} {doing : Doing Co Fu}
      (h : l.focus = .active pollers key doing)
      (hgone : (∃ outcome, doing = .leave outcome) ∨ l.driver? key = none)
      (outcome : Option Outcome) : Turn l .step (l.leave p key outcome pollers)
  | driver {pollers : List (Poller Co Fu)} {d : Driver Co Fu} {doing : Doing Co Fu}
      (h : l.focus = .active pollers d.key doing) (hd : l.driver? d.key = some d)
      (hleave : ∀ outcome, doing ≠ .leave outcome) :
      Turn l .step (l.stepDriver p pollers d doing)

theorem turn_move (m : Move Co Fu) : Turn p l m (l.move p m) := by
  cases hfocus : l.focus with
  | idle =>
    rw [move_of_idle p hfocus]
    exact .outside hfocus m
  | active pollers key doing =>
    by_cases hm : m = .step
    · subst hm
      obtain ⟨l', hl'⟩ := step_of_active p hfocus
      rw [move_step, hl', Option.getD_some]
      unfold step? at hl'
      rw [hfocus] at hl'
      split at hl'
      · rename_i h
        cases h
      · rename_i outcome h
        cases h
        cases hl'
        exact .leave hfocus (.inl ⟨outcome, rfl⟩) outcome
      · rename_i hleave h
        cases h
        split at hl'
        · rename_i d hd
          cases hl'
          cases key_of_driver? hd
          exact .driver hfocus hd fun outcome he => hleave outcome (he ▸ rfl)
        · rename_i hnone
          cases hl'
          exact .leave hfocus (.inr hnone) none
    · rw [move_of_active p hfocus hm]
      exact .refused (by rw [hfocus]; exact nofun) hm

/-- A move touches at most one driver. -/
theorem touches_move (hl : Proper l) (m : Move Co Fu) :
    ∃ key : DriverKey, key.val ≤ l.lastKey ∧ Touches key l (l.move p m) := by
  have hturn := turn_move p m (l := l)
  generalize l.move p m = l' at hturn ⊢
  cases hturn with
  | outside h m => exact ⟨⟨0⟩, Nat.zero_le _, .of_spares (spares_outside ..)⟩
  | refused _ _ => exact ⟨⟨0⟩, Nat.zero_le _, .of_spares (.refl l)⟩
  | leave _ _ outcome => exact ⟨⟨0⟩, Nat.zero_le _, .of_spares (spares_leave ..)⟩
  | driver _ hd hleave =>
    have hb := (hl _ (mem_of_driver? hd)).1
    exact ⟨_, hb, (driverStep_stepDriver p l _ _ hb hleave).touches p hb⟩

/-- Drivers stay proper whatever moves are made. -/
theorem proper_move (hl : Proper l) (m : Move Co Fu) : Proper (l.move p m) := by
  obtain ⟨key, _, h⟩ := touches_move p hl m
  exact h.proper hl

theorem proper_after (hl : Proper l) (moves : List (Move Co Fu)) : Proper (l.after p moves) := by
  induction moves generalizing l with
  | nil => exact hl
  | cons m moves ih => exact ih (proper_move p hl m)

theorem proper_empty : Proper ({} : EventLoop Co Fu) := fun _ h => nomatch h

end

end EventLoop

end EffectLoop
