import EffectLoop.Proofs.Puts
import EffectLoop.Proofs.Wakeups

/-!
# A round of the loop

A put waits for a turn, and its home is deferred for as long. Two things are up to the runtime: it
queues the deferred homes only when no task is left in the queue (`Drained`), and it does not poll a home
that is still deferred. A run is `Patient` if its surroundings keep to both.

In such a run the poll that yields a put comes to its end without the sink being called, and then the
home is left alone until the deferred homes are queued (`Postponed`). Until then every task that is
queued at some moment is polled after it (`queued_until_polled`).
-/

namespace EffectLoop

variable {Co Fu α : Type}

namespace EventLoop

/-! ## What is deferred stays deferred -/

section

variable (l : EventLoop Co Fu) (p : Program Co Fu)

theorem settle_deferred (d : Driver Co Fu) (act : ActiveTasks → ActiveTasks × Bool) :
    (l.settle d act).1.deferred = l.deferred := by
  unfold settle
  split
  split <;> rfl

theorem terminate_deferred (spans : List Span) (s : SchedulerId) (id : TaskId) :
    (l.terminate spans s id).1.deferred = l.deferred := by
  rw [terminate_eq]
  split <;> rfl

theorem abandon_deferred (d : Driver Co Fu) : (l.abandon d).deferred = l.deferred := by
  rcases l.abandon_eq d with h | h
  · rw [h]
    exact l.settle_deferred d _
  · rw [h]
    exact l.settle_deferred d _

theorem foldl_abandon_deferred (ds : List (Driver Co Fu)) :
    (ds.foldl abandon l).deferred = l.deferred := by
  induction ds generalizing l with
  | nil => rfl
  | cons d ds ih => rw [List.foldl_cons, ih, abandon_deferred]

theorem conclude_deferred (d : Driver Co Fu) (o : Outcome) :
    (l.conclude d o).deferred = l.deferred := by
  obtain ⟨e, he⟩ := l.conclude_eq d o
  rw [he]
  exact (foldl_abandon_deferred ..).trans (settle_deferred ..)

theorem perform_deferred (current : Option DriverKey) (a : Act Co Fu α) :
    (l.perform p current a).1.deferred = l.deferred := by
  cases a with
  | ask q k =>
    cases q with
    | openGate name v =>
      show (l.openGate name v).deferred = l.deferred
      unfold openGate
      split <;> rfl
    | terminate s id => exact l.terminate_deferred _ s id
    | _ => rfl
  | _ => rfl

theorem leave_deferred (key : DriverKey) (outcome : Option Outcome)
    (pollers : List (Poller Co Fu)) : (l.leave p key outcome pollers).deferred = l.deferred := by
  obtain ⟨focus, he⟩ := l.leave_eq p key outcome pollers
  rw [he]

variable (pollers : List (Poller Co Fu)) (d : Driver Co Fu)

theorem wait_deferred (w : Wait) : l.deferred <+: (l.wait pollers d w).deferred := by
  unfold wait
  split
  · split
    · exact List.prefix_append ..
    · exact List.prefix_refl _
    · exact List.prefix_refl _
    · exact List.prefix_refl _
  · exact List.prefix_refl _

theorem stepYield_deferred (passes : Nat) (kind : EffectKind) (co : Co) (y : Yielded) :
    (l.stepYield p pollers d passes kind co y).deferred = l.deferred := by
  unfold stepYield
  cases y with
  | pass o =>
    dsimp only
    split
    · split <;> rfl
    · rfl
  | effect e =>
    dsimp only
    split <;> rfl

theorem stepInvoked_deferred (b : Builtin) (target : Target) (spot : Spot Fu)
    (invoked : Invoked Co Fu) :
    (l.stepInvoked p pollers d b target spot invoked).deferred = l.deferred := by
  cases invoked with
  | pending fu => cases b <;> rfl
  | coroutine co => cases b <;> rfl

theorem stepAnswer_deferred (r : Resume) (spot : Spot Fu) :
    (l.stepAnswer p pollers d r spot).deferred = l.deferred := by
  unfold stepAnswer
  split
  case h_7 => split <;> rfl
  all_goals rfl

/-- A step of a driver may defer its home, and defers no home less, unless it is a panic. -/
theorem stepDriver_deferred {doing : Doing Co Fu} (hcrash : doing ≠ .crash) :
    l.deferred <+: (l.stepDriver p pollers d doing).deferred := by
  have hsame : ∀ {l' : EventLoop Co Fu}, l'.deferred = l.deferred → l.deferred <+: l'.deferred :=
    fun he => he ▸ List.prefix_refl _
  cases doing with
  | poll =>
    refine hsame ?_
    unfold stepDriver
    dsimp only
    split <;> rfl
  | resume input =>
    refine hsame ?_
    unfold stepDriver
    dsimp only
    split <;> rfl
  | advance a =>
    refine hsame ?_
    cases a with
    | ret progress =>
      cases progress with
      | yield y co =>
        unfold stepDriver
        dsimp only
        split
        · exact stepYield_deferred ..
        · rfl
      | done outcome co => exact foldl_abandon_deferred ..
      | _ => rfl
    | panic => rfl
    | _ =>
      rw [stepDriver_advance p l pollers d rfl]
      exact perform_deferred ..
  | visit branch forks =>
    refine hsame ?_
    cases branch with
    | waiting w frames =>
      rcases l.stepDriver_visit_waiting p pollers d w frames forks with
        ⟨key, _, h⟩ | ⟨r, _, h⟩ | ⟨_, h⟩
      all_goals
        rw [h]
        rfl
    | _ => rfl
  | work a spot =>
    refine hsame ?_
    cases a with
    | ret await => cases await <;> rfl
    | panic => rfl
    | _ =>
      rw [stepDriver_work p l pollers d rfl]
      exact perform_deferred ..
  | process ref e spot => cases ref <;> exact List.prefix_refl _
  | invoke b target a spot =>
    refine hsame ?_
    cases a with
    | ret invoked => exact stepInvoked_deferred ..
    | panic => rfl
    | _ =>
      rw [stepDriver_invoke p l pollers d b target rfl]
      exact perform_deferred ..
  | dispatch a spot =>
    refine hsame ?_
    cases a with
    | ret v => rfl
    | panic => rfl
    | _ =>
      rw [stepDriver_dispatch p l pollers d rfl]
      exact perform_deferred ..
  | await w spot =>
    rcases l.stepDriver_await p pollers d w spot with ⟨key, _, h⟩ | ⟨r, _, h⟩ | ⟨_, h⟩
    · exact hsame (by rw [h]; rfl)
    · exact hsame (by rw [h]; rfl)
    · rw [h]
      exact l.wait_deferred pollers d w
  | answer r spot => exact hsame (stepAnswer_deferred ..)
  | pause branch forks =>
    cases forks with
    | nil => exact List.prefix_refl _
    | cons fork forks => cases fork <;> exact List.prefix_refl _
  | finish outcome => exact hsame (conclude_deferred ..)
  | leave outcome => exact List.prefix_refl _
  | crash => exact absurd rfl hcrash

/-- The surroundings forget no deferred home whose driver is there, until they queue them. -/
theorem outside_deferred {m : Move Co Fu} (hflush : m ≠ .flush) {home : DriverKey}
    (h : home ∈ l.deferred) :
    home ∈ (l.outside p m).deferred ∨ ∀ d ∈ (l.outside p m).drivers, d.key ≠ home := by
  unfold outside
  split
  · exact .inl h
  · exact .inl ((l.perform_deferred p none _).symm ▸ h)
  · split <;> exact .inl h
  · split
    · split <;> exact .inl h
    · exact .inl h
  · exact absurd rfl hflush
  · split <;> exact .inl h
  · split
    · exact .inl ((l.abandon_deferred _).symm ▸ h)
    · exact .inl h
  · split
    · rename_i key hnone
      by_cases hk : home = key
      · subst hk
        refine .inr fun d hd hdk => ?_
        exact List.find?_eq_none.mp (Option.isNone_iff_eq_none.mp hnone) d hd (beq_iff_eq.mpr hdk)
      · exact .inl (List.mem_filter.mpr ⟨h, decide_eq_true hk⟩)
    · exact .inl h

end

/-! ## Homes that a poll has nothing to do with -/

variable {l l' : EventLoop Co Fu} {home key : DriverKey} {pollers : List (Poller Co Fu)}
  {d : Driver Co Fu}

/-- A driver that works is not at the end of its poll. -/
theorem not_leave_of_works {doing : Doing Co Fu} (h : doing.works = true) (outcome : Option Outcome) :
    doing ≠ .leave outcome := by
  rintro rfl
  cases h

/-- The drivers that take part in the poll under way: the one in focus and those that poll it. -/
def parties (l : EventLoop Co Fu) : List DriverKey :=
  match l.focus with
  | .idle => []
  | .active pollers key _ => key :: pollers.filterMap Poller.key?

theorem parties_of_active {doing : Doing Co Fu} (h : l.focus = .active pollers key doing) :
    l.parties = key :: pollers.filterMap Poller.key? := by
  rw [parties, h]

theorem parties_of_idle (h : l.focus = .idle) : l.parties = [] := by
  rw [parties, h]

/-- No driver of the home takes part in the poll under way. -/
def Aside (l : EventLoop Co Fu) (home : DriverKey) : Prop :=
  ∀ d ∈ l.drivers, d.key ∈ l.parties → d.home ≠ home

instance (l : EventLoop Co Fu) (home : DriverKey) : Decidable (Aside l home) :=
  inferInstanceAs (Decidable (∀ d ∈ l.drivers, d.key ∈ l.parties → d.home ≠ home))

theorem Aside.of_idle (h : l.focus = .idle) (home : DriverKey) : Aside l home := by
  intro d _ hk
  rw [parties_of_idle h] at hk
  cases hk

section

variable (p : Program Co Fu)

/-- The end of a poll takes a driver out of it. -/
theorem parties_leave {doing : Doing Co Fu} (hfocus : l.focus = .active pollers key doing)
    (outcome : Option Outcome) : (l.leave p key outcome pollers).parties ⊆ l.parties := by
  rw [parties_of_active hfocus]
  cases pollers with
  | nil => exact List.nil_subset _
  | cons poller pollers =>
    cases poller with
    | hand => exact List.nil_subset _
    | body owner k => exact List.subset_cons_self _ _
    | waiting owner spot => cases outcome <;> exact List.subset_cons_self _ _

/-- The surroundings begin a poll only by the moves for it. -/
theorem focus_outside (hidle : l.focus = .idle) {m : Move Co Fu} {doing : Doing Co Fu}
    (h : (l.outside p m).focus = .active pollers key doing) :
    doing = .poll ∧ (m = .poll key ∨ ∃ byHand, m = .call key byHand) ∧
      (l.outside p m).drivers = l.drivers ∧ pollers.filterMap Poller.key? = [] := by
  have hnot : ∀ {l' : EventLoop Co Fu}, l'.focus = l.focus → l'.focus ≠ .active pollers key doing :=
    fun he => by simp [he, hidle]
  unfold outside at h ⊢
  cases m with
  | poll home =>
    dsimp only at h ⊢
    split at h
    · rename_i hq
      rw [if_pos hq]
      cases h
      exact ⟨rfl, .inl rfl, rfl, rfl⟩
    · exact absurd h (hnot rfl)
  | call k byHand =>
    dsimp only at h ⊢
    split at h
    · split at h
      · rename_i hcaller
        rw [if_pos hcaller]
        cases h
        exact ⟨rfl, .inr ⟨byHand, rfl⟩, rfl, by split <;> rfl⟩
      · exact absurd h (hnot rfl)
    · exact absurd h (hnot rfl)
  | act a => exact absurd h (hnot (perform_focus ..))
  | jump time =>
    dsimp only at h
    split at h
    · exact absurd h (hnot rfl)
    · exact absurd h (hnot rfl)
  | drop k =>
    dsimp only at h
    split at h
    · exact absurd h (hnot (abandon_focus ..))
    · exact absurd h (hnot rfl)
  | forget home =>
    dsimp only at h
    split at h
    · exact absurd h (hnot rfl)
    · exact absurd h (hnot rfl)
  | _ => exact absurd h (hnot rfl)

/-- All that take part in a poll live in one home. -/
theorem Laddered.home_eq (h : Laddered l) {d' : Driver Co Fu} (hd : d ∈ l.drivers)
    (hd' : d' ∈ l.drivers) (hk : d.key ∈ l.parties) (hk' : d'.key ∈ l.parties) :
    d.home = d'.home := by
  cases hfocus : l.focus with
  | idle =>
    rw [parties_of_idle hfocus] at hk
    cases hk
  | active pollers key doing =>
    rw [parties_of_active hfocus, List.mem_cons] at hk hk'
    obtain ⟨home, hladder⟩ := h _ _ _ hfocus
    rw [hladder.home_eq hd hk, hladder.home_eq hd' hk']

/-- **A poll of one home does not come to another**, as long as polls go by owners. -/
theorem aside_move (ho : Orderly l) (m : Move Co Fu) (hladdered : Laddered (l.move p m))
    (hh : Housed (l.move p m)) (h : Aside l home)
    (hpoll : l.focus = .idle → ∀ pollers, (l.move p m).focus = .active pollers home .poll →
      ∀ d ∈ l.drivers, d.key ≠ home) : Aside (l.move p m) home := by
  have htenant := fun d => tenant_move p ho.proper m (d := d)
  have hturn := turn_move p m (l := l)
  generalize l.move p m = l' at hladdered hh htenant hturn hpoll
  cases hturn with
  | outside hidle m =>
    intro d hd hk hhome
    cases hfocus : (l.outside p m).focus with
    | idle =>
      rw [parties_of_idle hfocus] at hk
      cases hk
    | active pollers key doing =>
      obtain ⟨rfl, _, hdrivers, hnobody⟩ := focus_outside p hidle hfocus
      rw [parties_of_active hfocus, hnobody, List.mem_singleton] at hk
      obtain ⟨_, hladder⟩ := hladdered _ _ _ hfocus
      have hroot : d.IsRoot := by
        cases hladder with
        | floor _ hfloor => exact (hfloor d hd hk).2
        | rung hp _ _ =>
          rw [List.filterMap_cons_some hp] at hnobody
          cases hnobody
      rw [hh.root d hd hroot, hk] at hhome
      subst hhome
      exact hpoll hidle _ hfocus d (hdrivers ▸ hd) hk
  | refused _ _ => exact h
  | leave hfocus hgone outcome =>
    intro d hd hk
    rw [(leave_drivers p _ outcome).1] at hd
    exact h d hd (parties_leave p hfocus outcome hk)
  | driver hfocus hd hleave =>
    rename_i pollers f doing
    have hmem := mem_of_driver? hd
    have hstep := driverStep_stepDriver p l pollers f (ho.proper f hmem).1 hleave
    have hf := h f hmem (by rw [parties_of_active hfocus]; exact List.mem_cons_self)
    intro d hd hk
    cases hfocus' : (l.stepDriver p pollers f doing).focus with
    | idle =>
      rw [parties_of_idle hfocus'] at hk
      cases hk
    | active ps key doing' =>
      rcases hstep.pollers_eq p hfocus' with ⟨rfl, rfl⟩ | ⟨poller, hp, rfl, he⟩
      · -- the poll has come to no other driver
        rw [parties_of_active hfocus', ← parties_of_active hfocus] at hk
        have hle : d.key.val ≤ l.lastKey := by
          rw [parties_of_active hfocus, List.mem_cons] at hk
          rcases hk with hk | hk
          · rw [hk]
            exact (ho.proper f hmem).1
          · refine ho.bounded _ ?_
            unfold held
            rw [hfocus]
            exact List.mem_append_right _ hk
        rcases htenant d hd with ⟨d₀, hd₀, hk₀, _, hhome, _⟩ | ⟨hnew, _⟩
        · rw [← hhome]
          exact h d₀ hd₀ (hk₀ ▸ hk)
        · omega
      · have hf' : f ∈ (l.stepDriver p pollers f doing).drivers := by
          rw [he]
          exact hmem
        rw [hladdered.home_eq hd hf' hk]
        · exact hf
        · rw [parties_of_active hfocus', List.filterMap_cons_some hp]
          exact List.mem_cons_of_mem _ List.mem_cons_self

/-! ## Who is queued is polled -/

/-- A driver does not go away unless an attempt on its duty is posted. -/
theorem stays_of_postings (hd : d ∈ l.drivers) (m : Move Co Fu)
    (h : ∀ a, .attempt a ∈ l.postings p m → a.duty?.map Duty.key ≠ some d.key) :
    ∃ d' ∈ (l.move p m).drivers, d'.key = d.key := by
  have hkept : ∀ {ps : List Posting} {b : Books}, d.duty ∈ b.duties →
      (∀ a, .attempt a ∈ ps → a.duty?.map Duty.key ≠ some d.key) → d.duty ∈ (b.postAll ps).duties := by
    intro ps
    induction ps with
    | nil => exact fun hd _ => hd
    | cons x ps ih =>
      intro b hd h
      refine ih ?_ fun a ha => h a (List.mem_cons_of_mem _ ha)
      cases x with
      | enter s name => exact List.mem_append_left _ hd
      | note s id state => exact hd
      | attempt a => exact List.mem_filter.mpr ⟨hd, decide_eq_true (h a List.mem_cons_self)⟩
  have hduty : d.duty ∈ (l.move p m).books.duties := by
    rw [books_move]
    exact hkept (List.mem_map_of_mem hd) h
  obtain ⟨d', hd', he⟩ := List.mem_map.mp hduty
  exact ⟨d', hd', congrArg Duty.key he⟩

theorem owner_of_mem_nestedBelow {ds : List (Driver Co Fu)} {keys : List DriverKey}
    (h : d ∈ nestedBelow keys ds) : ¬ d.IsRoot := by
  induction ds generalizing keys with
  | nil => cases h
  | cons x ds ih =>
    unfold nestedBelow at h
    split at h
    · rename_i key howner
      split at h
      · rcases List.mem_cons.mp h with rfl | h
        · exact fun hroot => hroot _ howner
        · exact ih h
      · exact ih h
    · exact ih h

theorem abandon_of_mem_abandonments {ds : List (Driver Co Fu)} {a : Attempt}
    (h : .attempt a ∈ abandonments ds) : ∃ x ∈ ds, a = .abandon x.duty := by
  obtain ⟨_, ha, he⟩ := List.mem_map.mp h
  obtain ⟨x, hx, rfl⟩ := List.mem_map.mp ha
  cases he
  exact ⟨x, hx, rfl⟩

/-- What an act posts uses no duty up. -/
theorem duty_of_mem_actPostings {x : Act Co Fu α} {a : Attempt} (h : .attempt a ∈ l.actPostings x) :
    a.duty? = none := by
  unfold actPostings at h
  split at h
  · cases List.mem_singleton.mp h
    rfl
  · cases List.mem_singleton.mp h
  · cases List.mem_singleton.mp h
  · simp at h
  · cases h

/-- An attempt of a step that uses a duty up is the outcome of the driver at its end, or it is made for a
driver that is nested, or that lives with one that panics. -/
theorem cases_of_doing_attempt {f : Driver Co Fu} {doing : Doing Co Fu} {a : Attempt}
    (h : .attempt a ∈ l.doingPostings p f doing) (ha : a.duty? ≠ none) :
    (∃ o, doing = .finish o ∧ a = .outcome f.duty o) ∨
      ∃ x ∈ l.drivers, a = .abandon x.duty ∧ (¬ x.IsRoot ∨ doing = .crash ∧ x.home = f.home) := by
  have hnested : ∀ {ds : List (Driver Co Fu)}, ds ⊆ l.drivers →
      .attempt a ∈ abandonments (nestedBelow [f.key] ds).reverse →
      ∃ x ∈ l.drivers, a = .abandon x.duty ∧ (¬ x.IsRoot ∨ doing = .crash ∧ x.home = f.home) := by
    intro ds hds ha
    obtain ⟨x, hx, rfl⟩ := abandon_of_mem_abandonments ha
    rw [List.mem_reverse] at hx
    exact ⟨x, hds ((nestedBelow_sublist _ _).subset hx), rfl, .inl (owner_of_mem_nestedBelow hx)⟩
  have hact : ∀ {β : Type} {q : Act Co Fu β}, .attempt a ∉ l.actPostings q :=
    fun hmem => ha (duty_of_mem_actPostings hmem)
  unfold doingPostings at h
  split at h
  case h_1 | h_2 => split at h <;> simp at h
  case h_3 => exact .inr (hnested (fun _ hx => hx) h)
  case h_4 _ b target invoked _ =>
    cases invoked with
    | pending fu => cases b <;> simp [invokedPostings] at h
    | coroutine co => cases List.mem_singleton.mp h
  case h_5 | h_6 | h_7 | h_8 => exact absurd h hact
  case h_9 o =>
    rcases List.mem_cons.mp h with h | h
    · cases h
      exact .inl ⟨o, rfl, rfl⟩
    · exact .inr (hnested List.filter_sublist.subset h)
  case h_10 =>
    obtain ⟨x, hx, rfl⟩ := abandon_of_mem_abandonments h
    obtain ⟨hx, hhome⟩ := List.mem_filter.mp (List.mem_reverse.mp hx)
    exact .inr ⟨x, hx, rfl, .inr ⟨rfl, of_decide_eq_true hhome⟩⟩
  case h_11 => cases h

/-- A task that the poll under way has nothing to do with stays, unless the surroundings drop it. -/
theorem root_stays (ho : Orderly l) (hh : Housed l) (hd : d ∈ l.drivers) (hroot : d.IsRoot)
    (haside : Aside l d.key) {m : Move Co Fu} (hdrop : l.focus = .idle → m ≠ .drop d.key) :
    ∃ d' ∈ (l.move p m).drivers, d'.key = d.key := by
  refine stays_of_postings p hd m fun a ha he => ?_
  obtain ⟨x, hx, hk⟩ := Option.map_eq_some_iff.mp he
  have hhome := hh.root d hd hroot
  unfold postings at ha
  split at ha
  · rw [duty_of_mem_actPostings ha] at hx
    cases hx
  · rename_i key hidle
    obtain ⟨y, hy, rfl⟩ := abandon_of_mem_abandonments ha
    rw [Option.mem_toList] at hy
    have hkey : key = d.key := by
      rw [← key_of_driver? hy, ← hk, ← Option.some.inj hx]
      rfl
    exact hdrop hidle (by rw [hkey])
  · rename_i pollers key doing hfocus
    unfold stepPostings at ha
    rw [hfocus] at ha
    dsimp only at ha
    split at ha
    · rename_i f hf
      have hmem := mem_of_driver? hf
      have hne := haside f hmem (by
        rw [parties_of_active hfocus, key_of_driver? hf]
        exact List.mem_cons_self)
      rcases cases_of_doing_attempt p ha (by simp [hx]) with ⟨o, -, rfl⟩ | ⟨y, hy, rfl, h⟩
      · cases hx
        rw [ho.eq_of_key hmem hd hk] at hne
        exact hne hhome
      · cases hx
        rw [ho.eq_of_key hy hd hk] at h
        rcases h with h | ⟨-, h⟩
        · exact h hroot
        · exact hne (h.symm.trans hhome)
    · cases ha
  · cases ha

/-- Who is gone after a move stays so. -/
theorem gone_move (hl : Proper l) {key : DriverKey} (hle : key.val ≤ l.lastKey)
    (h : ∀ d ∈ l.drivers, d.key ≠ key) (m : Move Co Fu) : ∀ d ∈ (l.move p m).drivers, d.key ≠ key := by
  intro d hd hk
  rcases tenant_move p hl m hd with ⟨d₀, hd₀, hk₀, _⟩ | ⟨hnew, _⟩
  · exact h d₀ hd₀ (hk₀.trans hk)
  · rw [hk] at hnew
    omega

/-- A home that is queued stays so while its driver is there, unless a poll of it begins. -/
theorem stays_queued (ho : Orderly l) (hh : Housed l) (hd : d ∈ l.drivers) (hroot : d.IsRoot)
    (hq : d.key ∈ l.queue) {m : Move Co Fu}
    (hpoll : l.focus = .idle → ∀ pollers, (l.move p m).focus ≠ .active pollers d.key .poll)
    {d' : Driver Co Fu} (hd' : d' ∈ (l.move p m).drivers) (hk : d'.key = d.key) :
    d.key ∈ (l.move p m).queue := by
  have hturn := turn_move p m (l := l)
  generalize l.move p m = l' at hturn hd' hpoll ⊢
  cases hturn with
  | outside hidle m =>
    refine (queued_outside p ho.proper m ⟨d, hd, rfl⟩ hq).resolve_right ?_
    rintro ⟨pollers, hf, _⟩
    exact hpoll hidle pollers hf
  | refused _ _ => exact hq
  | leave hfocus hgone outcome =>
    obtain ⟨focus, he⟩ := l.leave_eq p _ outcome _
    rw [he]
    exact hq
  | driver hfocus hf hleave =>
    rename_i pollers f doing
    refine (rouses_stepDriver p _ ho.proper (mem_of_driver? hf) doing hleave).queued _ hq ?_
    rintro ⟨rfl, hhome⟩
    obtain ⟨hold, hne⟩ := ((panicEnds_crash ho f.home).drivers d').mp hd'
    rw [ho.eq_of_key hold hd hk, hh.root d hd hroot] at hne
    exact hne hhome

/-- What a move makes of a task that is queued: it stays queued, unless a poll of it begins, or it is
dropped, or ends in the poll under way. -/
theorem queued_move (ho : Orderly l) (hh : Housed l) {m : Move Co Fu}
    (hladdered : Laddered (l.move p m)) (hd : d ∈ l.drivers) (howner : d.owner = .loop)
    (hq : d.key ∈ l.queue) :
    (l.focus = .idle ∧ ∃ pollers, (l.move p m).focus = .active pollers d.key .poll) ∨
    (l.focus = .idle ∧ m = .drop d.key) ∨
    (¬ Aside l d.key ∧ ∀ d' ∈ (l.move p m).drivers, d'.key ≠ d.key) ∨
    ((∃ d' ∈ (l.move p m).drivers, d'.key = d.key ∧ d'.owner = .loop) ∧
      d.key ∈ (l.move p m).queue ∧ (Aside l d.key → Aside (l.move p m) d.key)) := by
  have hroot : d.IsRoot := fun key => by
    simp [howner]
  by_cases hpoll : l.focus = .idle ∧ ∃ pollers, (l.move p m).focus = .active pollers d.key .poll
  · exact .inl hpoll
  by_cases hdrop : l.focus = .idle ∧ m = .drop d.key
  · exact .inr (.inl hdrop)
  refine .inr (.inr ?_)
  by_cases hex : ∃ d' ∈ (l.move p m).drivers, d'.key = d.key
  · obtain ⟨d', hd', hk⟩ := hex
    refine .inr ⟨⟨d', hd', hk, ?_⟩, ?_, fun haside => ?_⟩
    · rcases tenant_move p ho.proper m hd' with ⟨d₀, hd₀, hk₀, how, _⟩ | ⟨hnew, _⟩
      · rw [← how, ho.eq_of_key hd₀ hd (hk₀.trans hk), howner]
      · have := (ho.proper d hd).1
        rw [hk] at hnew
        omega
    · exact stays_queued p ho hh hd hroot hq (fun hidle ps hf => hpoll ⟨hidle, ps, hf⟩) hd' hk
    · exact aside_move p ho m hladdered (housed_move p ho hh m) haside fun hidle ps hf =>
        absurd ⟨hidle, ps, hf⟩ hpoll
  · have hgone : ∀ d' ∈ (l.move p m).drivers, d'.key ≠ d.key := fun d' hd' hk => hex ⟨d', hd', hk⟩
    refine .inl ⟨fun haside => ?_, hgone⟩
    exact hex (root_stays p ho hh hd hroot haside fun hidle he => hdrop ⟨hidle, he⟩)

/-- A poll of the home begins in the course of the moves. -/
def PolledIn (l : EventLoop Co Fu) (moves : List (Move Co Fu)) (home : DriverKey) : Prop :=
  ∃ before m later, moves = before ++ m :: later ∧ (l.after p before).focus = .idle ∧
    ∃ pollers, (l.after p (before ++ [m])).focus = .active pollers home .poll

/-- The surroundings drop the driver in the course of the moves. -/
def DroppedIn (l : EventLoop Co Fu) (moves : List (Move Co Fu)) (key : DriverKey) : Prop :=
  ∃ before later, moves = before ++ .drop key :: later ∧ (l.after p before).focus = .idle

variable {p}

theorem PolledIn.append {moves : List (Move Co Fu)} (h : PolledIn p l moves home)
    (rest : List (Move Co Fu)) : PolledIn p l (moves ++ rest) home := by
  obtain ⟨before, m, later, rfl, h⟩ := h
  exact ⟨before, m, later ++ rest, by simp, h⟩

theorem DroppedIn.append {moves : List (Move Co Fu)} (h : DroppedIn p l moves key)
    (rest : List (Move Co Fu)) : DroppedIn p l (moves ++ rest) key := by
  obtain ⟨before, later, rfl, h⟩ := h
  exact ⟨before, later ++ rest, by simp, h⟩

variable (p)

/-- **Who is queued is polled**: a task that is queued at some moment of a run is queued until a poll of
it begins, unless the surroundings drop it, or the poll under way at that moment is its own and its
last. -/
theorem queued_until_polled {first rest : List (Move Co Fu)}
    (hown : OwnersPollIn p (first ++ rest)) (hd : d ∈ (after p {} first).drivers)
    (howner : d.owner = .loop) (hq : d.key ∈ (after p {} first).queue) :
    PolledIn p (after p {} first) rest d.key ∨ DroppedIn p (after p {} first) rest d.key ∨
    (¬ Aside (after p {} first) d.key ∧
      ∀ d' ∈ (after p {} (first ++ rest)).drivers, d'.key ≠ d.key) ∨
    ((∃ d' ∈ (after p {} (first ++ rest)).drivers, d'.key = d.key ∧ d'.owner = .loop) ∧
      d.key ∈ (after p {} (first ++ rest)).queue ∧
        (Aside (after p {} first) d.key → Aside (after p {} (first ++ rest)) d.key)) := by
  induction rest using List.reverseRecOn with
  | nil =>
    rw [List.append_nil]
    exact .inr (.inr (.inr ⟨⟨d, hd, rfl, howner⟩, hq, id⟩))
  | append_singleton rest m ih =>
    have hown' : OwnersPollIn p (first ++ rest) := fun a ha =>
      hown a (ha.trans ⟨[m], by rw [List.append_assoc]⟩)
    have ho := orderly_after p (first ++ rest)
    have hladdered : Laddered ((after p {} (first ++ rest)).move p m) := by
      rw [← after_snoc, List.append_assoc]
      exact (wakeful_after p _ hown).1.laddered
    rw [← List.append_assoc, after_snoc]
    rcases ih hown' with h | h | ⟨haside, hgone⟩ | ⟨⟨d', hd', hk, howner'⟩, hq', haside⟩
    · exact .inl (h.append [m])
    · exact .inr (.inl (h.append [m]))
    · refine .inr (.inr (.inl ⟨haside, gone_move p ho.proper ?_ hgone m⟩))
      have hle := ((orderly_after p first).proper d hd).1
      have := lastKey_le_after p (orderly_after p first).proper rest
      rw [after_append]
      omega
    · rw [← hk] at hq' haside ⊢
      rcases queued_move p ho (housed_after p _) hladdered hd' howner' hq' with
        ⟨hidle, hf⟩ | ⟨hidle, rfl⟩ | ⟨hnot, hgone⟩ | ⟨hex, hq', haside'⟩
      · refine .inl ⟨rest, m, [], rfl, ?_, ?_⟩
        · rwa [← after_append]
        · rw [← after_append, ← List.append_assoc, after_snoc]
          exact hf
      · refine .inr (.inl ⟨rest, [], rfl, ?_⟩)
        rwa [← after_append]
      · exact .inr (.inr (.inl ⟨fun h => hnot (haside h), hgone⟩))
      · exact .inr (.inr (.inr ⟨hex, hq', fun h => haside' (haside h)⟩))

/-! ## A runtime that keeps its word -/

/-- No task is left to be polled. -/
def Drained (l : EventLoop Co Fu) : Prop := ∀ d ∈ l.drivers, d.owner = .loop → d.key ∉ l.queue

/-- The deferred homes are queued only when no task is left in the queue, and a home is not polled
before that. -/
def Honours (l : EventLoop Co Fu) : Move Co Fu → Prop
  | .flush => Drained l
  | .poll home | .call home _ => home ∉ l.deferred
  | _ => True

/-- All along the moves, the surroundings honour what is deferred. -/
def Patient (l : EventLoop Co Fu) : List (Move Co Fu) → Prop
  | [] => True
  | m :: moves => (l.focus = .idle → Honours l m) ∧ Patient (l.move p m) moves

instance (l : EventLoop Co Fu) : Decidable (Drained l) :=
  inferInstanceAs (Decidable (∀ d ∈ l.drivers, d.owner = .loop → d.key ∉ l.queue))

instance (l : EventLoop Co Fu) : (m : Move Co Fu) → Decidable (Honours l m)
  | .flush => inferInstanceAs (Decidable (Drained l))
  | .poll home | .call home _ => inferInstanceAs (Decidable (home ∉ l.deferred))
  | .step | .act _ | .jump _ | .drop _ | .forget _ => isTrue trivial

instance (l : EventLoop Co Fu) : Decidable (l.focus = .idle) :=
  match l.focus with
  | .idle => isTrue rfl
  | .active _ _ _ => isFalse nofun

/-- It can be checked that a run is patient. -/
instance decidablePatient : (l : EventLoop Co Fu) → (moves : List (Move Co Fu)) →
    Decidable (Patient p l moves)
  | _, [] => isTrue trivial
  | l, m :: moves =>
    have : Decidable (Patient p (l.move p m) moves) := decidablePatient (l.move p m) moves
    inferInstanceAs (Decidable ((l.focus = .idle → Honours l m) ∧ Patient p (l.move p m) moves))

theorem Patient.of_append {moves rest : List (Move Co Fu)} (h : Patient p l (moves ++ rest)) :
    Patient p l moves := by
  induction moves generalizing l with
  | nil => trivial
  | cons _ moves ih => exact ⟨h.1, ih h.2⟩

theorem Patient.honours {moves : List (Move Co Fu)} {m : Move Co Fu} {rest : List (Move Co Fu)}
    (h : Patient p l (moves ++ m :: rest)) (hidle : (l.after p moves).focus = .idle) :
    Honours (l.after p moves) m := by
  induction moves generalizing l with
  | nil => exact h.1 hidle
  | cons _ moves ih => exact ih h.2 hidle

/-- Nested calls wait for each other, and nothing else has its turn when the last answer is there. -/
def callers (above : List DriverKey) : List (Poller Co Fu) :=
  above.map fun key => .waiting key ⟨[.call], []⟩

/-- The driver in focus lives in a task of its own, or is called by one that does, at any depth. -/
def ThroughCalls (l : EventLoop Co Fu) : Prop :=
  ∀ pollers key doing, l.focus = .active pollers key doing → ∃ above, pollers = callers above

/-- A put of a driver of the home is under way, and the sink is not to be called before the deferred
homes are queued. -/
inductive Postponed (l : EventLoop Co Fu) (home : DriverKey) : Prop
  | yielded (above : List DriverKey) {d : Driver Co Fu} {event : Json}
      (hd : l.driver? d.key = some d) (hhome : d.home = home)
      (hf : l.focus = .active (callers above) d.key (.process (.builtin .put) (.put event) {}))
  | given (above : List DriverKey) {d : Driver Co Fu} {event : Json}
      (hd : l.driver? d.key = some d) (hhome : d.home = home)
      (hf : l.focus = .active (callers above) d.key (.await .turn ⟨[.deliver event], []⟩))
  /-- The poll that has yielded the put comes to its end. -/
  | ends (above : List DriverKey) {key : DriverKey} {doing : Doing Co Fu}
      (hf : l.focus = .active (callers above) key doing)
      (hdoing : doing = .leave none ∨ ∃ branch, doing = .pause branch [])
      (hle : home.val ≤ l.lastKey) (hdeferred : home ∈ l.deferred)
  /-- Others are polled. -/
  | aside (h : Aside l home) (hle : home.val ≤ l.lastKey)
      (hdeferred : home ∈ l.deferred ∨ ∀ d ∈ l.drivers, d.key ≠ home)

/-- What is deferred stays so until it is queued, if its home is left alone and its driver there. -/
theorem deferred_of_aside {m : Move Co Fu} (haside : Aside l home) (hdeferred : home ∈ l.deferred)
    (hflush : l.focus = .idle → m ≠ .flush) :
    home ∈ (l.move p m).deferred ∨ ∀ d ∈ (l.move p m).drivers, d.key ≠ home := by
  have hturn := turn_move p m (l := l)
  generalize l.move p m = l' at hturn
  cases hturn with
  | outside hidle m => exact l.outside_deferred p (hflush hidle) hdeferred
  | refused _ _ => exact .inl hdeferred
  | leave _ _ outcome => exact .inl ((l.leave_deferred p _ outcome _).symm ▸ hdeferred)
  | driver hf hd hleave =>
    rename_i pollers f doing
    left
    by_cases hcrash : doing = .crash
    · subst hcrash
      have hne := haside f (mem_of_driver? hd) (by
        rw [parties_of_active hf]
        exact List.mem_cons_self)
      refine List.mem_filter.mpr ⟨?_, decide_eq_true (Ne.symm hne)⟩
      rw [foldl_abandon_deferred]
      exact hdeferred
    · exact (l.stepDriver_deferred p pollers f hcrash).subset hdeferred

/-- At the end of a poll the callers come to rest, one after the other, until the loop is idle. -/
theorem postponed_leave {above : List DriverKey} (hle : home.val ≤ l.lastKey)
    (hdeferred : home ∈ l.deferred) :
    Postponed (l.leave p key none (callers above)) home := by
  cases above with
  | nil => exact .aside (.of_idle rfl home) hle (.inl hdeferred)
  | cons owner above => exact .ends above rfl (.inr ⟨_, rfl⟩) hle hdeferred

/-- **The home of a put is left alone** from the yield on, until the deferred homes are queued. -/
theorem postponed_move (ho : Orderly l) (hh : Housed l) {m : Move Co Fu}
    (hladdered : Laddered (l.move p m)) (h : Postponed l home)
    (hhonours : l.focus = .idle → Honours l m) (hflush : l.focus = .idle → m ≠ .flush) :
    Postponed (l.move p m) home := by
  by_cases hrefused : l.focus ≠ .idle ∧ m ≠ .step
  · obtain ⟨hactive, hm⟩ := hrefused
    cases hfocus : l.focus with
    | idle => exact absurd hfocus hactive
    | active pollers key doing => rwa [move_of_active p hfocus hm]
  have hstep : ∀ {pollers key doing}, l.focus = .active pollers key doing → m = .step := by
    intro pollers key doing hf
    by_contra hm
    exact hrefused ⟨by simp [hf], hm⟩
  cases h with
  | yielded above hd hhome hf =>
    cases hstep hf
    rw [move_step_of_driver p hf hd (not_leave_of_works rfl)]
    exact .given above hd hhome rfl
  | @given above d event hd hhome hf =>
    cases hstep hf
    rw [move_step_of_driver p hf hd (not_leave_of_works rfl)]
    have hwakes : (callers above : List (Poller Co Fu)).all Poller.wakes = true := by
      simp [callers, Poller.wakes]
    have hwait : l.wait (callers above) d .turn = { l with deferred := l.deferred ++ [d.home] } := by
      unfold wait
      rw [if_pos hwakes]
    refine .ends above rfl (.inr ⟨.waiting .turn [.deliver event], rfl⟩) ?_ ?_
    · show home.val ≤ (l.wait (callers above) d .turn).lastKey
      rw [hwait, ← hhome]
      exact hh.bounded d (mem_of_driver? hd)
    · show home ∈ (l.wait (callers above) d .turn).deferred
      rw [hwait, ← hhome]
      exact List.mem_append_right _ List.mem_cons_self
  | @ends above key doing hf hdoing hle hdeferred =>
    cases hstep hf
    rcases hdoing with rfl | ⟨branch, rfl⟩
    · rw [move_step_of_leave p hf]
      exact postponed_leave p hle hdeferred
    · cases hd : l.driver? key with
      | none =>
        rw [move_step_of_gone p hf (not_leave_of_works rfl) hd]
        exact postponed_leave p hle hdeferred
      | some d =>
        cases key_of_driver? hd
        rw [move_step_of_driver p hf hd (not_leave_of_works rfl)]
        exact .ends above rfl (.inl rfl) hle hdeferred
  | aside haside hle hdeferred =>
    have haside' : Aside (l.move p m) home := by
      refine aside_move p ho m hladdered (housed_move p ho hh m) haside fun hidle ps hf => ?_
      rw [move_of_idle p hidle] at hf
      refine hdeferred.resolve_left fun hdeferred => ?_
      rcases (focus_outside p hidle hf).2.1 with rfl | ⟨byHand, rfl⟩
      · exact hhonours hidle hdeferred
      · exact hhonours hidle hdeferred
    obtain ⟨_, _, htouches⟩ := touches_move p ho.proper m
    refine .aside haside' (Nat.le_trans hle htouches.lastKey_le) ?_
    rcases hdeferred with hdeferred | hgone
    · exact deferred_of_aside p haside hdeferred hflush
    · exact .inr (gone_move p ho.proper hle hgone m)

/-- While a put of the home is postponed, no driver that lives there calls a sink. -/
theorem not_called_of_postponed (h : Postponed l home)
    (hkey : ∀ d ∈ l.drivers, d.key = key → d.home = home) (m : Move Co Fu) :
    (l.putEvents m key).filterMap PutEvent.called? = [] := by
  have hsink : ∀ {pollers doing d}, l.focus = .active pollers key doing → l.driver? key = some d →
      doing.sink? d = none := by
    intro pollers doing d hfocus hd
    have hdk := key_of_driver? hd
    cases h with
    | yielded _ _ _ hf =>
      cases hfocus.symm.trans hf
      unfold Doing.sink?
      cases d.job <;> rfl
    | given _ _ _ hf =>
      cases hfocus.symm.trans hf
      unfold Doing.sink?
      cases d.job <;> rfl
    | ends _ hf hdoing _ _ =>
      cases hfocus.symm.trans hf
      unfold Doing.sink?
      rcases hdoing with rfl | ⟨branch, rfl⟩ <;> cases d.job <;> rfl
    | aside haside _ _ =>
      refine absurd (hkey d (mem_of_driver? hd) hdk) (haside d (mem_of_driver? hd) ?_)
      rw [parties_of_active hfocus, hdk]
      exact List.mem_cons_self
  rw [List.filterMap_eq_nil_iff]
  intro x hx
  unfold putEvents at hx
  split at hx
  · rename_i pollers k doing hfocus
    split at hx
    · rename_i hk
      subst hk
      cases hd : l.driver? k with
      | none =>
        rw [hd] at hx
        cases hx
      | some d =>
        rw [hd, Option.map_some, Option.getD_some, Doing.putEvents, hsink hfocus hd] at hx
        rw [Option.toList_none, List.append_nil] at hx
        obtain ⟨e, _, rfl⟩ := List.mem_map.mp hx
        rfl
    · cases hx
  · cases hx

/-- **A put is postponed until the deferred homes are queued**, for which the loop is idle. -/
theorem postponed_until_flush {first rest : List (Move Co Fu)}
    (hown : OwnersPollIn p (first ++ rest)) (hpatient : Patient p {} (first ++ rest))
    (h : Postponed (after p {} first) home) :
    (∀ moves, moves <+: rest → Postponed (after p {} (first ++ moves)) home) ∨
    ∃ middle later, rest = middle ++ .flush :: later ∧
      (after p {} (first ++ middle)).focus = .idle ∧
        ∀ moves, moves <+: middle → Postponed (after p {} (first ++ moves)) home := by
  induction rest using List.reverseRecOn with
  | nil =>
    left
    intro moves hmoves
    rwa [List.prefix_nil.mp hmoves, List.append_nil]
  | append_singleton rest m ih =>
    rw [← List.append_assoc] at hown hpatient
    have hown' : OwnersPollIn p (first ++ rest) := fun a ha => hown a (ha.trans (List.prefix_append ..))
    rcases ih hown' hpatient.of_append with hall | ⟨middle, later, rfl, hidle, hall⟩
    · by_cases hflush : (after p {} (first ++ rest)).focus = .idle ∧ m = .flush
      · obtain ⟨hidle, rfl⟩ := hflush
        exact .inr ⟨rest, [], rfl, hidle, hall⟩
      · left
        intro moves hmoves
        rcases List.prefix_concat_iff.mp hmoves with rfl | hmoves
        · rw [← List.append_assoc, after_snoc]
          refine postponed_move p (orderly_after p _) (housed_after p _) ?_
            (hall rest (List.prefix_refl _)) ?_ fun hidle he => hflush ⟨hidle, he⟩
          · rw [← after_snoc]
            exact (wakeful_after p _ hown).1.laddered
          · exact hpatient.honours
        · exact hall moves hmoves
    · exact .inr ⟨middle, later ++ [m], by simp, hidle, hall⟩

/-- As long as a put of its home is postponed a driver calls no sink. -/
theorem no_call_while_postponed {first moves : List (Move Co Fu)} (hd : d ∈ (after p {} first).drivers)
    (h : ∀ more, more <+: moves → Postponed (after p {} (first ++ more)) d.home) :
    (putLogFrom p (after p {} first) d.key moves).filterMap PutEvent.called? = [] := by
  have ho := orderly_after p first
  induction moves using List.reverseRecOn with
  | nil => rfl
  | append_singleton moves m ih =>
    have htold : ∀ es : List (TaskEvent Co),
        (es.map PutEvent.told).filterMap PutEvent.called? = [] := by
      intro es
      simp [List.filterMap_map, Function.comp_def, PutEvent.called?]
    have hpost := h moves (List.prefix_append moves [m])
    rw [after_append] at hpost
    have hnone : ((after p (after p {} first) moves).putEvents m d.key).filterMap
        PutEvent.called? = [] := by
      refine not_called_of_postponed hpost (fun x hx hk => ?_) m
      obtain ⟨d₀, hd₀, hk₀, _, hhome, _⟩ :=
        exists_earlier p ho.proper moves hx (hk ▸ (ho.proper d hd).1)
      rw [← hhome, ho.eq_of_key hd₀ hd (hk₀.trans hk)]
    rw [putLogFrom_append, putLogFrom, putLogFrom, List.append_nil, List.filterMap_append,
      List.filterMap_append, htold, hnone, ih fun more hmore => h more (hmore.trans ⟨[m], rfl⟩)]
    rfl

/-- **A put waits for its turn.** In a run in which nested drivers are left to their owners and what is
deferred is honoured, the sink is not called for a put that is postponed before the deferred homes are
queued. At that moment no poll is under way, so the poll that yielded the put is over, and no task is
left in the queue; and every task that was queued at any moment since the yield has been polled after
that moment, unless the surroundings dropped it or it was at the end of its own last poll. -/
theorem turn_before_call {first rest : List (Move Co Fu)}
    (hown : OwnersPollIn p (first ++ rest)) (hpatient : Patient p {} (first ++ rest))
    (hd : d ∈ (after p {} first).drivers) (h : Postponed (after p {} first) d.home) {event : Json}
    (hcall : .called event ∈ putLogFrom p (after p {} first) d.key rest) :
    ∃ middle later, rest = middle ++ .flush :: later ∧
      (putLogFrom p (after p {} first) d.key middle).filterMap PutEvent.called? = [] ∧
      (after p {} (first ++ middle)).focus = .idle ∧ Drained (after p {} (first ++ middle)) ∧
      ∀ moves more, middle = moves ++ more → ∀ t ∈ (after p {} (first ++ moves)).drivers,
        t.owner = .loop → t.key ∈ (after p {} (first ++ moves)).queue →
        PolledIn p (after p {} (first ++ moves)) more t.key ∨
        DroppedIn p (after p {} (first ++ moves)) more t.key ∨
        (¬ Aside (after p {} (first ++ moves)) t.key ∧
          ∀ t' ∈ (after p {} (first ++ middle)).drivers, t'.key ≠ t.key) := by
  rcases postponed_until_flush p hown hpatient h with hall | ⟨middle, later, rfl, hidle, hall⟩
  · have hnone := no_call_while_postponed p hd hall
    rw [List.filterMap_eq_nil_iff] at hnone
    cases hnone _ hcall
  have hdrained : Drained (after p {} (first ++ middle)) := by
    rw [← List.append_assoc] at hpatient
    exact hpatient.honours p hidle
  refine ⟨middle, later, rfl, no_call_while_postponed p hd hall, hidle, hdrained, ?_⟩
  rintro moves more rfl t ht howner hq
  rw [← List.append_assoc, ← List.append_assoc] at hown
  have hown' : OwnersPollIn p (first ++ moves ++ more) := fun a ha =>
    hown a (ha.trans (List.prefix_append ..))
  rw [← List.append_assoc] at hdrained ⊢
  rcases queued_until_polled p hown' ht howner hq with h | h | h | ⟨⟨t', ht', hk, howner'⟩, hq', _⟩
  · exact .inl h
  · exact .inr (.inl h)
  · exact .inr (.inr h)
  · rw [← hk] at hq'
    exact absurd hq' (hdrained t' ht' howner')

end

end EventLoop

end EffectLoop
