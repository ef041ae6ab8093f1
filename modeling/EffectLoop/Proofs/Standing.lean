import EffectLoop.Proofs.Focus
import EffectLoop.Proofs.Protocol

/-!
# Where a driver stands in the protocol

`Stands` ties the state of the loop to a phase of the driver protocol. What others do leaves a driver
where it stands (`stands_elsewhere`, `stands_leave`), and what it does itself takes it along with the
event that it is (`carries_step`).

A coroutine that joins a task is followed more closely: while the built-in processor has its effect,
all that its driver does is to look for the outcome of that task (`Joins`).
-/

namespace EffectLoop

variable {Co Fu : Type}

/-- What the driver `d` is about to do, if it is an event of its coroutine. -/
def Doing.event? (d : Driver Co Fu) (doing : Doing Co Fu) : Option (TaskEvent Co) :=
  match d.job, doing with
  | .coroutine co _ _, .resume input => some (.resumed co input)
  | .coroutine _ _ _, .advance (.ret (.yield y co)) => some (.yielded y co)
  | .coroutine _ _ _, .advance (.ret (.done o _)) => some (.returned o)
  | .coroutine _ _ _, .process ref e ⟨[], []⟩ => some (.given ref e)
  | .coroutine _ _ _, .answer r ⟨[], []⟩ => some (.resolved r)
  | .coroutine _ _ _, .finish o => some (.ended o)
  | _, _ => none

/-- The effect joins this task by the built-in processor. -/
def JoinOf (ref : ProcessorRef) (e : Effect) (h : TaskHandle) : Prop :=
  ref = .builtin .join ∧ e = .join h

namespace EventLoop

/-! ## Where a driver stands in the protocol -/

/-- The driver does no more than look for the outcome of the task it joins. -/
def Joins (l : EventLoop Co Fu) (h : TaskHandle) : Doing Co Fu → Prop
  | .await w spot => w = .task h ∧ spot = {}
  | .visit branch forks | .pause branch forks => branch = .waiting (.task h) [] ∧ forks = []
  | .answer r spot => spot = {} ∧ ∃ o, l.outcome? h = some o ∧ r = o.map .value
  | _ => False

/-- What a driver that works does fits the phase of its coroutine. -/
def Does (l : EventLoop Co Fu) (co : Co) (passes : Nat) (ph : Phase Co) : Doing Co Fu → Prop
  | .resume input => ph = .owed co input passes
  | .advance _ => ph = .running passes
  | .process ref e ⟨[], []⟩ => passes = 0 ∧ ph = .routed co ref e
  | .finish o => ph = .ending o
  | .crash => ∀ co' ref e t, ph = .processing co' ref e → ¬ JoinOf ref e t
  | doing => passes = 0 ∧ ∃ ref e, ph = .processing co ref e ∧ ∀ h, JoinOf ref e h → l.Joins h doing

/-- The place and the activity of a driver fit the phase of its coroutine. A driver that is busy
while no poll holds it was left so by a panic, and nothing more happens to it. -/
def Fits (l : EventLoop Co Fu) (activity : Activity Fu) (co : Co) (passes : Nat) (ph : Phase Co) :
    Place Co Fu → Prop
  | .working doing => l.Does co passes ph doing
  | .body => ph = .running passes
  | .waiting => passes = 0 ∧ ∃ ref e, ph = .processing co ref e ∧ ∀ h, ¬ JoinOf ref e h
  | .away =>
    match activity with
    | .fresh => ph = .owed co (.ok (.value .null)) passes
    | .pending branch => passes = 0 ∧ ∃ ref e, ph = .processing co ref e ∧
        ∀ h, JoinOf ref e h → branch = .waiting (.task h) []
    | .busy => True

/-- The driver `d` drives a coroutine that is in the phase `ph`. -/
def Stands (l : EventLoop Co Fu) (d : Driver Co Fu) (ph : Phase Co) : Prop :=
  match d.job with
  | .coroutine co passes _ => l.Fits d.activity co passes ph (l.place d.key)
  | .plain => False

theorem stands_iff {l : EventLoop Co Fu} {d : Driver Co Fu} {ph : Phase Co} {co : Co}
    {passes : Nat} {kind : EffectKind} (hjob : d.job = .coroutine co passes kind) :
    Stands l d ph ↔ l.Fits d.activity co passes ph (l.place d.key) := by
  unfold Stands
  rw [hjob]

theorem exists_job_of_stands {l : EventLoop Co Fu} {d : Driver Co Fu} {ph : Phase Co}
    (h : Stands l d ph) : ∃ co passes kind, d.job = .coroutine co passes kind := by
  unfold Stands at h
  cases hjob : d.job with
  | coroutine co passes kind => exact ⟨co, passes, kind, rfl⟩
  | plain =>
    rw [hjob] at h
    exact h.elim

/-- Among the pollers nobody works. -/
theorem placeIn_ne_working (key : DriverKey) (pollers : List (Poller Co Fu)) (doing : Doing Co Fu) :
    placeIn key pollers ≠ .working doing := by
  induction pollers with
  | nil => exact nofun
  | cons poller pollers ih =>
    cases poller with
    | hand => exact ih
    | body k f =>
      unfold placeIn
      split
      · exact nofun
      · exact ih
    | waiting k spot =>
      unfold placeIn
      split
      · exact nofun
      · exact ih

/-- Unless a driver works, no other part of the state matters. -/
theorem Fits.congr {l l' : EventLoop Co Fu} {activity : Activity Fu} {co : Co} {passes : Nat}
    {ph : Phase Co} {place : Place Co Fu} (hplace : ∀ doing, place ≠ .working doing)
    (h : l.Fits activity co passes ph place) : l'.Fits activity co passes ph place := by
  cases place with
  | working doing => exact absurd rfl (hplace doing)
  | _ => exact h

/-- A computation fits the phase in which the effect is processed. -/
theorem does_of_computes {l : EventLoop Co Fu} {doing : Doing Co Fu} (hc : doing.computes = true)
    {co : Co} {ref : ProcessorRef} {e : Effect} (hj : ∀ h, JoinOf ref e h → l.Joins h doing) :
    l.Does co 0 (.processing co ref e) doing := by
  unfold Does
  split
  case h_6 => exact ⟨rfl, ref, e, rfl, hj⟩
  all_goals cases hc

theorem computes_of_does {l : EventLoop Co Fu} {doing : Doing Co Fu} (hc : doing.computes = true)
    {co : Co} {passes : Nat} {ph : Phase Co} (h : l.Does co passes ph doing) :
    passes = 0 ∧ ∃ ref e, ph = .processing co ref e ∧ ∀ h, JoinOf ref e h → l.Joins h doing := by
  unfold Does at h
  split at h
  case h_6 => exact h
  all_goals cases hc

/-! ## Drivers that do not act -/

section

variable (p : Program Co Fu) {l : EventLoop Co Fu} {pollers : List (Poller Co Fu)}
  {d : Driver Co Fu} {ph : Phase Co}

/-- A driver that works at something that fits. -/
theorem stands_of_does {co : Co} {passes : Nat} {kind : EffectKind} {doing : Doing Co Fu}
    (hjob : d.job = .coroutine co passes kind) (hfocus : l.focus = .active pollers d.key doing)
    (hw : doing.works = true) (h : l.Does co passes ph doing) : Stands l d ph := by
  rw [stands_iff hjob, place_of_works hfocus hw]
  exact h

/-- A driver that is away in either state, and unchanged. -/
theorem stands_of_away {l' : EventLoop Co Fu} (haway : l.place d.key = .away)
    (haway' : l'.place d.key = .away) (h : Stands l d ph) : Stands l' d ph := by
  obtain ⟨co, passes, kind, hjob⟩ := exists_job_of_stands h
  rw [stands_iff hjob, haway] at h
  rw [stands_iff hjob, haway']
  exact Fits.congr (fun _ => nofun) h

/-- A driver that a poll held when it broke off is stuck, in whatever phase. -/
theorem stands_of_busy {co : Co} {passes : Nat} {kind : EffectKind}
    (hjob : d.job = .coroutine co passes kind) (hbusy : d.activity = .busy)
    (haway : l.place d.key = .away) : Stands l d ph := by
  rw [stands_iff hjob, hbusy, haway]
  trivial

/-- A driver that has come to rest with its effect unanswered. -/
theorem stands_of_pending {co : Co} {kind : EffectKind} {branch : Branch Fu}
    (hjob : d.job = .coroutine co 0 kind) (hactivity : d.activity = .pending branch)
    (haway : l.place d.key = .away) {ref : ProcessorRef} {e : Effect}
    (hj : ∀ t, JoinOf ref e t → branch = .waiting (.task t) []) :
    Stands l d (.processing co ref e) := by
  rw [stands_iff hjob, hactivity, haway]
  exact ⟨rfl, ref, e, rfl, hj⟩

/-- **A step of one driver leaves the others where they stand.** -/
theorem stands_elsewhere (ho : Orderly l) {key : DriverKey} {doing : Doing Co Fu}
    (hfocus : l.focus = .active pollers key doing) (hd : d ∈ l.drivers) (hne : d.key ≠ key)
    {l' : EventLoop Co Fu} (hn : NextFocus pollers key l'.focus) (h : Stands l d ph) :
    Stands l' d ph := by
  obtain ⟨co, passes, kind, hjob⟩ := exists_job_of_stands h
  rcases hn.place_eq hne with hplace | hidle
  · rw [stands_iff hjob, place_of_ne hfocus hne] at h
    rw [stands_iff hjob, hplace]
    exact Fits.congr (placeIn_ne_working d.key pollers) h
  · by_cases hheld : d.key ∈ l.held
    · rcases ho.busy d hd hheld with hbusy | ⟨ps, input, hf⟩
      · exact stands_of_busy hjob hbusy (place_of_idle hidle d.key)
      · rw [hfocus] at hf
        exact absurd (Focus.active.inj hf).2.1.symm hne
    · exact stands_of_away (place_eq_away hheld) (place_of_idle hidle d.key) h

/-- The end of a poll hands the focus back to the poller, which goes on where it stands. -/
theorem stands_leave (ho : Orderly l) {key : DriverKey} {doing : Doing Co Fu}
    (hfocus : l.focus = .active pollers key doing)
    (hgone : doing.works = true → ∀ d ∈ l.drivers, d.key ≠ key) (hd : d ∈ l.drivers)
    (outcome : Option Outcome) (h : Stands l d ph) :
    Stands (l.leave p key outcome pollers) d ph := by
  obtain ⟨co, passes, kind, hjob⟩ := exists_job_of_stands h
  have hplace : l.place d.key = placeIn d.key pollers := by
    cases hw : doing.works with
    | true => exact place_of_ne hfocus (hgone hw d hd)
    | false => exact place_of_not_works hfocus hw d.key
  have hbusy : d.key ∈ pollers.filterMap Poller.key? → d.activity = .busy := by
    intro hmem
    have hheld : d.key ∈ l.held := by
      cases hw : doing.works with
      | true =>
        rw [held_of_works hfocus hw]
        exact List.mem_cons_of_mem _ hmem
      | false => rwa [held_of_not_works hfocus hw]
    rcases ho.busy d hd hheld with hb | ⟨ps, input, hf⟩
    · exact hb
    · rw [hfocus] at hf
      cases hf
      exact absurd rfl (hgone rfl d hd)
  have hidle : (l.leave p key outcome pollers).focus = .idle →
      Stands (l.leave p key outcome pollers) d ph := by
    intro hi
    by_cases hmem : d.key ∈ pollers.filterMap Poller.key?
    · exact stands_of_busy hjob (hbusy hmem) (place_of_idle hi d.key)
    · exact stands_of_away (hplace.trans (placeIn_of_not_mem hmem)) (place_of_idle hi d.key) h
  rw [stands_iff hjob, hplace] at h
  cases pollers with
  | nil => exact hidle rfl
  | cons poller pollers =>
    by_cases hk : poller.key? = some d.key
    · cases poller with
      | hand => cases hk
      | body owner k =>
        cases hk
        refine stands_of_does hjob rfl rfl ?_
        rwa [placeIn, if_pos rfl] at h
      | waiting owner spot =>
        cases hk
        rw [placeIn, if_pos rfl] at h
        obtain ⟨rfl, ref, e, rfl, hj⟩ := h
        have hnot : ∀ (l' : EventLoop Co Fu) doing h, JoinOf ref e h → l'.Joins h doing :=
          fun _ _ h hjoin => absurd hjoin (hj h)
        cases outcome with
        | none => exact stands_of_does hjob rfl rfl (does_of_computes rfl (hnot _ _))
        | some o => exact stands_of_does hjob rfl rfl (does_of_computes rfl (hnot _ _))
    · rw [placeIn_cons_of_ne hk] at h
      cases poller with
      | hand => exact hidle rfl
      | body owner k =>
        have hne : d.key ≠ owner := fun he => hk (congrArg some he.symm)
        rw [stands_iff hjob]
        refine (place_of_ne (l := l.leave p key outcome (.body owner k :: pollers)) rfl hne).symm ▸ ?_
        exact Fits.congr (placeIn_ne_working d.key pollers) h
      | waiting owner spot =>
        have hne : d.key ≠ owner := fun he => hk (congrArg some he.symm)
        rw [stands_iff hjob]
        cases outcome with
        | none =>
          rw [place_of_ne (l := l.leave p key none (.waiting owner spot :: pollers)) rfl hne]
          exact Fits.congr (placeIn_ne_working d.key pollers) h
        | some o =>
          rw [place_of_ne (l := l.leave p key (some o) (.waiting owner spot :: pollers)) rfl hne]
          exact Fits.congr (placeIn_ne_working d.key pollers) h

/-- A driver that is polled begins to act where it stands, if nobody holds it. -/
theorem stands_poll (ho : Orderly l) (hfocus : l.focus = .active pollers d.key .poll)
    (hd : d ∈ l.drivers) (h : Stands l d ph) {d' : Driver Co Fu}
    (hd' : d' ∈ (l.stepDriver p pollers d .poll).drivers) (hk : d'.key = d.key) :
    Stands (l.stepDriver p pollers d .poll) d' ph := by
  obtain ⟨co, passes, kind, hjob⟩ := exists_job_of_stands h
  have hu : ∀ x ∈ l.drivers, x.key = d.key → x = d := fun x hx => ho.eq_of_key hx hd
  have hplace := place_of_not_works hfocus rfl d.key
  by_cases hheld : d.key ∈ pollers.filterMap Poller.key?
  · rw [(poll_of_held p ho hfocus hd hheld).2] at hd' ⊢
    cases hu d' hd' hk
    rw [stands_iff hjob, hplace] at h
    rw [stands_iff hjob, place_of_not_works rfl rfl]
    exact Fits.congr (placeIn_ne_working _ _) h
  · have haway : l.place d.key = .away := hplace.trans (placeIn_of_not_mem hheld)
    rw [stands_iff hjob, haway] at h
    unfold stepDriver at hd' ⊢
    cases hactivity : d.activity with
    | fresh =>
      rw [hactivity] at h hd'
      dsimp only at hd' ⊢
      cases hu d' hd' hk
      exact stands_of_does hjob rfl rfl h
    | pending branch =>
      rw [hactivity] at h hd'
      dsimp only at hd' ⊢
      cases eq_of_mem_modifyDriver hu hd' hk
      obtain ⟨rfl, ref, e, rfl, hj⟩ := h
      refine stands_of_does hjob rfl rfl (does_of_computes rfl fun h hjoin => ?_)
      exact ⟨hj h hjoin, rfl⟩
    | busy =>
      rw [hactivity] at hd'
      dsimp only at hd' ⊢
      cases hu d' hd' hk
      refine stands_of_busy hjob hactivity ?_
      rw [place_of_not_works rfl rfl]
      exact placeIn_of_not_mem hheld

/-! ## The driver that acts -/

/-- The step to `l'`, with its event, takes the driver from where it stands along the protocol. -/
def Carries (d : Driver Co Fu) (ph : Phase Co) (event : Option (TaskEvent Co))
    (l' : EventLoop Co Fu) : Prop :=
  ∃ ph', Phase.Follows (p.scheduler d.task.scheduler) ph event ph' ∧
    ∀ d' ∈ l'.drivers, d'.key = d.key → Stands l' d' ph'

variable {co : Co} {passes : Nat} {kind : EffectKind}

theorem carries_resume (hu : ∀ x ∈ l.drivers, x.key = d.key → x = d)
    (hjob : d.job = .coroutine co passes kind) {input : Resume}
    (h : l.Does co passes ph (.resume input)) :
    Carries p d ph ((Doing.resume input).event? d) (l.stepDriver p pollers d (.resume input)) := by
  have hph : ph = .owed co input passes := h
  subst hph
  refine ⟨.running passes, ?_, fun d' hd' hk => ?_⟩
  · unfold Doing.event?
    rw [hjob]
    exact .next (.resumed co input passes)
  · unfold stepDriver at hd' ⊢
    rw [hjob] at hd' ⊢
    cases eq_of_mem_resume hu _ hd' hk
    exact stands_of_does rfl rfl rfl rfl

theorem carries_yield (hu : ∀ x ∈ l.drivers, x.key = d.key → x = d) (y : Yielded) (co' : Co) :
    Carries p d (.running passes) (some (.yielded y co'))
      (l.stepYield p pollers d passes kind co' y) := by
  cases y with
  | pass o =>
    have hown := fun d' (hd' : d' ∈ (l.setJob d.key (.coroutine co' (passes + 1) kind)).drivers) hk =>
      eq_of_mem_modifyDriver hu hd' hk
    unfold stepYield
    dsimp only
    cases hlimit : (p.scheduler d.task.scheduler).config.passThroughLimit with
    | none =>
      refine ⟨.owed co' (.ok o) (passes + 1), .next (.passed _ _ _ ?_), fun d' hd' hk => ?_⟩
      · intro limit hsome
        rw [hlimit] at hsome
        cases hsome
      · cases hown d' hd' hk
        exact stands_of_does rfl rfl rfl rfl
    | some limit =>
      dsimp only
      by_cases hlt : limit < passes + 1
      · rw [if_pos hlt]
        refine ⟨.ending _, .next (.exceeded _ _ _ limit hlimit hlt), fun d' hd' hk => ?_⟩
        cases hown d' hd' hk
        exact stands_of_does rfl rfl rfl rfl
      · rw [if_neg hlt]
        refine ⟨.owed co' (.ok o) (passes + 1), .next (.passed _ _ _ ?_), fun d' hd' hk => ?_⟩
        · intro limit' hsome
          rw [hlimit] at hsome
          cases hsome
          omega
        · cases hown d' hd' hk
          exact stands_of_does rfl rfl rfl rfl
  | effect e =>
    have hown := fun d' (hd' : d' ∈ (l.setJob d.key (.coroutine co' 0 e.kind)).drivers) hk =>
      eq_of_mem_modifyDriver hu hd' hk
    unfold stepYield
    dsimp only
    cases hget : (p.scheduler d.task.scheduler).processors.get? e.kind with
    | none =>
      refine ⟨.ending _, .next (.unknown _ e co' hget), fun d' hd' hk => ?_⟩
      cases hown d' hd' hk
      exact stands_of_does rfl rfl rfl rfl
    | some ref =>
      refine ⟨.routed co' ref e, .next (.routed _ e co' ref hget), fun d' hd' hk => ?_⟩
      cases hown d' hd' hk
      exact stands_of_does rfl rfl rfl ⟨rfl, rfl⟩

/-- A step that spares the drivers, with nothing happening but the driver going on. -/
theorem carries_on (hu : ∀ x ∈ l.drivers, x.key = d.key → x = d) (hb : d.key.val ≤ l.lastKey)
    (hjob : d.job = .coroutine co passes kind) {event : Option (TaskEvent Co)} {ph' : Phase Co}
    (hf : Phase.Follows (p.scheduler d.task.scheduler) ph event ph') {l' : EventLoop Co Fu}
    (hl : Spares l l') {doing : Doing Co Fu} (hw : doing.works = true)
    (h : (l'.focusOn pollers d.key doing).Does co passes ph' doing) :
    Carries p d ph event (l'.focusOn pollers d.key doing) := by
  refine ⟨ph', hf, fun d' hd' hk => ?_⟩
  cases hl.eq_of_key hu hb hd' hk
  exact stands_of_does hjob rfl hw h

theorem carries_advance (hu : ∀ x ∈ l.drivers, x.key = d.key → x = d) (hb : d.key.val ≤ l.lastKey)
    (hjob : d.job = .coroutine co passes kind) {a : Act Co Fu (Progress Co)}
    (h : l.Does co passes ph (.advance a)) :
    Carries p d ph ((Doing.advance a).event? d) (l.stepDriver p pollers d (.advance a)) := by
  have hph : ph = .running passes := h
  subst hph
  unfold Doing.event?
  rw [hjob]
  cases a with
  | ret progress =>
    cases progress with
    | more co' => exact carries_on p hu hb hjob .still (.refl l) rfl rfl
    | poll key k =>
      refine ⟨.running passes, .still, fun d' hd' hk => ?_⟩
      cases hu d' hd' hk
      rw [stands_iff hjob, place_of_not_works rfl rfl, placeIn, if_pos rfl]
      rfl
    | yield y co' =>
      unfold stepDriver
      rw [hjob]
      exact carries_yield p hu y co'
    | done o co' =>
      exact carries_on p hu hb hjob (.next (.returned _ o)) (l.spares_dropNested d.key) rfl rfl
  | panic => exact carries_on p hu hb hjob .still (.refl l) rfl fun _ _ _ _ he => nomatch he
  | _ =>
    rw [stepDriver_advance p l pollers d rfl]
    exact carries_on p hu hb hjob .still (l.spares_perform p _ (current_le hb) _) rfl rfl

/-- A driver that computes, where the effect is not a join by the built-in processor. -/
theorem carries_computingStep (hu : ∀ x ∈ l.drivers, x.key = d.key → x = d)
    (hb : d.key.val ≤ l.lastKey) (hjob : d.job = .coroutine co 0 kind)
    (hdistinct : d.key ∉ pollers.filterMap Poller.key?) {event : Option (TaskEvent Co)}
    {co' : Co} {ref : ProcessorRef} {e : Effect} (hj : ∀ h, ¬ JoinOf ref e h) (hco : co' = co)
    (hf : Phase.Follows (p.scheduler d.task.scheduler) ph event (.processing co' ref e))
    {l' : EventLoop Co Fu} (hl : ComputingStep l pollers d l') : Carries p d ph event l' := by
  subst hco
  cases hl with
  | on hl hc =>
    exact carries_on p hu hb hjob hf hl (Doing.works_of_computes hc)
      (does_of_computes hc fun h hjoin => absurd hjoin (hj h))
  | nested key spot =>
    refine ⟨_, hf, fun d' hd' hk => ?_⟩
    cases hu d' hd' hk
    rw [stands_iff hjob, place_of_not_works rfl rfl, placeIn, if_pos rfl]
    exact ⟨rfl, ref, e, rfl, hj⟩
  | rest branch =>
    refine ⟨_, hf, fun d' hd' hk => ?_⟩
    cases eq_of_mem_modifyDriver hu hd' hk
    refine stands_of_pending (d := { d with activity := .pending branch }) hjob rfl ?_
      fun h hjoin => absurd hjoin (hj h)
    exact (place_of_not_works rfl rfl _).trans (placeIn_of_not_mem hdistinct)
  | panic =>
    refine carries_on p hu hb hjob hf (.refl l) rfl fun _ _ _ t he => ?_
    cases he
    exact hj t

/-- What a driver that joins a task does next: it looks for the outcome of the task again, or rests
until the task is settled. -/
theorem stepDriver_joins {t : TaskHandle} {doing : Doing Co Fu} (h : l.Joins t doing)
    (hroot : ∀ r, doing ≠ .answer r {}) :
    (∃ l' doing', Spares l l' ∧ doing'.computes = true ∧ l'.Joins t doing' ∧
      l.stepDriver p pollers d doing = l'.focusOn pollers d.key doing') ∨
    l.stepDriver p pollers d doing =
      (l.setActivity d.key (.pending (.waiting (.task t) []))).focusOn pollers d.key
        (.leave none) := by
  have hpeek : ∀ r, l.peek (.task t) = some r → ∃ o, l.outcome? t = some o ∧ r = o.map .value := by
    intro r hr
    obtain ⟨o, ho, rfl⟩ := Option.map_eq_some_iff.mp hr
    exact ⟨o, ho, rfl⟩
  cases doing with
  | await w spot =>
    obtain ⟨rfl, rfl⟩ := h
    rcases l.stepDriver_await p pollers d (.task t) {} with ⟨key, hw, _⟩ | ⟨r, hr, hs⟩ | ⟨_, hs⟩
    · cases hw
    · exact .inl ⟨l, .answer r {}, .refl l, rfl, ⟨rfl, hpeek r hr⟩, hs⟩
    · exact .inl ⟨_, .pause (.waiting (.task t) []) [], l.spares_wait pollers d (.task t), rfl,
        ⟨rfl, rfl⟩, hs⟩
  | visit branch forks =>
    obtain ⟨rfl, rfl⟩ := h
    rcases l.stepDriver_visit_waiting p pollers d (.task t) [] [] with
      ⟨key, hw, _⟩ | ⟨r, hr, hs⟩ | ⟨_, hs⟩
    · cases hw
    · exact .inl ⟨l, .answer r {}, .refl l, rfl, ⟨rfl, hpeek r (hr.resolve_left nofun)⟩, hs⟩
    · exact .inl ⟨l, .pause (.waiting (.task t) []) [], .refl l, rfl, ⟨rfl, rfl⟩, hs⟩
  | pause branch forks =>
    obtain ⟨rfl, rfl⟩ := h
    exact .inr rfl
  | answer r spot => exact absurd (h.1 ▸ rfl) (hroot r)
  | _ => exact h.elim

theorem carries_computes (hu : ∀ x ∈ l.drivers, x.key = d.key → x = d)
    (hb : d.key.val ≤ l.lastKey) (hjob : d.job = .coroutine co passes kind)
    (hdistinct : d.key ∉ pollers.filterMap Poller.key?) {doing : Doing Co Fu}
    (hc : doing.computes = true) (hroot : ∀ r, doing ≠ .answer r {})
    (h : l.Does co passes ph doing) :
    Carries p d ph none (l.stepDriver p pollers d doing) := by
  obtain ⟨rfl, ref, e, rfl, hj⟩ := computes_of_does hc h
  by_cases hjoin : ∃ t, JoinOf ref e t
  · obtain ⟨t, ht⟩ := hjoin
    have hone : ∀ t', JoinOf ref e t' → t' = t := fun t' ht' =>
      Effect.join.inj (ht'.2.symm.trans ht.2)
    rcases stepDriver_joins p (hj t ht) hroot with ⟨l', doing', hl, hc', hj', hs⟩ | hs
    · rw [hs]
      refine carries_on p hu hb hjob .still hl (Doing.works_of_computes hc') (does_of_computes hc' ?_)
      intro t' ht'
      rw [hone t' ht']
      exact hj'
    · rw [hs]
      refine ⟨_, .still, fun d' hd' hk => ?_⟩
      cases eq_of_mem_modifyDriver hu hd' hk
      refine stands_of_pending (d := { d with activity := .pending (.waiting (.task t) []) })
        hjob rfl ?_ fun t' ht' => by rw [hone t' ht']
      exact (place_of_not_works rfl rfl _).trans (placeIn_of_not_mem hdistinct)
  · have hno : ∀ t, ¬ JoinOf ref e t := fun t ht => hjoin ⟨t, ht⟩
    exact carries_computingStep p hu hb hjob hdistinct hno rfl .still
      (computingStep_of_computes p hb hc hroot)

theorem carries_process (hu : ∀ x ∈ l.drivers, x.key = d.key → x = d)
    (hb : d.key.val ≤ l.lastKey) (hjob : d.job = .coroutine co passes kind)
    (hdistinct : d.key ∉ pollers.filterMap Poller.key?) {ref : ProcessorRef} {e : Effect}
    (h : l.Does co passes ph (.process ref e {})) :
    Carries p d ph ((Doing.process ref e {}).event? d)
      (l.stepDriver p pollers d (.process ref e {})) := by
  obtain ⟨rfl, hph⟩ : passes = 0 ∧ ph = .routed co ref e := h
  subst hph
  have hf : Phase.Follows (p.scheduler d.task.scheduler) (.routed co ref e)
      ((Doing.process ref e {}).event? d) (.processing co ref e) := by
    show Phase.Follows _ _ ((Doing.process ref e ⟨[], []⟩).event? d) _
    unfold Doing.event?
    rw [hjob]
    exact .next (.given co ref e)
  by_cases hjoin : ∃ t, JoinOf ref e t
  · obtain ⟨t, rfl, rfl⟩ := hjoin
    show Carries p d _ _ (l.focusOn pollers d.key (.await (.task t) {}))
    refine carries_on p hu hb hjob hf (.refl l) rfl ?_
    refine does_of_computes rfl fun t' ht' => ?_
    rw [← Effect.join.inj ht'.2]
    exact ⟨rfl, rfl⟩
  · exact carries_computingStep p hu hb hjob hdistinct (fun t ht => hjoin ⟨t, ht⟩) rfl hf
      (computingStep_process p ref e {})

theorem carries_answer (hu : ∀ x ∈ l.drivers, x.key = d.key → x = d)
    (hb : d.key.val ≤ l.lastKey) (hjob : d.job = .coroutine co passes kind) {r : Resume}
    (h : l.Does co passes ph (.answer r {})) :
    Carries p d ph ((Doing.answer r {}).event? d) (l.stepDriver p pollers d (.answer r {})) := by
  obtain ⟨rfl, ref, e, rfl, _⟩ := computes_of_does rfl h
  show Carries p d _ ((Doing.answer r ⟨[], []⟩).event? d) (l.stepAnswer p pollers d r ⟨[], []⟩)
  unfold Doing.event? stepAnswer
  rw [hjob]
  have hf : Phase.Follows (p.scheduler d.task.scheduler) (.processing co ref e)
      (some (.resolved r)) (.owed co r 0) := .next (.resolved co ref e r)
  cases r with
  | ok o => exact carries_on p hu hb hjob hf (.refl l) rfl rfl
  | error err =>
    have hl : Spares l (l.record d.spans .debug .scheduler
      "Effect failed, delivering into coroutine"
      [⟨"kind", kind.tag, false⟩, ⟨"error", err.message, false⟩]) := .of_eq rfl rfl
    exact carries_on p hu hb hjob hf hl rfl rfl

theorem carries_finish (hjob : d.job = .coroutine co passes kind)
    {o : Outcome} (h : l.Does co passes ph (.finish o)) :
    Carries p d ph ((Doing.finish o).event? d) (l.stepDriver p pollers d (.finish o)) := by
  have hph : ph = .ending o := h
  subst hph
  refine ⟨.closed o, ?_, fun d' hd' hk => absurd hk (key_ne_of_mem_conclude hd')⟩
  unfold Doing.event?
  rw [hjob]
  exact .next (.ended o)

theorem carries_crash (hd : d ∈ l.drivers) (ph : Phase Co) :
    Carries p d ph none (l.stepDriver p pollers d .crash) := by
  refine ⟨ph, .still, fun d' hd' hk => absurd hk ?_⟩
  refine (mem_foldl_abandon.mp hd').2 d (List.mem_reverse.mpr (List.mem_filter.mpr ⟨hd, ?_⟩))
  exact decide_eq_true rfl

theorem event?_of_computes {doing : Doing Co Fu} (hc : doing.computes = true)
    (hroot : ∀ r, doing ≠ .answer r {}) : doing.event? d = none := by
  unfold Doing.event?
  split
  case h_5 => exact absurd rfl (hroot _)
  case h_7 => rfl
  all_goals cases hc

/-- **A step takes the driver that acts along the protocol.** -/
theorem carries_step (ho : Orderly l) {doing : Doing Co Fu}
    (hfocus : l.focus = .active pollers d.key doing) (hd : d ∈ l.drivers)
    (hleave : ∀ outcome, doing ≠ .leave outcome) (h : Stands l d ph) :
    Carries p d ph (doing.event? d) (l.stepDriver p pollers d doing) := by
  obtain ⟨co, passes, kind, hjob⟩ := exists_job_of_stands h
  have hb := (ho.proper d hd).1
  have hu : ∀ x ∈ l.drivers, x.key = d.key → x = d := fun x hx => ho.eq_of_key hx hd
  by_cases hpoll : doing = .poll
  · subst hpoll
    refine ⟨ph, ?_, fun d' hd' hk => stands_poll p ho hfocus hd h hd' hk⟩
    unfold Doing.event?
    rw [hjob]
    exact .still
  have hw : doing.works = true := by
    cases doing with
    | poll => exact absurd rfl hpoll
    | leave outcome => exact absurd rfl (hleave outcome)
    | _ => rfl
  have hdistinct : d.key ∉ pollers.filterMap Poller.key? := by
    have := ho.distinct
    rw [held_of_works hfocus hw] at this
    exact (List.nodup_cons.mp this).1
  rw [stands_iff hjob, place_of_works hfocus hw] at h
  have hcomputes : doing.computes = true → (∀ r, doing ≠ .answer r {}) →
      Carries p d ph (doing.event? d) (l.stepDriver p pollers d doing) := by
    intro hc hroot
    rw [event?_of_computes hc hroot]
    exact carries_computes p hu hb hjob hdistinct hc hroot h
  cases doing with
  | resume input => exact carries_resume p hu hjob h
  | advance a => exact carries_advance p hu hb hjob h
  | finish o => exact carries_finish p hjob h
  | crash =>
    have he : (Doing.crash : Doing Co Fu).event? d = none := by
      unfold Doing.event?
      rw [hjob]
    rw [he]
    exact carries_crash p hd ph
  | process ref e spot =>
    by_cases hs : spot = {}
    · subst hs
      exact carries_process p hu hb hjob hdistinct h
    · refine hcomputes ?_ fun r => nofun
      obtain ⟨frames, forks⟩ := spot
      cases frames with
      | cons frame frames => rfl
      | nil =>
        cases forks with
        | cons fork forks => rfl
        | nil => exact absurd rfl hs
  | answer r spot =>
    by_cases hs : spot = {}
    · subst hs
      exact carries_answer p hu hb hjob h
    · exact hcomputes rfl fun r' he => hs (Doing.answer.inj he).2
  | poll => exact absurd rfl hpoll
  | leave outcome => exact absurd rfl (hleave outcome)
  | _ => exact hcomputes rfl fun r => nofun

theorem works_of_event {doing : Doing Co Fu} {e : TaskEvent Co} (h : doing.event? d = some e) :
    doing.works = true := by
  unfold Doing.event? at h
  split at h
  case h_7 => cases h
  all_goals rfl

/-- A driver that is at work does what fits the phase of its coroutine. -/
theorem does_of_stands {doing : Doing Co Fu} (hfocus : l.focus = .active pollers d.key doing)
    (hw : doing.works = true) (h : Stands l d ph) :
    ∃ co passes kind, d.job = .coroutine co passes kind ∧ l.Does co passes ph doing := by
  obtain ⟨co, passes, kind, hjob⟩ := exists_job_of_stands h
  rw [stands_iff hjob, place_of_works hfocus hw] at h
  exact ⟨co, passes, kind, hjob, h⟩

theorem not_leave_of_event {doing : Doing Co Fu} {e : TaskEvent Co}
    (he : doing.event? d = some e) (outcome : Option Outcome) : doing ≠ .leave outcome := by
  rintro rfl
  unfold Doing.event? at he
  cases hjob : d.job <;> rw [hjob] at he <;> cases he

end

end EventLoop

end EffectLoop
