import EffectLoop.Proofs.Leaves
import EffectLoop.Proofs.Panics

/-!
# Polls in order

A nested driver belongs to the driver that entered it, and it is up to that one to poll it
(`OwnersPoll`). In a program that keeps to this, each driver that a poll has come to stands on its owner
and all of them live in one home (`Ladder`). Then the drivers that a poll under way holds are all that
are at work, and none of them rests at anything (`Regular`, `regular_move`).
-/

namespace EffectLoop

variable {Co Fu : Type}

/-- The driver that a nested one is nested in. -/
def Owner.key? : Owner → Option DriverKey
  | .driver key => some key
  | _ => none

theorem Owner.eq_driver_of_key? {owner : Owner} {key : DriverKey} (h : owner.key? = some key) :
    owner = .driver key := by
  cases owner with
  | driver k => exact congrArg Owner.driver (Option.some.inj h)
  | _ => cases h

namespace EventLoop

variable {l l' : EventLoop Co Fu} {pollers : List (Poller Co Fu)} {key : DriverKey}

/-! ## Who polls whom -/

/-- What is polled is polled by its owner, or by no driver if it is nested in none. -/
def OwnersPoll (l : EventLoop Co Fu) : Prop :=
  ∀ pollers key, l.focus = .active pollers key .poll → ∀ d ∈ l.drivers, d.key = key →
    d.owner.key? = pollers.head?.bind Poller.key?

/-- All along the run, what is polled is polled by its owner. -/
def OwnersPollIn (p : Program Co Fu) (moves : List (Move Co Fu)) : Prop :=
  ∀ first, first <+: moves → OwnersPoll (after p {} first)

/-- The driver `key` and those that poll it, each on its owner and all in one home. -/
inductive Ladder (l : EventLoop Co Fu) (home : DriverKey) : DriverKey → List (Poller Co Fu) → Prop
  | floor {key : DriverKey} {pollers : List (Poller Co Fu)}
      (hp : pollers.filterMap Poller.key? = [])
      (h : ∀ d ∈ l.drivers, d.key = key → d.home = home ∧ d.IsRoot) : Ladder l home key pollers
  | rung {key k : DriverKey} {poller : Poller Co Fu} {pollers : List (Poller Co Fu)}
      (hp : poller.key? = some k)
      (h : ∀ d ∈ l.drivers, d.key = key → d.home = home ∧ d.owner = .driver k)
      (hbelow : Ladder l home k pollers) : Ladder l home key (poller :: pollers)

/-- A poll under way goes by owners. -/
def Laddered (l : EventLoop Co Fu) : Prop :=
  ∀ pollers key doing, l.focus = .active pollers key doing → ∃ home, Ladder l home key pollers

namespace Ladder

variable {home : DriverKey}

/-- Drivers that are new or go away do not matter to a ladder. -/
theorem mono (h : Ladder l home key pollers)
    (hold : ∀ d' ∈ l'.drivers, d'.key = key ∨ d'.key ∈ pollers.filterMap Poller.key? →
      ∃ d ∈ l.drivers, d.key = d'.key ∧ d.owner = d'.owner ∧ d.home = d'.home) :
    Ladder l' home key pollers := by
  induction h with
  | floor hp h =>
    refine .floor hp fun d' hd' hk => ?_
    obtain ⟨d, hd, hkey, howner, hhome⟩ := hold d' hd' (.inl hk)
    obtain ⟨hh, hr⟩ := h d hd (hkey.trans hk)
    refine ⟨hhome.symm.trans hh, fun k => ?_⟩
    rw [← howner]
    exact hr k
  | rung hp h _ ih =>
    refine .rung hp (fun d' hd' hk => ?_) (ih fun d' hd' hk => hold d' hd' (.inr ?_))
    · obtain ⟨d, hd, hkey, howner, hhome⟩ := hold d' hd' (.inl hk)
      obtain ⟨hh, ho⟩ := h d hd (hkey.trans hk)
      exact ⟨hhome.symm.trans hh, howner.symm.trans ho⟩
    · rw [List.filterMap_cons_some hp]
      exact List.mem_cons.mpr hk

theorem of_drivers_eq (h : Ladder l home key pollers) (hd : l'.drivers = l.drivers) :
    Ladder l' home key pollers :=
  h.mono fun d hmem _ => ⟨d, hd ▸ hmem, rfl, rfl, rfl⟩

/-- All that take part in a poll live in one home. -/
theorem home_eq (h : Ladder l home key pollers) {d : Driver Co Fu} (hd : d ∈ l.drivers)
    (hk : d.key = key ∨ d.key ∈ pollers.filterMap Poller.key?) : d.home = home := by
  induction h with
  | floor hp h =>
    rw [hp] at hk
    exact (h d hd (hk.resolve_right List.not_mem_nil)).1
  | rung hp h _ ih =>
    rw [List.filterMap_cons_some hp, List.mem_cons] at hk
    rcases hk with hk | hk
    · exact (h d hd hk).1
    · exact ih hk

/-- Below a hand there is no driver. -/
theorem hand_last (h : Ladder l home key pollers) :
    ∀ rest, pollers = .hand :: rest → rest.filterMap Poller.key? = [] := by
  rintro rest rfl
  cases h with
  | floor hp _ => exact hp
  | rung hp _ _ => cases hp

end Ladder

section

variable (p : Program Co Fu) {d : Driver Co Fu}

/-- A step leaves the pollers as they are, or the driver begins to poll a nested one. -/
theorem DriverStep.pollers_eq (h : DriverStep p l pollers d l') {ps : List (Poller Co Fu)}
    {doing : Doing Co Fu} (hf : l'.focus = .active ps key doing) :
    ps = pollers ∧ key = d.key ∨
      ∃ poller, poller.key? = some d.key ∧ ps = poller :: pollers ∧ l' = l.focusOn ps key .poll := by
  cases h with
  | nested hpoller k =>
    cases hf
    exact .inr ⟨_, hpoller, rfl, rfl⟩
  | crash => cases hf
  | yield _ co' y =>
    refine .inl ?_
    unfold stepYield at hf
    cases y with
    | pass o =>
      dsimp only at hf
      split at hf
      · split at hf
        · cases hf
          exact ⟨rfl, rfl⟩
        · cases hf
          exact ⟨rfl, rfl⟩
      · cases hf
        exact ⟨rfl, rfl⟩
    | effect e =>
      dsimp only at hf
      split at hf
      · cases hf
        exact ⟨rfl, rfl⟩
      · cases hf
        exact ⟨rfl, rfl⟩
  | _ =>
    cases hf
    exact .inl ⟨rfl, rfl⟩

theorem Laddered.empty : Laddered ({} : EventLoop Co Fu) := fun _ _ _ h => nomatch h

/-- What the surroundings begin to poll is at the bottom of a ladder. -/
theorem laddered_outside (hidle : l.focus = .idle) {m : Move Co Fu} (hh : Housed (l.outside p m))
    (hown : OwnersPoll (l.outside p m)) : Laddered (l.outside p m) := by
  intro ps key doing hf
  rcases outside_focus p hidle m with hi | ⟨ps', k, hf', hps⟩
  · rw [hi] at hf
    cases hf
  · rw [hf'] at hf
    cases hf
    refine ⟨key, .floor hps fun d hd hk => ?_⟩
    have hroot : d.IsRoot := by
      intro k hk'
      have hhead := hown _ _ hf' d hd hk
      rw [hk'] at hhead
      cases ps with
      | nil => cases hhead
      | cons poller rest =>
        have hpoller : poller.key? = some k := hhead.symm
        rw [List.filterMap_cons_some hpoller] at hps
        cases hps
    exact ⟨(hh.root d hd hroot).trans hk, hroot⟩

/-- Back to the poller the poll is one rung lower. -/
theorem laddered_leave (h : Laddered l) {doing : Doing Co Fu}
    (hfocus : l.focus = .active pollers key doing) (outcome : Option Outcome) :
    Laddered (l.leave p key outcome pollers) := by
  intro ps k doing' hf
  obtain ⟨home, hladder⟩ := h _ _ _ hfocus
  refine ⟨home, ?_⟩
  have hdrivers : (l.leave p key outcome pollers).drivers = l.drivers :=
    (leave_drivers p key outcome).1
  cases hladder with
  | floor hp _ =>
    cases pollers with
    | nil => cases hf
    | cons poller rest =>
      cases poller with
      | hand => cases hf
      | body owner f => cases hp
      | waiting owner spot => cases hp
  | @rung _ _ poller rest hp _ hbelow =>
    replace hbelow := hbelow.of_drivers_eq hdrivers
    cases poller with
    | hand => cases hp
    | body owner f =>
      cases hp
      cases hf
      exact hbelow
    | waiting owner spot =>
      cases hp
      cases outcome with
      | none =>
        cases hf
        exact hbelow
      | some o =>
        cases hf
        exact hbelow

/-- A step of a driver leaves the ladder as it is, or puts a rung on it. -/
theorem laddered_stepDriver (ho : Orderly l) (h : Laddered l) {doing : Doing Co Fu}
    (hfocus : l.focus = .active pollers d.key doing) (hd : l.driver? d.key = some d)
    (hleave : ∀ outcome, doing ≠ .leave outcome)
    (hh : Housed (l.stepDriver p pollers d doing))
    (hown : OwnersPoll (l.stepDriver p pollers d doing)) :
    Laddered (l.stepDriver p pollers d doing) := by
  have hmem := mem_of_driver? hd
  have hstep := driverStep_stepDriver p l pollers d (ho.proper d hmem).1 hleave
  have htenant := fun d' => tenant_move p ho.proper .step (d := d')
  rw [move_step_of_driver p hfocus hd hleave] at htenant
  intro ps key doing' hf
  obtain ⟨home, hladder⟩ := h _ _ _ hfocus
  have hkept : Ladder (l.stepDriver p pollers d doing) home d.key pollers := by
    refine hladder.mono fun d' hd' hk => ?_
    have hle : d'.key.val ≤ l.lastKey := by
      rcases hk with hk | hk
      · rw [hk]
        exact (ho.proper d hmem).1
      · refine ho.bounded _ ?_
        cases hw : doing.works with
        | true =>
          rw [held_of_works hfocus hw]
          exact List.mem_cons_of_mem _ hk
        | false => rwa [held_of_not_works hfocus hw]
    rcases htenant d' hd' with ⟨d₀, hd₀, hk₀, how, hhome, _⟩ | ⟨hnew, _⟩
    · exact ⟨d₀, hd₀, hk₀, how, hhome⟩
    · omega
  refine ⟨home, ?_⟩
  rcases hstep.pollers_eq p hf with ⟨rfl, rfl⟩ | ⟨poller, hp, rfl, he⟩
  · exact hkept
  · refine .rung hp (fun x hx hk => ?_) hkept
    have howner := hown (poller :: pollers) key (by rw [he]; rfl) x hx hk
    rw [show (poller :: pollers).head?.bind Poller.key? = some d.key from hp] at howner
    have hxown := Owner.eq_driver_of_key? howner
    have hd' : d ∈ (l.stepDriver p pollers d doing).drivers := by
      rw [he]
      exact hmem
    exact ⟨(hh.nested x hx d hd' hxown).trans (hkept.home_eq hd' (.inl rfl)), hxown⟩

/-- **Polls go by owners**, whatever move is made. -/
theorem laddered_move (ho : Orderly l) (hh : Housed l) (h : Laddered l) (m : Move Co Fu)
    (hown : OwnersPoll (l.move p m)) : Laddered (l.move p m) := by
  have hh' := housed_move p ho hh m
  have hturn := turn_move p m (l := l)
  generalize l.move p m = l' at hturn hown hh'
  cases hturn with
  | outside hidle m => exact laddered_outside p hidle hh' hown
  | refused _ _ => exact h
  | leave hfocus _ outcome => exact laddered_leave p h hfocus outcome
  | driver hfocus hd hleave => exact laddered_stepDriver p ho h hfocus hd hleave hh' hown

end

/-! ## Polls in order -/

section

variable (p : Program Co Fu) {d : Driver Co Fu}

theorem rest_of_busy (h : d.activity = .busy) : d.rest = [] := by
  simp only [Driver.rest, h]

theorem rest_of_unbegun (h : d.Unbegun) : d.rest = [] := by
  unfold Driver.Unbegun at h
  cases hjob : d.job with
  | coroutine co passes kind =>
    rw [hjob] at h
    simp only [Driver.rest, h.2]
  | plain =>
    rw [hjob] at h
    obtain ⟨fu, hactivity⟩ := h
    simp only [Driver.rest, hactivity, Branch.waits]

theorem not_busy_of_unbegun (h : d.Unbegun) : d.activity ≠ .busy := by
  unfold Driver.Unbegun at h
  cases hjob : d.job with
  | coroutine co passes kind =>
    rw [hjob] at h
    rw [h.2]
    exact nofun
  | plain =>
    rw [hjob] at h
    obtain ⟨fu, hactivity⟩ := h
    rw [hactivity]
    exact nofun

/-- While a step goes on, those who wait for a nested driver are held. -/
theorem NextFocus.mem_held {k : DriverKey} (h : NextFocus pollers k l'.focus)
    (hactive : l'.focus ≠ .idle) (hk : key ∈ pollers.filterMap Poller.key?) : key ∈ l'.held := by
  cases hf : l'.focus with
  | idle => exact absurd hf hactive
  | active ps k' doing =>
    rw [hf] at h
    cases h with
    | on doing =>
      cases hw : doing.works with
      | true =>
        rw [held_of_works hf hw]
        exact List.mem_cons_of_mem _ hk
      | false => rwa [held_of_not_works hf hw]
    | nested hpoller k' =>
      rw [held_of_not_works hf rfl, List.filterMap_cons_some hpoller]
      exact List.mem_cons_of_mem _ hk

/-- A poll under way goes by owners; the drivers it holds rest at nothing, and it holds every
coroutine's driver that is at work; and it leaves a driver with an outcome only when that is gone. -/
structure Regular (l : EventLoop Co Fu) : Prop where
  laddered : Laddered l
  drawn : ∀ d ∈ l.drivers, d.key ∈ l.held → d.rest = []
  engaged : ∀ d ∈ l.drivers, d.job ≠ .plain → d.activity = .busy → d.key ∈ l.held
  finished : ∀ pollers key o, l.focus = .active pollers key (.leave (some o)) →
    ∀ d ∈ l.drivers, d.key ≠ key

theorem Regular.empty : Regular ({} : EventLoop Co Fu) where
  laddered := .empty
  drawn := fun _ h => nomatch h
  engaged := fun _ h => nomatch h
  finished := fun _ _ _ h => nomatch h

theorem mem_held_iff_of_ne {doing : Doing Co Fu} (hfocus : l.focus = .active pollers d.key doing)
    (hne : key ≠ d.key) : key ∈ l.held ↔ key ∈ pollers.filterMap Poller.key? := by
  cases hw : doing.works with
  | true => rw [held_of_works hfocus hw, List.mem_cons, or_iff_right hne]
  | false => rw [held_of_not_works hfocus hw]

section

variable (ho : Orderly l) (h : Regular l) {doing : Doing Co Fu}
  (hfocus : l.focus = .active pollers d.key doing) (hd : d ∈ l.drivers)
  (hleave : ∀ outcome, doing ≠ .leave outcome) (hcrash : doing ≠ .crash)
include ho h hfocus hd hleave hcrash

/-- A step of a driver, where polls are in order, sorts its waits. -/
theorem Regular.sorts : Sorts l pollers d (l.stepDriver p pollers d doing) := by
  refine sorts_stepDriver hfocus p (fun x hx => ho.eq_of_key hx hd) (fun hw => ?_) hleave hcrash
  refine h.drawn d hd ?_
  rw [held_of_works hfocus hw]
  exact List.mem_cons_self

/-- After its step a driver rests at nothing, or it has just come to rest where it has been. -/
theorem Regular.rest_stepDriver {d' : Driver Co Fu}
    (hd' : d' ∈ (l.stepDriver p pollers d doing).drivers) (hk : d'.key = d.key) :
    d'.rest = [] ∨ ∃ branch, doing = .pause branch [] ∧ d'.rest = branch.waits ∧
      l.stepDriver p pollers d doing =
        (l.setActivity d.key (.pending branch)).focusOn pollers d.key (.leave none) := by
  have hu : ∀ x ∈ l.drivers, x.key = d.key → x = d := fun x hx => ho.eq_of_key hx hd
  cases (h.sorts p ho hfocus hd hleave hcrash).leavesOff with
  | held hheld =>
    left
    rcases busy_stepDriver p ho hfocus hd hleave hd' hk hheld with hbusy | ⟨input, hf⟩
    · exact rest_of_busy hbusy
    · -- it is to be resumed: it was at work, or it is fresh
      have hstep := driverStep_stepDriver p l pollers d (ho.proper d hd).1 hleave
      rcases hstep.activity p hu (ho.proper d hd).1 hd' hk with hsame | hbusy | hoff
      · have hrest : d'.rest = d.rest := by simp only [Driver.rest, hsame]
        rw [hrest]
        cases hw : doing.works with
        | true =>
          refine h.drawn d hd ?_
          rw [held_of_works hfocus hw]
          exact List.mem_cons_self
        | false =>
          cases doing with
          | poll =>
            cases hactivity : d.activity with
            | pending branch =>
              unfold stepDriver at hf
              rw [hactivity] at hf
              cases hf
            | _ => simp only [Driver.rest, hactivity]
          | leave outcome => exact absurd rfl (hleave outcome)
          | _ => cases hw
      · exact rest_of_busy hbusy
      · rw [hf] at hoff
        cases hoff
  | gone hgone => exact absurd hk (hgone d' hd')
  | rests branch hpause hl =>
    rw [hfocus] at hpause
    cases hpause
    refine .inr ⟨branch, rfl, ?_, hl⟩
    rw [hl] at hd'
    rw [eq_of_mem_modifyDriver hu hd' hk]
    rfl
  | ends hrest _ hl =>
    rw [hl] at hd'
    rw [hu d' hd' hk]
    exact .inl hrest

end

/-- Nothing is held when the surroundings have made a move. -/
theorem held_outside (hidle : l.focus = .idle) (m : Move Co Fu) : (l.outside p m).held = [] := by
  rcases outside_focus p hidle m with hf | ⟨ps, key, hf, hps⟩
  · exact held_of_idle hf
  · rw [held_of_not_works hf rfl, hps]

/-- The end of a poll lets nobody go but the driver that was polled. -/
theorem held_leave (hlast : ∀ rest, pollers = .hand :: rest → rest.filterMap Poller.key? = [])
    (k : DriverKey) (outcome : Option Outcome) :
    (l.leave p k outcome pollers).held = pollers.filterMap Poller.key? := by
  cases pollers with
  | nil => rfl
  | cons poller rest =>
    cases poller with
    | hand =>
      rw [List.filterMap_cons_none rfl, hlast rest rfl]
      rfl
    | body owner f => exact held_of_works rfl rfl
    | waiting owner spot => cases outcome <;> exact held_of_works rfl rfl

theorem drawn_move (ho : Orderly l) (h : Regular l) (m : Move Co Fu) {d' : Driver Co Fu}
    (hd' : d' ∈ (l.move p m).drivers) (hheld : d'.key ∈ (l.move p m).held) : d'.rest = [] := by
  have hle := held_move_le p ho m _ hheld
  have hturn := turn_move p m (l := l)
  generalize l.move p m = l' at hturn hd' hheld
  cases hturn with
  | outside hidle m =>
    rw [held_outside p hidle] at hheld
    cases hheld
  | refused _ _ => exact h.drawn d' hd' hheld
  | leave hfocus hgone outcome =>
    rw [(leave_drivers p _ outcome).1] at hd'
    obtain ⟨home, hladder⟩ := h.laddered _ _ _ hfocus
    rw [held_leave p hladder.hand_last] at hheld
    refine h.drawn d' hd' ?_
    rename_i pollers k doing
    cases hw : doing.works with
    | true =>
      rw [held_of_works hfocus hw]
      exact List.mem_cons_of_mem _ hheld
    | false => rwa [held_of_not_works hfocus hw]
  | driver hfocus hd hleave =>
    rename_i pollers d doing
    have hmem := mem_of_driver? hd
    by_cases hcrash : doing = .crash
    · subst hcrash
      cases hheld
    · by_cases hk : d'.key = d.key
      · rcases h.rest_stepDriver p ho hfocus hmem hleave hcrash hd' hk with hrest | ⟨b, rfl, _, hl⟩
        · exact hrest
        · -- a driver that has come to rest is held no longer
          rw [hl, held_of_not_works rfl rfl, hk] at hheld
          have hdistinct := ho.distinct
          rw [held_of_works hfocus rfl, List.nodup_cons] at hdistinct
          exact absurd hheld hdistinct.1
      · have hstep := driverStep_stepDriver p l pollers d (ho.proper d hmem).1 hleave
        have hold := (hstep.touches p (ho.proper d hmem).1).mem_of_ne hd' hk hle
        exact h.drawn d' hold
          (((held_stepDriver p ho hfocus hmem hleave).2 _ hheld).resolve_left hk)

theorem engaged_move (ho : Orderly l) (h : Regular l) (m : Move Co Fu) {d' : Driver Co Fu}
    (hd' : d' ∈ (l.move p m).drivers) (hjob : d'.job ≠ .plain) (hbusy : d'.activity = .busy) :
    d'.key ∈ (l.move p m).held := by
  have hturn := turn_move p m (l := l)
  generalize l.move p m = l' at hturn hd' ⊢
  have hspares : Spares l l' → d' ∈ l.drivers := fun hl => by
    rcases hl.old_or_new d' hd' with hd | ⟨_, hn⟩
    · exact hd
    · exact absurd hbusy (not_busy_of_unbegun hn)
  cases hturn with
  | outside hidle m =>
    have hheld := h.engaged d' (hspares (spares_outside ..)) hjob hbusy
    rw [held_of_idle hidle] at hheld
    cases hheld
  | refused _ _ => exact h.engaged d' hd' hjob hbusy
  | leave hfocus hgone outcome =>
    rename_i pollers k doing
    rw [(leave_drivers p _ outcome).1] at hd'
    have hheld := h.engaged d' hd' hjob hbusy
    obtain ⟨home, hladder⟩ := h.laddered _ _ _ hfocus
    rw [held_leave p hladder.hand_last]
    cases hw : doing.works with
    | true =>
      rw [held_of_works hfocus hw, List.mem_cons] at hheld
      exact hheld.resolve_left (gone_of_leave hgone hw d' hd')
    | false => rwa [held_of_not_works hfocus hw] at hheld
  | driver hfocus hd hleave =>
    rename_i pollers d doing
    have hmem := mem_of_driver? hd
    have hstep := driverStep_stepDriver p l pollers d (ho.proper d hmem).1 hleave
    obtain ⟨home, hladder⟩ := h.laddered _ _ _ hfocus
    by_cases hcrash : doing = .crash
    · -- who was held lived in the home that is gone
      subst hcrash
      have hold : d' ∈ l.drivers := hspares ((l.spares_crash d.home).trans (.of_eq rfl rfl))
      have hheld := h.engaged d' hold hjob hbusy
      rw [held_of_works hfocus rfl, List.mem_cons] at hheld
      have hhome : d'.home = d.home :=
        (hladder.home_eq hold hheld).trans (hladder.home_eq hmem (.inl rfl)).symm
      exact absurd hhome (((panicEnds_crash ho d.home).drivers d').mp hd').2
    · have hsorts := h.sorts p ho hfocus hmem hleave hcrash
      by_cases hk : d'.key = d.key
      · rw [hk]
        cases hsorts.leavesOff with
        | held hheld => exact hheld
        | gone hgone => exact absurd hk (hgone d' hd')
        | rests branch _ hl =>
          rw [hl] at hd'
          rw [eq_of_mem_modifyDriver (fun x hx => ho.eq_of_key hx hmem) hd' hk] at hbusy
          cases hbusy
        | ends _ hends hl =>
          rw [hl] at hd' ⊢
          cases ho.eq_of_key hd' hmem hk
          have hpoll := hends.resolve_right hjob
          have hheld := h.engaged d' hmem hjob hbusy
          rw [held_of_not_works hpoll rfl] at hheld
          rwa [held_of_not_works rfl rfl]
      · have hold : d' ∈ l.drivers := by
          rcases (hstep.touches p (ho.proper d hmem).1).old_or_new d' hd' with hd | ⟨hk', _⟩ | ⟨_, hn⟩
          · exact hd
          · exact absurd hk' hk
          · exact absurd hbusy (not_busy_of_unbegun hn)
        refine (hstep.nextFocus p).mem_held hsorts.active ?_
        exact (mem_held_iff_of_ne hfocus hk).mp (h.engaged d' hold hjob hbusy)

theorem finished_move (ho : Orderly l) (h : Regular l) (m : Move Co Fu) {ps : List (Poller Co Fu)}
    {o : Outcome} (hf : (l.move p m).focus = .active ps key (.leave (some o))) :
    ∀ d' ∈ (l.move p m).drivers, d'.key ≠ key := by
  have hturn := turn_move p m (l := l)
  generalize l.move p m = l' at hturn hf ⊢
  cases hturn with
  | outside hidle m =>
    rcases outside_focus p hidle m with hf' | ⟨_, _, hf', _⟩
    · rw [hf'] at hf
      cases hf
    · rw [hf'] at hf
      cases hf
  | refused _ _ => exact h.finished ps key o hf
  | leave hfocus hgone outcome =>
    rename_i pollers k doing
    exfalso
    cases pollers with
    | nil => cases hf
    | cons poller rest =>
      cases poller with
      | waiting owner spot => cases outcome <;> cases hf
      | _ => cases hf
  | driver hfocus hd hleave =>
    rename_i pollers d doing
    have hmem := mem_of_driver? hd
    have hstep := driverStep_stepDriver p l pollers d (ho.proper d hmem).1 hleave
    by_cases hcrash : doing = .crash
    · subst hcrash
      cases hf
    · rcases hstep.pollers_eq p hf with ⟨rfl, rfl⟩ | ⟨_, _, _, hl⟩
      · cases (h.sorts p ho hfocus hmem hleave hcrash).leavesOff with
        | gone hgone => exact hgone
        | held hheld =>
          -- a driver that comes to its end is held by none that waits for it
          rw [held_of_not_works hf rfl] at hheld
          cases hw : doing.works with
          | true =>
            have hdistinct := ho.distinct
            rw [held_of_works hfocus hw, List.nodup_cons] at hdistinct
            exact absurd hheld hdistinct.1
          | false =>
            cases doing with
            | poll =>
              rw [(poll_of_held p ho hfocus hmem hheld).2] at hf
              cases hf
            | leave outcome => exact absurd rfl (hleave outcome)
            | _ => cases hw
        | rests branch _ hl =>
          rw [hl] at hf
          cases hf
        | ends _ _ hl =>
          rw [hl] at hf
          cases hf
      · rw [hl] at hf
        cases hf

/-- **Polls stay in order**, whatever move is made. -/
theorem regular_move (ho : Orderly l) (hh : Housed l) (h : Regular l) (m : Move Co Fu)
    (hown : OwnersPoll (l.move p m)) : Regular (l.move p m) where
  laddered := laddered_move p ho hh h.laddered m hown
  drawn := fun _ hd hheld => drawn_move p ho h m hd hheld
  engaged := fun _ hd hjob hbusy => engaged_move p ho h m hd hjob hbusy
  finished := fun _ _ _ hf => finished_move p ho h m hf

end

end EventLoop

end EffectLoop
