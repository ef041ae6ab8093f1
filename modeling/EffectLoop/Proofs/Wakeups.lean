import EffectLoop.Proofs.Ladders

/-!
# No wake-up is lost

A driver that rests at a wait for a task is polled again once the task is settled, however it is
settled and whatever else happens in between. Either its home is queued, or the poll under way is still
to come to the driver (`Coming`). So when no poll is under way and the home is not queued, the driver
waits only for tasks that have no outcome. This is not so for a driver that is polled from inside a
coroutine body, since nothing is noted there that would wake it. Nested drivers are left to their owners
throughout, as they are in every program that keeps its keys.
-/

namespace EffectLoop

variable {Co Fu : Type}

namespace EventLoop

/-- Whoever polls the driver `key` can be woken: it is not polled from inside a coroutine body. -/
def Hears (l : EventLoop Co Fu) (key : DriverKey) : Prop :=
  ∀ pollers doing, l.focus = .active pollers key doing → pollers.all Poller.wakes = true

/-- The driver is there, and so are those it is nested in, and all of them are `heard`. -/
inductive Attended (heard : DriverKey → Prop) (l : EventLoop Co Fu) : Driver Co Fu → Prop
  | root {d : Driver Co Fu} (hd : d ∈ l.drivers) (hr : d.IsRoot) (h : heard d.key) :
      Attended heard l d
  | nested {d o : Driver Co Fu} (hd : d ∈ l.drivers) (how : d.owner = .driver o.key)
      (ho : Attended heard l o) (h : heard d.key) : Attended heard l d

/-- The driver waits for this, at rest or on one side of the place where a poll is. -/
def WaitsFor (l : EventLoop Co Fu) (d : Driver Co Fu) (w : Wait) : Prop :=
  w ∈ d.rest ∨ w ∈ l.leaves .ahead d.key ∨ w ∈ l.leaves .behind d.key

/-- A panic is about to end the home of the driver. -/
def Doomed (l : EventLoop Co Fu) (d : Driver Co Fu) : Prop :=
  ∃ pollers, ∃ f ∈ l.drivers, l.focus = .active pollers f.key .crash ∧ f.home = d.home

/-- The poll under way comes to the driver, or ends it. -/
inductive Coming (l : EventLoop Co Fu) : Driver Co Fu → Prop
  | now {d : Driver Co Fu} {pollers : List (Poller Co Fu)}
      (h : l.focus = .active pollers d.key .poll) : Coming l d
  | ahead {d o : Driver Co Fu} (ho : o ∈ l.drivers) (how : d.owner = .driver o.key)
      (h : .nested d.key ∈ l.leaves .ahead o.key) : Coming l d
  | rest {d o : Driver Co Fu} (ho : o ∈ l.drivers) (how : d.owner = .driver o.key)
      (h : .nested d.key ∈ o.rest) (hc : Coming l o) : Coming l d
  | doomed {d : Driver Co Fu} (h : Doomed l d) : Coming l d

/-- No wake-up is lost that concerns drivers who are heard. -/
structure Wakeful (heard : DriverKey → Prop) (l : EventLoop Co Fu) : Prop where
  /-- While a task has no outcome, it is noted who waits for it. -/
  noted : ∀ d, Attended heard l d → ∀ t, WaitsFor l d (.task t) → l.outcome? t = none →
    (.task t, d.home) ∈ l.waiting
  /-- What is settled when the poll has passed it queues the home again. -/
  behind : ∀ d, Attended heard l d → ∀ t, .task t ∈ l.leaves .behind d.key →
    l.outcome? t ≠ none → d.home ∈ l.queue
  rest : ∀ d, Attended heard l d → ∀ t, .task t ∈ d.rest → l.outcome? t ≠ none →
    d.home ∈ l.queue ∨ Coming l d
  /-- A nested driver at rest is one that its owner waits for. -/
  linked : ∀ d o, Attended heard l d → o ∈ l.drivers → d.owner = .driver o.key → d.rest ≠ [] →
    WaitsFor l o (.nested d.key) ∨ (∃ ps doing, l.focus = .active ps d.key doing) ∨ Doomed l d

variable {l l' : EventLoop Co Fu} {heard : DriverKey → Prop} {d : Driver Co Fu}

/-- A driver waits for nothing but where it rests while no poll is at it. -/
theorem WaitsFor.mem_rest {w : Wait} (h : WaitsFor l d w) (hleaves : ∀ way key, l.leaves way key = []) :
    w ∈ d.rest := by
  rcases h with hw | hw | hw
  · exact hw
  · rw [hleaves] at hw
    cases hw
  · rw [hleaves] at hw
    cases hw

/-! ## Drivers that are attended -/

namespace Attended

theorem mem (h : Attended heard l d) : d ∈ l.drivers := by
  cases h with
  | root hd _ _ => exact hd
  | nested hd _ _ _ => exact hd

theorem heard_key (h : Attended heard l d) : heard d.key := by
  cases h with
  | root _ _ h => exact h
  | nested _ _ _ h => exact h

theorem owner_attended (h : Attended heard l d) {key : DriverKey} (how : d.owner = .driver key) :
    ∃ o, Attended heard l o ∧ o.key = key := by
  cases h with
  | root _ hr _ => exact absurd how (hr key)
  | @nested _ o _ how' ho _ =>
    rw [how] at how'
    exact ⟨o, ho, (Owner.driver.inj how').symm⟩

/-- The home's own driver is there. -/
theorem home_mem (hh : Housed l) (h : Attended heard l d) : ∃ r ∈ l.drivers, r.key = d.home := by
  induction h with
  | root hd hr _ => exact ⟨_, hd, (hh.root _ hd hr).symm⟩
  | nested hd how ho _ ih =>
    rw [hh.nested _ hd _ ho.mem how]
    exact ih

theorem of_drivers_eq (hd : l'.drivers = l.drivers) (h : Attended heard l' d) :
    Attended heard l d := by
  induction h with
  | root hmem hr h => exact .root (hd ▸ hmem) hr h
  | nested hmem how _ h ih => exact .nested (hd ▸ hmem) how ih h

/-- Who is attended after a move was so before, unless it was just entered. -/
theorem before (p : Program Co Fu) (ho : Orderly l) (m : Move Co Fu) {d' : Driver Co Fu}
    (h : Attended heard (l.move p m) d') (hold : d'.key.val ≤ l.lastKey) :
    ∃ d, Attended heard l d ∧ d.key = d'.key ∧ d.owner = d'.owner ∧ d.home = d'.home := by
  have hproper := proper_move p ho.proper m
  have htenant : ∀ {x : Driver Co Fu}, x ∈ (l.move p m).drivers → x.key.val ≤ l.lastKey →
      ∃ x₀ ∈ l.drivers, x₀.key = x.key ∧ x₀.owner = x.owner ∧ x₀.home = x.home := by
    intro x hx hle
    rcases tenant_move p ho.proper m hx with ⟨x₀, hx₀, hk, how, hhome, _⟩ | ⟨hnew, _⟩
    · exact ⟨x₀, hx₀, hk, how, hhome⟩
    · omega
  induction h with
  | root hd hr h =>
    obtain ⟨d, hd, hk, how, hhome⟩ := htenant hd hold
    refine ⟨d, .root hd (fun key => ?_) (hk ▸ h), hk, how, hhome⟩
    rw [how]
    exact hr key
  | nested hd' how' _ h ih =>
    have hlt := (hproper _ hd').2.owner _ how'
    obtain ⟨d, hd, hk, how, hhome⟩ := htenant hd' hold
    obtain ⟨o, hatt, hok, _, _⟩ := ih (by omega)
    refine ⟨d, .nested hd ?_ hatt (hk ▸ h), hk, how, hhome⟩
    rw [how, how', hok]

/-- Who is attended after a move and was there before was attended before. -/
theorem before_of_mem (p : Program Co Fu) (ho : Orderly l) (m : Move Co Fu)
    (h : Attended heard (l.move p m) d) (hd : d ∈ l.drivers) : Attended heard l d := by
  obtain ⟨d₀, hatt, hk, _, _⟩ := h.before p ho m (ho.proper d hd).1
  rwa [ho.eq_of_key hatt.mem hd hk] at hatt

end Attended

/-! ## Polls that are to come -/

theorem Coming.not_idle (h : Coming l d) : l.focus ≠ .idle := by
  induction h with
  | now h => rw [h]; exact nofun
  | ahead _ _ h =>
    intro hidle
    rw [leaves_of_idle hidle] at h
    cases h
  | rest _ _ _ _ ih => exact ih
  | doomed h =>
    obtain ⟨_, _, _, hf, _⟩ := h
    rw [hf]
    exact nofun

/-- A poll that begins at a home comes to all that rest there. -/
theorem coming_of_poll (hh : Housed l) (h : Wakeful heard l) (hidle : l.focus = .idle)
    {pollers : List (Poller Co Fu)} {home : DriverKey} (hd' : l'.drivers = l.drivers)
    (hf : l'.focus = .active pollers home .poll) (hatt : Attended heard l d) (hrest : d.rest ≠ [])
    (hhome : d.home = home) : Coming l' d := by
  induction hatt with
  | root hd hr _ =>
    rw [← hhome, hh.root _ hd hr] at hf
    exact .now hf
  | @nested d o hd how ho hheard ih =>
    have hlinked := h.linked d o (.nested hd how ho hheard) ho.mem how hrest
    have hnested : .nested d.key ∈ o.rest := by
      rcases hlinked with hw | ⟨_, _, hf⟩ | ⟨_, _, _, hf, _⟩
      · rcases hw with hw | hw | hw
        · exact hw
        · rw [leaves_of_idle hidle] at hw
          cases hw
        · rw [leaves_of_idle hidle] at hw
          cases hw
      · rw [hidle] at hf
        cases hf
      · rw [hidle] at hf
        cases hf
    refine .rest (hd' ▸ ho.mem) how hnested (ih ?_ ?_)
    · intro hnil
      rw [hnil] at hnested
      cases hnested
    · rw [← hhome]
      exact (hh.nested _ hd _ ho.mem how).symm

/-! ## Moves of the surroundings -/

section

variable (p : Program Co Fu)

/-- A home that has its driver is not forgotten. -/
theorem outside_forget {home : DriverKey} (hroot : ∃ r ∈ l.drivers, r.key = home) :
    l.outside p (.forget home) = l := by
  obtain ⟨r, hr, hk⟩ := hroot
  have hsome : ¬ (l.driver? home).isNone = true := by
    rw [Option.isNone_iff_eq_none]
    exact fun hnone => List.find?_eq_none.mp hnone r hr (beq_iff_eq.mpr hk)
  unfold outside
  dsimp only
  rw [if_neg hsome]

/-- A home that has its driver stays queued, unless the surroundings begin to poll it. -/
theorem queued_outside (hl : Proper l) (m : Move Co Fu) {home : DriverKey}
    (hroot : ∃ r ∈ l.drivers, r.key = home) (h : home ∈ l.queue) :
    home ∈ (l.outside p m).queue ∨
      ∃ pollers, (l.outside p m).focus = .active pollers home .poll ∧
        (l.outside p m).drivers = l.drivers := by
  by_cases htakes : takesUp home m
  · cases m with
    | poll key =>
      cases htakes
      unfold outside
      dsimp only
      rw [if_pos h]
      exact .inr ⟨_, rfl, rfl⟩
    | call key byHand =>
      cases htakes
      unfold outside
      dsimp only
      split
      · split
        · exact .inr ⟨_, rfl, rfl⟩
        · exact .inl h
      · exact .inl h
    | forget key =>
      cases htakes
      rw [outside_forget p hroot]
      exact .inl h
    | _ => exact absurd htakes id
  · exact .inl ((rouses_outside p hl m).queued home h htakes)

/-- A wait of a home that has its driver goes on, or the home is queued. -/
theorem roused_outside (hl : Proper l) (m : Move Co Fu) {home : DriverKey} {t : TaskHandle}
    (hroot : ∃ r ∈ l.drivers, r.key = home) (h : (.task t, home) ∈ l.waiting)
    (hnone : l.outcome? t = none) :
    (l.outside p m).outcome? t = none ∧ (.task t, home) ∈ (l.outside p m).waiting ∨
      (l.outside p m).outcome? t ≠ none ∧ home ∈ (l.outside p m).queue := by
  by_cases htakes : takesUp home m
  · left
    cases m with
    | poll key =>
      unfold outside
      dsimp only
      split
      · exact ⟨hnone, h⟩
      · exact ⟨hnone, h⟩
    | call key byHand =>
      unfold outside
      dsimp only
      split
      · split
        · exact ⟨hnone, h⟩
        · exact ⟨hnone, h⟩
      · exact ⟨hnone, h⟩
    | forget key =>
      cases htakes
      rw [outside_forget p hroot]
      exact ⟨hnone, h⟩
    | _ => exact absurd htakes id
  · exact (rouses_outside p hl m).roused t home h htakes hnone

theorem wakeful_outside (ho : Orderly l) (hh : Housed l) (h : Wakeful heard l)
    (hidle : l.focus = .idle) (m : Move Co Fu) : Wakeful heard (l.outside p m) := by
  have hleaves : ∀ way key, (l.outside p m).leaves way key = [] := by
    intro way key
    refine leaves_of_not_held ?_ way
    rw [held_outside p hidle]
    exact List.not_mem_nil
  have hspares := spares_outside p l m
  have hold : ∀ d, Attended heard (l.outside p m) d → d.rest ≠ [] → Attended heard l d := by
    intro d hatt hrest
    rcases hspares.old_or_new d hatt.mem with hd | ⟨_, hn⟩
    · rw [← move_of_idle p hidle] at hatt
      exact hatt.before_of_mem p ho m hd
    · exact absurd (rest_of_unbegun hn) hrest
  constructor
  case noted =>
    intro d hatt t hw hnone
    have hrest := hw.mem_rest hleaves
    have hatt := hold d hatt (List.ne_nil_of_mem hrest)
    have hnone' := (rouses_outside p ho.proper m).unsettled hnone
    have hm := h.noted d hatt t (.inl hrest) hnone'
    rcases roused_outside p ho.proper m (hatt.home_mem hh) hm hnone' with ⟨_, hm⟩ | ⟨hs, _⟩
    · exact hm
    · exact absurd hnone hs
  case behind =>
    intro d _ t ht _
    rw [hleaves] at ht
    cases ht
  case rest =>
    intro d hatt t hrest hs
    have hne := List.ne_nil_of_mem hrest
    have hatt := hold d hatt hne
    have hroot := hatt.home_mem hh
    by_cases hnone : l.outcome? t = none
    · have hm := h.noted d hatt t (.inl hrest) hnone
      rcases roused_outside p ho.proper m hroot hm hnone with ⟨hn, _⟩ | ⟨_, hq⟩
      · exact absurd hn hs
      · exact .inl hq
    · rcases h.rest d hatt t hrest hnone with hq | hc
      · rcases queued_outside p ho.proper m hroot hq with hq | ⟨ps, hf, hd⟩
        · exact .inl hq
        · exact .inr (coming_of_poll hh h hidle hd hf hatt hne rfl)
      · exact absurd hidle hc.not_idle
  case linked =>
    intro d o hatt ho' how hne
    have hatt := hold d hatt hne
    have ho' : o ∈ l.drivers := by
      rcases hspares.old_or_new o ho' with ho' | ⟨⟨hlt, _⟩, _⟩
      · exact ho'
      · have hproper := ho.proper d hatt.mem
        have := hproper.2.owner _ how
        omega
    rcases h.linked d o hatt ho' how hne with (hw | hw | hw) | ⟨_, _, hf⟩ | ⟨_, _, _, hf, _⟩
    · exact .inl (.inl hw)
    · rw [leaves_of_idle hidle] at hw
      cases hw
    · rw [leaves_of_idle hidle] at hw
      cases hw
    · rw [hidle] at hf
      cases hf
    · rw [hidle] at hf
      cases hf

/-! ## The end of a poll -/

/-- The end of a poll changes the focus and nothing else. -/
theorem leave_eq (key : DriverKey) (outcome : Option Outcome) (pollers : List (Poller Co Fu)) :
    ∃ focus, l.leave p key outcome pollers = { l with focus } := by
  unfold EventLoop.leave
  split
  case h_4 => split <;> exact ⟨_, rfl⟩
  all_goals exact ⟨_, rfl⟩

section

variable {pollers : List (Poller Co Fu)} {key : DriverKey} {doing : Doing Co Fu}
  {outcome : Option Outcome} (hr : Regular l) (hfocus : l.focus = .active pollers key doing)
  (hover : doing = .leave outcome ∨ l.driver? key = none)
include hover

/-- A driver that is there and in focus is one whose poll is over. -/
theorem doing_of_leave (hd : d ∈ l.drivers) (hk : d.key = key) : doing = .leave outcome := by
  refine hover.resolve_right fun hnone => ?_
  exact List.find?_eq_none.mp hnone d hd (beq_iff_eq.mpr hk)

include hr hfocus

/-- The end of a poll leaves behind, for the one who polls, the wait for the driver in focus. -/
theorem mem_leaves_of_leave (hd : d ∈ l.drivers) (way : Way) (w : Wait) :
    w ∈ (l.leave p key outcome pollers).leaves way d.key ↔ w ∈ l.leaves way d.key ∨
      (way = .behind ∧ outcome = none ∧ w = .nested key ∧
        ∃ spot rest, pollers = .waiting d.key spot :: rest) := by
  obtain ⟨home, hladder⟩ := hr.laddered _ _ _ hfocus
  refine mem_leaves_leave p hfocus (fun hk => ?_) hladder.hand_last outcome w
  exact Doing.waits_of_not_works _ (by rw [doing_of_leave hover hd hk.symm]; rfl) way

/-- A driver that is nested and in focus when its poll is over has an owner, who can be woken and so
waits for it. -/
theorem linked_leave {o : Driver Co Fu} (hd : d ∈ l.drivers) (hk : d.key = key) (ho : o ∈ l.drivers)
    (how : d.owner = .driver o.key) (hwakes : pollers.all Poller.wakes = true) :
    .nested d.key ∈ (l.leave p key outcome pollers).leaves .behind o.key := by
  have hleave := doing_of_leave hover hd hk
  refine (mem_leaves_of_leave p hr hfocus hover ho .behind _).mpr (.inr ⟨rfl, ?_, by rw [hk], ?_⟩)
  · cases houtcome : outcome with
    | none => rfl
    | some result =>
      rw [hleave, houtcome] at hfocus
      exact absurd hk (hr.finished _ _ result hfocus d hd)
  · obtain ⟨home, hladder⟩ := hr.laddered _ _ _ hfocus
    cases hladder with
    | floor _ hfloor => exact absurd how ((hfloor d hd hk).2 _)
    | @rung _ k poller rest hp hrung _ =>
      have hkey := (hrung d hd hk).2
      rw [how] at hkey
      cases hkey
      cases poller with
      | waiting owner spot =>
        cases hp
        exact ⟨spot, rest, rfl⟩
      | _ => simp [Poller.wakes] at hwakes

theorem wakeful_leave (h : Wakeful heard l) (hheard : ∀ k, heard k → Hears l k) :
    Wakeful heard (l.leave p key outcome pollers) := by
  have hdoing : ∀ d ∈ l.drivers, d.key = key → doing = .leave outcome :=
    fun d hd hk => doing_of_leave hover hd hk
  have hleaves : ∀ d ∈ l.drivers, ∀ way w, _ ↔ _ :=
    fun d hd way w => mem_leaves_of_leave p hr hfocus hover hd way w
  obtain ⟨focus, he⟩ := l.leave_eq p key outcome pollers
  have hdrivers : (l.leave p key outcome pollers).drivers = l.drivers := by rw [he]
  have hqueue : (l.leave p key outcome pollers).queue = l.queue := by rw [he]
  have hwaiting : (l.leave p key outcome pollers).waiting = l.waiting := by rw [he]
  have houtcome : ∀ t, (l.leave p key outcome pollers).outcome? t = l.outcome? t := by
    intro t
    rw [he]
    rfl
  have hwaits : ∀ d ∈ l.drivers, ∀ w, WaitsFor l d w →
      WaitsFor (l.leave p key outcome pollers) d w := by
    intro d hd w hw
    exact hw.imp_right (Or.imp (fun hw => (hleaves d hd _ w).mpr (.inl hw)) fun hw =>
      (hleaves d hd _ w).mpr (.inl hw))
  have htask : ∀ d ∈ l.drivers, ∀ way t,
      .task t ∈ (l.leave p key outcome pollers).leaves way d.key → .task t ∈ l.leaves way d.key := by
    intro d hd way t ht
    refine ((hleaves d hd way _).mp ht).resolve_right ?_
    rintro ⟨_, _, hw, _⟩
    cases hw
  constructor
  case noted =>
    intro d hatt t hw hnone
    replace hatt := hatt.of_drivers_eq hdrivers
    rw [hwaiting]
    rw [houtcome] at hnone
    refine h.noted d hatt t (hw.imp_right (Or.imp ?_ ?_)) hnone
    · exact htask d hatt.mem _ t
    · exact htask d hatt.mem _ t
  case behind =>
    intro d hatt t ht hs
    replace hatt := hatt.of_drivers_eq hdrivers
    rw [hqueue]
    rw [houtcome] at hs
    exact h.behind d hatt t (htask d hatt.mem _ t ht) hs
  case rest =>
    intro d hatt t hrest hs
    replace hatt := hatt.of_drivers_eq hdrivers
    rw [hqueue]
    rw [houtcome] at hs
    refine (h.rest d hatt t hrest hs).imp_right fun hc => ?_
    have hmem := hatt.mem
    clear hatt hrest hs
    induction hc with
    | now hf =>
      rw [hfocus] at hf
      cases hf
      cases hdoing _ hmem rfl
    | ahead ho how hn => exact .ahead (hdrivers ▸ ho) how ((hleaves _ ho _ _).mpr (.inl hn))
    | rest ho how hn _ ih => exact .rest (hdrivers ▸ ho) how hn (ih ho)
    | doomed hdoom =>
      obtain ⟨_, f, hf, hff, _⟩ := hdoom
      rw [hfocus] at hff
      cases hff
      cases hdoing f hf rfl
  case linked =>
    intro d o hatt ho how hne
    replace hatt := hatt.of_drivers_eq hdrivers
    rw [hdrivers] at ho
    rcases h.linked d o hatt ho how hne with hw | ⟨ps, doing', hf⟩ | ⟨_, f, hf, hff, _⟩
    · exact .inl (hwaits o ho _ hw)
    · have hwakes := hheard _ hatt.heard_key _ _ hf
      rw [hfocus] at hf
      cases hf
      exact .inl (.inr (.inr (linked_leave p hr hfocus hover hatt.mem rfl ho how hwakes)))
    · rw [hfocus] at hff
      cases hff
      cases hdoing f hf rfl

end

/-! ## Steps of drivers -/

theorem held_of_mem_leaves {way : Way} {key : DriverKey} {w : Wait} (h : w ∈ l.leaves way key) :
    key ∈ l.held := by
  by_contra hheld
  rw [leaves_of_not_held hheld] at h
  cases h

section

variable {pollers : List (Poller Co Fu)} {f : Driver Co Fu}

/-- All that a poll comes to lives in its home. -/
theorem Coming.home_eq (ho : Orderly l) (hh : Housed l) {home : DriverKey}
    (hladder : Ladder l home f.key pollers) (hfocus : l.focus = .active pollers f.key .crash)
    (hf : f ∈ l.drivers) (hd : d ∈ l.drivers) (h : Coming l d) : d.home = f.home := by
  have hheld : ∀ o ∈ l.drivers, o.key ∈ l.held → o.home = f.home := by
    intro o ho hmem
    rw [held_of_works hfocus rfl, List.mem_cons] at hmem
    exact (hladder.home_eq ho hmem).trans (hladder.home_eq hf (.inl rfl)).symm
  induction h with
  | now h =>
    rw [hfocus] at h
    cases (Focus.active.inj h).2.2
  | ahead ho how h => exact (hh.nested _ hd _ ho how).trans (hheld _ ho (held_of_mem_leaves h))
  | rest ho how _ _ ih => exact (hh.nested _ hd _ ho how).trans (ih ho)
  | doomed h =>
    obtain ⟨_, f', hf', hff, hhome⟩ := h
    rw [hfocus] at hff
    rw [← hhome, ho.eq_of_key hf' hf (Focus.active.inj hff).2.1.symm]

theorem wakeful_crash (ho : Orderly l) (hh : Housed l) (hr : Regular l) (h : Wakeful heard l)
    (hfocus : l.focus = .active pollers f.key .crash) (hf : l.driver? f.key = some f) :
    Wakeful heard (l.stepDriver p pollers f .crash) := by
  have hmem := mem_of_driver? hf
  have hmove := move_step_of_driver p hfocus hf nofun
  have hrouses := rouses_stepDriver p pollers ho.proper hmem .crash nofun
  obtain ⟨home, hladder⟩ := hr.laddered _ _ _ hfocus
  have hleft : ∀ d ∈ (l.stepDriver p pollers f .crash).drivers,
      d ∈ l.drivers ∧ d.home ≠ f.home := fun d hd => ((panicEnds_crash ho f.home).drivers d).mp hd
  have hleaves : ∀ way key, (l.stepDriver p pollers f .crash).leaves way key = [] :=
    fun way key => leaves_of_idle rfl way key
  have hold : ∀ d, Attended heard (l.stepDriver p pollers f .crash) d → Attended heard l d := by
    intro d hatt
    have hd := (hleft d hatt.mem).1
    rw [← hmove] at hatt
    exact hatt.before_of_mem p ho .step hd
  have hheld : ∀ o ∈ l.drivers, o.key ∈ l.held → o.home = f.home := by
    intro o ho hk
    rw [held_of_works hfocus rfl, List.mem_cons] at hk
    exact (hladder.home_eq ho hk).trans (hladder.home_eq hmem (.inl rfl)).symm
  constructor
  case noted =>
    intro d hatt t hw hnone
    have hne := (hleft d hatt.mem).2
    have hrest := hw.mem_rest hleaves
    have hm := h.noted d (hold d hatt) t (.inl hrest) (hrouses.unsettled hnone)
    exact hrouses.still_waits hm (fun hg => hne hg.2) hnone
  case behind =>
    intro d _ t ht _
    rw [hleaves] at ht
    cases ht
  case rest =>
    intro d hatt t hrest hs
    obtain ⟨hd, hne⟩ := hleft d hatt.mem
    left
    by_cases hnone : l.outcome? t = none
    · have hm := h.noted d (hold d hatt) t (.inl hrest) hnone
      exact hrouses.queued_of_settled hm (fun hg => hne hg.2) hnone hs
    · rcases h.rest d (hold d hatt) t hrest hnone with hq | hc
      · exact hrouses.queued _ hq fun hg => hne hg.2
      · exact absurd (hc.home_eq ho hh hladder hfocus hmem hd) hne
  case linked =>
    intro d o hatt ho' how hrest
    obtain ⟨hd, hne⟩ := hleft d hatt.mem
    obtain ⟨ho', hone⟩ := hleft o ho'
    rcases h.linked d o (hold d hatt) ho' how hrest with (hw | hw | hw) | ⟨_, _, hff⟩ | hdoom
    · exact .inl (.inl hw)
    · exact absurd (hheld o ho' (held_of_mem_leaves hw)) hone
    · exact absurd (hheld o ho' (held_of_mem_leaves hw)) hone
    · rw [hfocus] at hff
      rw [ho.eq_of_key hd hmem (Focus.active.inj hff).2.1.symm] at hne
      exact absurd rfl hne
    · exact absurd (Coming.home_eq ho hh hladder hfocus hmem hd (.doomed hdoom)) hne

variable (ho : Orderly l) (hr : Regular l) {doing : Doing Co Fu}
  (hfocus : l.focus = .active pollers f.key doing) (hf : l.driver? f.key = some f)
  (hleave : ∀ outcome, doing ≠ .leave outcome) (hcrash : doing ≠ .crash)
include ho hr hfocus hf hleave hcrash

/-- Who is attended after a step of `f` is another driver that was attended before, or `f` itself, or
has just been entered and waits for nothing. -/
theorem attended_stepDriver (hatt : Attended heard (l.stepDriver p pollers f doing) d) :
    (Attended heard l d ∧ d.key ≠ f.key ∧
        ∀ way, (l.stepDriver p pollers f doing).leaves way d.key = l.leaves way d.key) ∨
      (Attended heard l f ∧ d.key = f.key ∧ d.home = f.home) ∨
      l.lastKey < d.key.val ∧ ∀ w, ¬ WaitsFor (l.stepDriver p pollers f doing) d w := by
  have hmem := mem_of_driver? hf
  have hmove := move_step_of_driver p hfocus hf hleave
  have hb := (ho.proper f hmem).1
  have hstep := driverStep_stepDriver p l pollers f hb hleave
  have hsorts := hr.sorts p ho hfocus hmem hleave hcrash
  rw [← hmove] at hatt
  by_cases hk : d.key = f.key
  · right
    left
    obtain ⟨d₀, hatt₀, hk₀, _, hhome⟩ := hatt.before p ho .step (hk ▸ hb)
    cases ho.eq_of_key hatt₀.mem hmem (hk₀.trans hk)
    exact ⟨hatt₀, hk, hhome.symm⟩
  · rcases (hstep.touches p hb).old_or_new d (hmove ▸ hatt.mem) with hd | ⟨hk', _⟩ | ⟨⟨hnew, _⟩, hn⟩
    · left
      refine ⟨hatt.before_of_mem p ho .step hd, hk, fun way => ?_⟩
      exact (hstep.nextFocus p).leaves_eq hfocus (Ne.symm hk) hsorts.active way
    · exact absurd hk' hk
    · right
      right
      have hheld : d.key ∉ (l.stepDriver p pollers f doing).held := by
        intro hmem'
        rw [← hmove] at hmem'
        have := held_move_le p ho .step _ hmem'
        omega
      refine ⟨hnew, ?_⟩
      rintro w (hw | hw | hw)
      · rw [rest_of_unbegun hn] at hw
        cases hw
      · rw [leaves_of_not_held hheld] at hw
        cases hw
      · rw [leaves_of_not_held hheld] at hw
        cases hw

variable (hh : Housed l)
include hh

/-- A nested driver that is ahead of `f`, or that `f` rested at, is still to be polled. -/
theorem coming_of_nested {o : Driver Co Fu} (ho' : o ∈ (l.stepDriver p pollers f doing).drivers)
    (hk : o.key = f.key) (hd : d ∈ (l.stepDriver p pollers f doing).drivers)
    (how : d.owner = .driver o.key)
    (hn : .nested d.key ∈ l.leaves .ahead f.key ∨ .nested d.key ∈ f.rest) :
    Coming (l.stepDriver p pollers f doing) d := by
  have hmem := mem_of_driver? hf
  have hmove := move_step_of_driver p hfocus hf hleave
  have hh' := housed_move p ho hh .step
  rw [hmove] at hh'
  rcases (hr.sorts p ho hfocus hmem hleave hcrash).nestedAhead d.key hn with hn | ⟨ps, hf'⟩ | hf'
  · exact .ahead ho' how (hk ▸ hn)
  · exact .now hf'
  · exact .doomed ⟨pollers, o, ho', hk ▸ hf', (hh'.nested d hd o ho' how).symm⟩

/-- A poll that is to come to a driver still is, unless it has just come to it. -/
theorem coming_stepDriver (hc : Coming l d) (hmem : d ∈ l.drivers) (hne : d.key ≠ f.key)
    (hatt : Attended heard (l.stepDriver p pollers f doing) d) :
    Coming (l.stepDriver p pollers f doing) d := by
  have hstep : ∀ {x : Driver Co Fu}, Attended heard (l.stepDriver p pollers f doing) x → _ :=
    fun hatt => attended_stepDriver p ho hr hfocus hf hleave hcrash hatt
  have hlt : ∀ {x : Driver Co Fu} {key : DriverKey}, x ∈ l.drivers → x.owner = .driver key →
      key.val ≤ l.lastKey := by
    intro x key hx how
    have hproper := ho.proper x hx
    have := hproper.2.owner key how
    omega
  induction hc with
  | now hf' =>
    rw [hfocus] at hf'
    exact absurd (Focus.active.inj hf').2.1.symm hne
  | @ahead d o ho' how hn =>
    obtain ⟨o', hatt', hk⟩ := hatt.owner_attended how
    by_cases hkf : o.key = f.key
    · rw [hkf] at hn
      exact coming_of_nested p ho hr hfocus hf hleave hcrash hh hatt'.mem (hk.trans hkf) hatt.mem
        (hk ▸ how) (.inl hn)
    · refine .ahead hatt'.mem (hk ▸ how) ?_
      rcases hstep hatt' with ⟨_, _, hleaves⟩ | ⟨_, hk', _⟩ | ⟨hnew, _⟩
      · rw [hleaves, hk]
        exact hn
      · exact absurd (hk.symm.trans hk') hkf
      · have := hlt hmem how
        rw [hk] at hnew
        omega
  | @rest d o ho' how hn _ ih =>
    obtain ⟨o', hatt', hk⟩ := hatt.owner_attended how
    by_cases hkf : o.key = f.key
    · rw [ho.eq_of_key ho' (mem_of_driver? hf) hkf] at hn
      exact coming_of_nested p ho hr hfocus hf hleave hcrash hh hatt'.mem (hk.trans hkf) hatt.mem
        (hk ▸ how) (.inr hn)
    · rcases hstep hatt' with ⟨hatt₀, _, _⟩ | ⟨_, hk', _⟩ | ⟨hnew, _⟩
      · rw [ho.eq_of_key hatt₀.mem ho' hk] at hatt'
        exact .rest hatt'.mem how hn (ih ho' hkf hatt')
      · exact absurd (hk.symm.trans hk') hkf
      · have := hlt hmem how
        rw [hk] at hnew
        omega
  | doomed hdoom =>
    obtain ⟨_, _, _, hf', _⟩ := hdoom
    rw [hfocus] at hf'
    exact absurd (Focus.active.inj hf').2.2 hcrash

omit hr hfocus hh in
/-- Who waits for a task that is still unsettled stays noted. -/
theorem noted_stepDriver (h : Wakeful heard l) (hatt : Attended heard l d) {t : TaskHandle}
    (hw : WaitsFor l d (.task t))
    (hnone : (l.stepDriver p pollers f doing).outcome? t = none) :
    (Wait.task t, d.home) ∈ (l.stepDriver p pollers f doing).waiting := by
  have hrouses := rouses_stepDriver p pollers ho.proper (mem_of_driver? hf) doing hleave
  have hm := h.noted d hatt t hw (hrouses.unsettled hnone)
  exact hrouses.still_waits hm (fun hg => hcrash hg.1) hnone

omit hr hfocus hh in
/-- What is settled behind a poll leaves the home queued, whether it was settled before or is now. -/
theorem queued_stepDriver (h : Wakeful heard l) (hatt : Attended heard l d) {t : TaskHandle}
    (ht : .task t ∈ l.leaves .behind d.key)
    (hs : (l.stepDriver p pollers f doing).outcome? t ≠ none) :
    d.home ∈ (l.stepDriver p pollers f doing).queue := by
  have hrouses := rouses_stepDriver p pollers ho.proper (mem_of_driver? hf) doing hleave
  by_cases hnone : l.outcome? t = none
  · have hm := h.noted d hatt t (.inr (.inr ht)) hnone
    exact hrouses.queued_of_settled hm (fun hg => hcrash hg.1) hnone hs
  · exact hrouses.queued _ (h.behind d hatt t ht hnone) fun hg => hcrash hg.1

omit hh in
/-- The driver that makes the step rests after it only if its poll ends there: it rests at what it
left behind. -/
theorem rests_stepDriver (hd : d ∈ (l.stepDriver p pollers f doing).drivers) (hk : d.key = f.key)
    {w : Wait} (hw : w ∈ d.rest) :
    w ∈ l.leaves .behind f.key ∧
      (l.stepDriver p pollers f doing).focus = .active pollers f.key (.leave none) := by
  rcases hr.rest_stepDriver p ho hfocus (mem_of_driver? hf) hleave hcrash hd hk with
    hnil | ⟨branch, rfl, he, hl⟩
  · rw [hnil] at hw
    cases hw
  · rw [he] at hw
    refine ⟨?_, by rw [hl]; rfl⟩
    rw [leaves_of_active hfocus]
    exact List.mem_append_left _ (List.mem_append_left _ hw)

omit hh in
/-- What the driver that makes the step waits for afterwards it waited for before, or it is noted now. -/
theorem waits_stepDriver (hd : d ∈ (l.stepDriver p pollers f doing).drivers) (hk : d.key = f.key)
    (hwakes : pollers.all Poller.wakes = true) {t : TaskHandle}
    (hw : WaitsFor (l.stepDriver p pollers f doing) d (.task t)) :
    WaitsFor l f (.task t) ∨ (Wait.task t, f.home) ∈ (l.stepDriver p pollers f doing).waiting := by
  have hsorts := hr.sorts p ho hfocus (mem_of_driver? hf) hleave hcrash
  rcases hw with hw | hw | hw
  · exact .inl (.inr (.inr (rests_stepDriver p ho hr hfocus hf hleave hcrash hd hk hw).1))
  · rw [hk] at hw
    rcases hsorts.ahead _ hw with hw | hw
    · exact .inl (.inr (.inl hw))
    · exact .inl (.inl hw)
  · rw [hk] at hw
    rcases hsorts.behind t hw with hw | ⟨_, hw | hm⟩
    · exact .inl (.inr (.inr hw))
    · exact .inl (.inr (.inl hw))
    · exact .inr (hm hwakes)

/-- What `f` waited for and is nested in it, it still waits for, or polls, or dies with. -/
theorem linked_stepDriver {o : Driver Co Fu}
    (ho' : o ∈ (l.stepDriver p pollers f doing).drivers) (hk : o.key = f.key)
    (hd : d ∈ (l.stepDriver p pollers f doing).drivers) (how : d.owner = .driver o.key)
    (hw : WaitsFor l f (.nested d.key)) :
    WaitsFor (l.stepDriver p pollers f doing) o (.nested d.key) ∨
      (∃ ps doing', (l.stepDriver p pollers f doing).focus = .active ps d.key doing') ∨
        Doomed (l.stepDriver p pollers f doing) d := by
  have hsorts := hr.sorts p ho hfocus (mem_of_driver? hf) hleave hcrash
  have hh' := housed_move p ho hh .step
  rw [move_step_of_driver p hfocus hf hleave] at hh'
  have hdoomed : (l.stepDriver p pollers f doing).focus = .active pollers f.key .crash →
      Doomed (l.stepDriver p pollers f doing) d := fun hf' =>
    ⟨pollers, o, ho', hk ▸ hf', (hh'.nested d hd o ho' how).symm⟩
  have hahead : .nested d.key ∈ l.leaves .ahead f.key ∨ .nested d.key ∈ f.rest →
      WaitsFor (l.stepDriver p pollers f doing) o (.nested d.key) ∨
        (∃ ps doing', (l.stepDriver p pollers f doing).focus = .active ps d.key doing') ∨
          Doomed (l.stepDriver p pollers f doing) d := by
    intro hn
    rcases hsorts.nestedAhead _ hn with hn | ⟨ps, hf'⟩ | hf'
    · exact .inl (.inr (.inl (hk ▸ hn)))
    · exact .inr (.inl ⟨ps, _, hf'⟩)
    · exact .inr (.inr (hdoomed hf'))
  rcases hw with hw | hw | hw
  · exact hahead (.inr hw)
  · exact hahead (.inl hw)
  · rcases hsorts.nestedBehind _ hw with hn | hn | hf'
    · exact .inl (.inr (.inr (hk ▸ hn)))
    · exact .inl (.inl (hn o ho' hk))
    · exact .inr (.inr (hdoomed hf'))

/-- **A step of a driver loses no wake-up.** -/
theorem wakeful_stepDriver (h : Wakeful heard l) (hheard : ∀ k, heard k → Hears l k) :
    Wakeful heard (l.stepDriver p pollers f doing) := by
  have hmem := mem_of_driver? hf
  have hsorts := hr.sorts p ho hfocus hmem hleave hcrash
  have hrouses := rouses_stepDriver p pollers ho.proper hmem doing hleave
  have hgone : ∀ home, ¬ (doing = .crash ∧ home = f.home) := fun _ hg => hcrash hg.1
  have hstep : ∀ {d : Driver Co Fu}, Attended heard (l.stepDriver p pollers f doing) d → _ :=
    fun hatt => attended_stepDriver p ho hr hfocus hf hleave hcrash hatt
  have hnoted : ∀ d, Attended heard l d → ∀ t, WaitsFor l d (.task t) →
      (l.stepDriver p pollers f doing).outcome? t = none → _ :=
    fun d hatt t hw hn => noted_stepDriver p ho hf hleave hcrash h hatt hw hn
  have hbehind : ∀ d, Attended heard l d → ∀ t, .task t ∈ l.leaves .behind d.key →
      (l.stepDriver p pollers f doing).outcome? t ≠ none → _ :=
    fun d hatt t ht hs => queued_stepDriver p ho hf hleave hcrash h hatt ht hs
  have hrests : ∀ d ∈ (l.stepDriver p pollers f doing).drivers, d.key = f.key → ∀ w ∈ d.rest, _ :=
    fun d hd hk w hw => rests_stepDriver p ho hr hfocus hf hleave hcrash hd hk hw
  constructor
  case noted =>
    intro d hatt t hw hnone
    rcases hstep hatt with ⟨hatt₀, _, hleaves⟩ | ⟨hatt₀, hk, hhome⟩ | ⟨_, hnot⟩
    · simp only [WaitsFor, hleaves] at hw
      exact hnoted d hatt₀ t hw hnone
    · have hwakes := hheard f.key (hk ▸ hatt.heard_key) _ _ hfocus
      rw [hhome]
      rcases waits_stepDriver p ho hr hfocus hf hleave hcrash hatt.mem hk hwakes hw with hw | hm
      · exact hnoted f hatt₀ t hw hnone
      · exact hm
    · exact absurd hw (hnot _)
  case behind =>
    intro d hatt t ht hs
    rcases hstep hatt with ⟨hatt₀, _, hleaves⟩ | ⟨hatt₀, hk, hhome⟩ | ⟨_, hnot⟩
    · rw [hleaves] at ht
      exact hbehind d hatt₀ t ht hs
    · rw [hk] at ht
      rw [hhome]
      rcases hsorts.behind t ht with ht | ⟨hnone, _⟩
      · exact hbehind f hatt₀ t ht hs
      · exact absurd hnone hs
    · exact absurd (.inr (.inr ht)) (hnot _)
  case rest =>
    intro d hatt t ht hs
    rcases hstep hatt with ⟨hatt₀, hne, _⟩ | ⟨hatt₀, hk, hhome⟩ | ⟨_, hnot⟩
    · by_cases hnone : l.outcome? t = none
      · have hm := h.noted d hatt₀ t (.inl ht) hnone
        exact .inl (hrouses.queued_of_settled hm (hgone _) hnone hs)
      · refine (h.rest d hatt₀ t ht hnone).imp (hrouses.queued _ · (hgone _)) fun hc => ?_
        exact coming_stepDriver p ho hr hfocus hf hleave hcrash hh hc hatt₀.mem hne hatt
    · rw [hhome]
      exact .inl (hbehind f hatt₀ t (hrests d hatt.mem hk _ ht).1 hs)
    · exact absurd (.inl ht) (hnot _)
  case linked =>
    intro d o hatt ho' how hne
    obtain ⟨w, hw⟩ := List.exists_mem_of_ne_nil _ hne
    rcases hstep hatt with ⟨hatt₀, hkf, _⟩ | ⟨_, hk, _⟩ | ⟨_, hnot⟩
    · obtain ⟨o', hatt', hk'⟩ := hatt.owner_attended how
      have ho'' := orderly_stepDriver p ho hfocus hmem hleave
      rw [ho''.eq_of_key hatt'.mem ho' hk'] at hatt'
      -- the driver in focus is neither `d` nor in a crash
      have hlinked : ∀ x ∈ l.drivers, o.key = x.key → WaitsFor l x (.nested d.key) := by
        intro x hx hk
        rcases h.linked d x hatt₀ hx (how.trans (hk ▸ rfl)) hne with
          hw | ⟨_, _, hff⟩ | ⟨_, _, _, hff, _⟩
        · exact hw
        · rw [hfocus] at hff
          exact absurd (Focus.active.inj hff).2.1.symm hkf
        · rw [hfocus] at hff
          exact absurd (Focus.active.inj hff).2.2 hcrash
      rcases hstep hatt' with ⟨hatto, _, hleaves⟩ | ⟨hatto, hk, _⟩ | ⟨hnew, _⟩
      · left
        have hw := hlinked o hatto.mem rfl
        simpa only [WaitsFor, hleaves] using hw
      · exact linked_stepDriver p ho hr hfocus hf hleave hcrash hh ho' hk hatt.mem how
          (hlinked f hatto.mem hk)
      · have hproper := ho.proper d hatt₀.mem
        have := hproper.2.owner _ how
        omega
    · refine .inr (.inl ⟨pollers, .leave none, ?_⟩)
      rw [hk]
      exact (hrests d hatt.mem hk w hw).2
    · exact absurd (.inl hw) (hnot w)

end

/-! ## Whole runs -/

theorem wakeful_move (ho : Orderly l) (hh : Housed l) (hr : Regular l) (h : Wakeful heard l)
    (hheard : ∀ k, heard k → Hears l k) (m : Move Co Fu) : Wakeful heard (l.move p m) := by
  cases hfocus : l.focus with
  | idle =>
    rw [move_of_idle p hfocus]
    exact wakeful_outside p ho hh h hfocus m
  | active pollers key doing =>
    by_cases hm : m = .step
    · subst hm
      by_cases hleave : ∃ outcome, doing = .leave outcome
      · obtain ⟨outcome, rfl⟩ := hleave
        rw [move_step_of_leave p hfocus]
        exact wakeful_leave p hr hfocus (.inl rfl) h hheard
      · replace hleave : ∀ outcome, doing ≠ .leave outcome := fun o he => hleave ⟨o, he⟩
        cases hf : l.driver? key with
        | none =>
          rw [move_step_of_gone p hfocus hleave hf]
          exact wakeful_leave p hr hfocus (.inr hf) h hheard
        | some f =>
          cases key_of_driver? hf
          rw [move_step_of_driver p hfocus hf hleave]
          by_cases hcrash : doing = .crash
          · subst hcrash
            exact wakeful_crash p ho hh hr h hfocus hf
          · exact wakeful_stepDriver p ho hr hfocus hf hleave hcrash hh h hheard
    · rw [move_of_active p hfocus hm]
      exact h

theorem Wakeful.empty : Wakeful heard ({} : EventLoop Co Fu) := by
  have hnobody : ∀ d, ¬ Attended heard ({} : EventLoop Co Fu) d := fun d hatt => nomatch hatt.mem
  exact ⟨fun d hatt => absurd hatt (hnobody d), fun d hatt => absurd hatt (hnobody d),
    fun d hatt => absurd hatt (hnobody d), fun d _ hatt => absurd hatt (hnobody d)⟩

/-- All along the run, whoever polls the driver `key` can be woken. -/
def HeardIn (moves : List (Move Co Fu)) (key : DriverKey) : Prop :=
  ∀ first, first <+: moves → Hears (after p {} first) key

theorem wakeful_after (moves : List (Move Co Fu)) (hown : OwnersPollIn p moves) :
    Regular (after p {} moves) ∧ Wakeful (HeardIn p moves) (after p {} moves) := by
  have hprefixes : ∀ first, first <+: moves →
      Regular (after p {} first) ∧ Wakeful (HeardIn p moves) (after p {} first) := by
    intro first
    induction first using List.reverseRecOn with
    | nil => exact fun _ => ⟨.empty, .empty⟩
    | append_singleton first m ih =>
      intro hfirst
      have hbefore := (List.prefix_append first [m]).trans hfirst
      obtain ⟨hr, hw⟩ := ih hbefore
      have ho := orderly_after p first
      have hh := housed_after p first
      have hown := hown _ hfirst
      rw [after_snoc] at hown ⊢
      exact ⟨regular_move p ho hh hr m hown,
        wakeful_move p ho hh hr hw (fun k hk => hk first hbefore) m⟩
  exact hprefixes moves (List.prefix_refl moves)

/-! ## Runs that can be checked -/

/-- The driver that is to be polled, and who polls it. -/
def polled? (l : EventLoop Co Fu) : Option (List (Poller Co Fu) × DriverKey) :=
  match l.focus with
  | .active pollers key .poll => some (pollers, key)
  | _ => none

theorem polled?_eq_some {pollers : List (Poller Co Fu)} {key : DriverKey} :
    l.polled? = some (pollers, key) ↔ l.focus = .active pollers key .poll := by
  unfold polled?
  constructor
  · intro h
    split at h
    · rename_i hf
      cases h
      exact hf
    · cases h
  · intro h
    rw [h]

instance (l : EventLoop Co Fu) : Decidable (OwnersPoll l) :=
  decidable_of_iff (∀ x ∈ l.polled?, ∀ d ∈ l.drivers, d.key = x.2 →
    d.owner.key? = x.1.head?.bind Poller.key?)
    ⟨fun h pollers key hf => h (pollers, key) (polled?_eq_some.mpr hf),
      fun h x hx => h x.1 x.2 (polled?_eq_some.mp hx)⟩

instance (l : EventLoop Co Fu) (key : DriverKey) : Decidable (Hears l key) :=
  match h : l.focus with
  | .idle => .isTrue fun _ _ hf => nomatch h.symm.trans hf
  | .active pollers k doing =>
    decidable_of_iff (k = key → pollers.all Poller.wakes = true) ⟨fun hall ps doing' hf => by
      rw [h] at hf
      cases hf
      exact hall rfl, fun hall hk => hall pollers doing (hk ▸ h)⟩

theorem forall_prefix_cons {P : EventLoop Co Fu → Prop} (l : EventLoop Co Fu) (m : Move Co Fu)
    (moves : List (Move Co Fu)) :
    (∀ first, first <+: m :: moves → P (l.after p first)) ↔
      P l ∧ ∀ first, first <+: moves → P ((l.move p m).after p first) := by
  constructor
  · intro h
    refine ⟨h [] List.nil_prefix, fun first hfirst => h (m :: first) ?_⟩
    exact List.cons_prefix_cons.mpr ⟨rfl, hfirst⟩
  · rintro ⟨hnow, hthen⟩ first hfirst
    cases first with
    | nil => exact hnow
    | cons m' first =>
      obtain ⟨rfl, hrest⟩ := List.cons_prefix_cons.mp hfirst
      exact hthen first hrest

/-- What can be checked of a state can be checked all along a run. -/
instance decidableAlong {P : EventLoop Co Fu → Prop} [DecidablePred P] :
    (l : EventLoop Co Fu) → (moves : List (Move Co Fu)) →
      Decidable (∀ first, first <+: moves → P (l.after p first))
  | l, [] => decidable_of_iff (P l)
    ⟨fun h first hfirst => by rwa [List.prefix_nil.mp hfirst], fun h => h [] List.nil_prefix⟩
  | l, m :: moves =>
    have : Decidable (∀ first, first <+: moves → P ((l.move p m).after p first)) :=
      decidableAlong (l.move p m) moves
    decidable_of_iff _ (forall_prefix_cons p l m moves).symm

instance (moves : List (Move Co Fu)) : Decidable (OwnersPollIn p moves) :=
  decidableAlong p (P := OwnersPoll) {} moves

instance (moves : List (Move Co Fu)) (key : DriverKey) : Decidable (HeardIn p moves key) :=
  decidableAlong p (P := fun l => Hears l key) {} moves

/-! ## No wake-up is lost -/

/-- A coroutine that joins a task rests at a wait for it, or a poll is at its driver. -/
theorem rest_of_joining {moves : List (Move Co Fu)} (hr : Regular (after p {} moves))
    (hidle : (after p {} moves).focus = .idle) (hd : d ∈ (after p {} moves).drivers)
    {hist : List (TaskEvent Co)} {t : TaskHandle}
    (hhist : history p moves d.key = hist ++ [.given (.builtin .join) (.join t)]) :
    d.rest = [.task t] := by
  obtain ⟨_, _, _, _, _, hp, hstands⟩ := exists_stands p hhist rfl
  obtain ⟨co', rfl⟩ := hp.processing_of_given
  have hst := hstands d hd rfl
  obtain ⟨co, passes, kind, hjob⟩ := exists_job_of_stands hst
  rw [stands_iff hjob, place_of_idle hidle] at hst
  cases hactivity : d.activity with
  | fresh =>
    rw [hactivity] at hst
    cases hst
  | busy =>
    have hheld := hr.engaged d hd (by rw [hjob]; exact nofun) hactivity
    rw [held_of_idle hidle] at hheld
    cases hheld
  | pending branch =>
    rw [hactivity] at hst
    obtain ⟨_, ref, e, hph, hj⟩ := hst
    cases hph
    simp only [Driver.rest, hactivity, hj t ⟨rfl, rfl⟩, Branch.waits]

end

/-- The task of the coroutine 0 below, which is started first. -/
def worker : TaskHandle := ⟨⟨0⟩, ⟨1⟩, "worker"⟩

/-- Coroutine 1 calls a target, which gives coroutine 2, which joins the worker. -/
def callsJoin : Program Nat Unit where
  scheduler := fun _ => { sink := ⟨"sink"⟩ }
  resume := fun co _ => co
  advance := fun co =>
    if co = 0 then .ret (.done (.ok .null) 0)
    else if co = 1 then .ret (.yield (.effect (.call ⟨"target", .coroutine, ⟨"join", []⟩⟩ [])) 1)
    else .ret (.yield (.effect (.join worker)) 2)
  work := fun _ => .ret (.done (.ok (.value .null)))
  invoke := fun _ _ => .ret (.coroutine 2)
  process := fun _ _ _ => ()
  dispatch := fun _ _ => .ret .null

/-- The caller is polled until it rests, and the worker not at all. -/
def toJoin : List (Move Nat Unit) :=
  [.act (.start ⟨0⟩ "worker" 0 fun _ => .ret ()), .act (.start ⟨0⟩ "caller" 1 fun _ => .ret ()),
    .poll ⟨2⟩] ++ List.replicate 15 .step

/-- The worker is ended early after that. -/
def toEnd : List (Move Nat Unit) :=
  toJoin ++ [.act (.ask (.terminate ⟨0⟩ ⟨1⟩) fun _ => .ret ())]

end EventLoop

end EffectLoop
