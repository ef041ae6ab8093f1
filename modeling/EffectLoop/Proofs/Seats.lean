import EffectLoop.Proofs.History

/-!
# Where a poll has left a driver

`seat` refines `place`: it says of one driver not only whether a poll holds it but also what it goes on
with, and, where it polls a nested driver, which one. `seat_move` is the inversion law: a move leaves
the seat of a driver as it is, breaks off the poll that held it, brings it back from the driver it
polled, or it is the driver that acts. What a driver does while a processor has its effect can so be
followed by cases on its own steps alone.
-/

namespace EffectLoop

variable {Co Fu : Type}

/-- Where a poll has left a driver, and what it goes on with. -/
inductive Seat (Co Fu : Type)
  /-- No poll holds it. -/
  | resting (activity : Activity Fu)
  | working (doing : Doing Co Fu)
  /-- Its coroutine polls a driver. -/
  | body (polled : DriverKey) (k : Option Outcome → Co)
  /-- Its computation polls a driver. -/
  | polling (polled : DriverKey) (spot : Spot Fu)

/-- Back from the driver that its computation has polled. -/
def Seat.back (polled : DriverKey) (spot : Spot Fu) : Option Outcome → Doing Co Fu
  | some o => .answer (o.map .value) spot
  | none => .pause (.waiting (.nested polled) spot.frames) spot.forks

namespace EventLoop

/-- The seat of the driver `d` among the pollers of a driver. -/
def seatIn (d : Driver Co Fu) : DriverKey → List (Poller Co Fu) → Seat Co Fu
  | _, [] => .resting d.activity
  | polled, .hand :: pollers => seatIn d polled pollers
  | polled, .body k f :: pollers => if k = d.key then .body polled f else seatIn d k pollers
  | polled, .waiting k spot :: pollers =>
    if k = d.key then .polling polled spot else seatIn d k pollers

/-- The seat of the driver `d`. -/
def seat (l : EventLoop Co Fu) (d : Driver Co Fu) : Seat Co Fu :=
  match l.focus with
  | .idle => .resting d.activity
  | .active pollers k doing =>
    if k = d.key ∧ doing.works then .working doing else seatIn d k pollers

section

variable (p : Program Co Fu) {l : EventLoop Co Fu} {pollers : List (Poller Co Fu)}
  {d d' : Driver Co Fu} {key k : DriverKey} {doing : Doing Co Fu}

/-! ## Seats and the focus -/

theorem seat_of_idle (h : l.focus = .idle) (d : Driver Co Fu) : l.seat d = .resting d.activity := by
  simp only [seat, h]

theorem seat_of_works (h : l.focus = .active pollers d.key doing) (hw : doing.works = true) :
    l.seat d = .working doing := by
  simp only [seat, h, hw, and_self, if_true]

theorem seat_of_not_works (h : l.focus = .active pollers k doing) (hw : doing.works = false)
    (d : Driver Co Fu) : l.seat d = seatIn d k pollers := by
  simp only [seat, h, hw, Bool.false_eq_true, and_false, if_false]

theorem seat_of_ne (h : l.focus = .active pollers k doing) (hne : d.key ≠ k) :
    l.seat d = seatIn d k pollers := by
  simp only [seat, h, Ne.symm hne, false_and, if_false]

/-- Who is not among the pollers rests. -/
theorem seatIn_of_not_mem (h : d.key ∉ pollers.filterMap Poller.key?) (k : DriverKey) :
    seatIn d k pollers = .resting d.activity := by
  induction pollers generalizing k with
  | nil => rfl
  | cons poller pollers ih =>
    cases poller with
    | hand => exact ih h k
    | body owner f =>
      have hk : owner ≠ d.key := fun he => h (he ▸ List.mem_cons_self)
      rw [seatIn, if_neg hk]
      exact ih (fun hm => h (List.mem_cons_of_mem _ hm)) owner
    | waiting owner spot =>
      have hk : owner ≠ d.key := fun he => h (he ▸ List.mem_cons_self)
      rw [seatIn, if_neg hk]
      exact ih (fun hm => h (List.mem_cons_of_mem _ hm)) owner

theorem seatIn_ne_working (d : Driver Co Fu) (k : DriverKey) (pollers : List (Poller Co Fu))
    (doing : Doing Co Fu) : seatIn d k pollers ≠ .working doing := by
  induction pollers generalizing k with
  | nil => exact nofun
  | cons poller pollers ih =>
    cases poller with
    | hand => exact ih k
    | body owner f =>
      rw [seatIn]
      split
      · exact nofun
      · exact ih owner
    | waiting owner spot =>
      rw [seatIn]
      split
      · exact nofun
      · exact ih owner

/-- Who is not held by a poll rests where it is. -/
theorem activity_of_seatIn {activity : Activity Fu} {k : DriverKey} {pollers : List (Poller Co Fu)}
    (h : seatIn d k pollers = .resting activity) : d.activity = activity := by
  induction pollers generalizing k with
  | nil => exact Seat.resting.inj h
  | cons poller pollers ih =>
    cases poller with
    | hand => exact ih h
    | body owner f =>
      rw [seatIn] at h
      split at h
      · cases h
      · exact ih h
    | waiting owner spot =>
      rw [seatIn] at h
      split at h
      · cases h
      · exact ih h

theorem activity_of_seat {activity : Activity Fu} (h : l.seat d = .resting activity) :
    d.activity = activity := by
  unfold seat at h
  split at h
  · exact Seat.resting.inj h
  · split at h
    · cases h
    · exact activity_of_seatIn h

/-- Who has another poller between is polled by it. -/
theorem seatIn_cons_of_ne {poller : Poller Co Fu} {owner : DriverKey} (hp : poller.key? = some owner)
    (hne : owner ≠ d.key) (k : DriverKey) (pollers : List (Poller Co Fu)) :
    seatIn d k (poller :: pollers) = seatIn d owner pollers := by
  cases poller with
  | hand => cases hp
  | body _ _ => cases hp; rw [seatIn, if_neg hne]
  | waiting _ _ => cases hp; rw [seatIn, if_neg hne]

theorem seat_of_not_held (h : d.key ∉ l.held) : l.seat d = .resting d.activity := by
  cases hfocus : l.focus with
  | idle => exact seat_of_idle hfocus d
  | active pollers k doing =>
    cases hw : doing.works with
    | false =>
      rw [held_of_not_works hfocus hw] at h
      rw [seat_of_not_works hfocus hw]
      exact seatIn_of_not_mem h k
    | true =>
      rw [held_of_works hfocus hw, List.mem_cons, not_or] at h
      rw [seat_of_ne hfocus h.1]
      exact seatIn_of_not_mem h.2 k

theorem seat_focusOn_of_works (l : EventLoop Co Fu) (pollers : List (Poller Co Fu))
    (hk : d.key = key) (hw : doing.works = true) :
    (l.focusOn pollers key doing).seat d = .working doing := by
  subst hk
  exact seat_of_works rfl hw

theorem seat_focusOn_of_not_works (l : EventLoop Co Fu) (pollers : List (Poller Co Fu))
    (hw : doing.works = false) (k : DriverKey) (d : Driver Co Fu) :
    (l.focusOn pollers k doing).seat d = seatIn d k pollers := seat_of_not_works rfl hw d

theorem seat_focusOn_polling (l : EventLoop Co Fu) (pollers : List (Poller Co Fu))
    (hk : d.key = key) (n : DriverKey) (spot : Spot Fu) :
    (l.focusOn (.waiting key spot :: pollers) n .poll).seat d = .polling n spot := by
  rw [seat_focusOn_of_not_works _ _ rfl, seatIn, if_pos hk.symm]

/-- A driver that has just come to rest is where it has been. -/
theorem seat_of_rest (ho : Orderly l) (hfocus : l.focus = .active pollers d.key doing)
    (hw : doing.works = true) (hd : d ∈ l.drivers) {branch : Branch Fu}
    (hd' : d' ∈ ((l.setActivity d.key (.pending branch)).focusOn pollers d.key
      (.leave none)).drivers) (hk : d'.key = d.key) :
    ((l.setActivity d.key (.pending branch)).focusOn pollers d.key (.leave none)).seat d' =
      .resting (.pending branch) := by
  have hdistinct := ho.distinct
  rw [held_of_works hfocus hw, List.nodup_cons, ← hk] at hdistinct
  rw [seat_focusOn_of_not_works _ _ rfl, seatIn_of_not_mem hdistinct.1,
    eq_of_mem_modifyDriver (fun x hx => ho.eq_of_key hx hd) hd' hk]

section

variable (pollers)

theorem stepDriver_poll_fresh (h : d.activity = .fresh) : l.stepDriver p pollers d .poll =
    (l.record d.spans .debug .scheduler "Task started" []).focusOn pollers d.key
      (.resume (.ok (.value .null))) := by
  unfold stepDriver
  rw [h]

theorem stepDriver_poll_busy (h : d.activity = .busy) : l.stepDriver p pollers d .poll =
    l.focusOn pollers d.key (.leave none) := by
  unfold stepDriver
  rw [h]

theorem stepDriver_poll_pending {branch : Branch Fu} (h : d.activity = .pending branch) :
    l.stepDriver p pollers d .poll =
      (l.setActivity d.key .busy).focusOn pollers d.key (.visit branch []) := by
  unfold stepDriver
  rw [h]

end

/-! ## What a move makes of a seat -/

/-- What a move makes of the driver `d`, which is `d'` afterwards, and of its seat. -/
inductive SeatMove (l : EventLoop Co Fu) (m : Move Co Fu) (d d' : Driver Co Fu) : Prop
  /-- It stays where it is; if it works the move is refused. -/
  | still (h : d' = d) (hseat : (l.move p m).seat d = l.seat d)
      (hrefused : ∀ doing, l.seat d = .working doing → l.move p m = l)
  /-- The poll that held it has broken off. -/
  | broken (h : d' = d) (hactivity : d.activity = .busy) (hidle : (l.move p m).focus = .idle)
      (hw : ∀ doing, l.seat d ≠ .working doing)
  /-- The driver that its computation polled is left. -/
  | back {polled : DriverKey} {spot : Spot Fu} {outcome : Option Outcome}
      {pollers : List (Poller Co Fu)} {doing : Doing Co Fu} (h : d' = d)
      (hseat : l.seat d = .polling polled spot)
      (hfocus : l.focus = .active (.waiting d.key spot :: pollers) polled doing)
      (hleft : doing = .leave outcome ∨ outcome = none ∧ l.driver? polled = none)
      (hl : l.move p m = l.focusOn pollers d.key (Seat.back polled spot outcome))
  /-- The driver that its coroutine polled is left. -/
  | bodyBack {polled : DriverKey} {k : Option Outcome → Co} {outcome : Option Outcome}
      {pollers : List (Poller Co Fu)} (h : d' = d) (hseat : l.seat d = .body polled k)
      (hl : l.move p m = l.focusOn pollers d.key (.advance (p.advance (k outcome))))
  /-- It is polled where it rests. -/
  | begins {pollers : List (Poller Co Fu)} (hfocus : l.focus = .active pollers d.key .poll)
      (hseat : l.seat d = .resting d.activity) (hl : l.move p m = l.stepDriver p pollers d .poll)
  /-- It acts. -/
  | acts {pollers : List (Poller Co Fu)} {doing : Doing Co Fu}
      (hfocus : l.focus = .active pollers d.key doing) (hw : doing.works = true)
      (hl : l.move p m = l.stepDriver p pollers d doing)

/-- Where a poll breaks off, who was not held stays at rest. -/
theorem seatMove_of_idle (ho : Orderly l) {m : Move Co Fu} (hd : d ∈ l.drivers)
    (hidle : (l.move p m).focus = .idle) (hw : ∀ doing, l.seat d ≠ .working doing) :
    SeatMove p l m d d := by
  by_cases hheld : d.key ∈ l.held
  · rcases ho.busy d hd hheld with hbusy | ⟨ps, input, hf⟩
    · exact .broken rfl hbusy hidle hw
    · exact absurd (seat_of_works hf rfl) (hw _)
  · refine .still rfl ?_ fun doing h => absurd h (hw doing)
    rw [seat_of_idle hidle, seat_of_not_held hheld]

/-- The end of a nested poll brings back the driver that polled. -/
theorem seatMove_leave (ho : Orderly l) {m : Move Co Fu} {outcome : Option Outcome}
    (hd : d ∈ l.drivers) (hfocus : l.focus = .active pollers k doing)
    (hleft : doing = .leave outcome ∨ outcome = none ∧ l.driver? k = none)
    (hl : l.move p m = l.leave p k outcome pollers) : SeatMove p l m d d := by
  have hseat : l.seat d = seatIn d k pollers := by
    cases hw : doing.works with
    | false => exact seat_of_not_works hfocus hw d
    | true =>
      have hgone : (∃ outcome, doing = .leave outcome) ∨ l.driver? k = none :=
        hleft.imp (fun h => ⟨outcome, h⟩) And.right
      exact seat_of_ne hfocus (gone_of_leave hgone hw d hd)
  have hw : ∀ doing, l.seat d ≠ .working doing := fun doing => by
    rw [hseat]
    exact seatIn_ne_working d k pollers doing
  have hother : ∀ {poller : Poller Co Fu} {rest : List (Poller Co Fu)} {owner : DriverKey}
      {doing' : Doing Co Fu}, pollers = poller :: rest → poller.key? = some owner →
      owner ≠ d.key → (l.move p m).focus = .active rest owner doing' → SeatMove p l m d d := by
    rintro poller rest owner doing' rfl hp hne hf
    refine .still rfl ?_ fun doing h => absurd h (hw doing)
    rw [hseat, seat_of_ne hf (Ne.symm hne), seatIn_cons_of_ne hp hne]
  cases pollers with
  | nil => exact seatMove_of_idle p ho hd (by rw [hl]; rfl) hw
  | cons poller rest =>
    cases poller with
    | hand => exact seatMove_of_idle p ho hd (by rw [hl]; rfl) hw
    | body owner f =>
      by_cases hk : owner = d.key
      · subst hk
        exact .bodyBack rfl (hseat.trans (if_pos rfl)) hl
      · exact hother rfl rfl hk (by rw [hl]; rfl)
    | waiting owner spot =>
      by_cases hk : owner = d.key
      · subst hk
        refine .back rfl (hseat.trans (if_pos rfl)) hfocus hleft ?_
        rw [hl]
        cases outcome <;> rfl
      · have hf : (l.move p m).focus = .active rest owner (Seat.back k spot outcome) := by
          rw [hl]
          cases outcome <;> rfl
        exact hother rfl rfl hk hf

/-- The step of a driver changes no other seat. -/
theorem seatMove_elsewhere {f : Driver Co Fu} (ho : Orderly l) {m : Move Co Fu}
    (hd : d ∈ l.drivers) (hfocus : l.focus = .active pollers f.key doing) (hne : d.key ≠ f.key)
    (hn : NextFocus pollers f.key (l.move p m).focus) : SeatMove p l m d d := by
  have hseat := seat_of_ne hfocus hne
  have hw : ∀ doing, l.seat d ≠ .working doing := fun doing => by
    rw [hseat]
    exact seatIn_ne_working d f.key pollers doing
  cases hf : (l.move p m).focus with
  | idle => exact seatMove_of_idle p ho hd hf hw
  | active ps k doing' =>
    rw [hf] at hn
    refine .still rfl ?_ fun doing h => absurd h (hw doing)
    cases hn with
    | on doing => rw [hseat, seat_of_ne hf hne]
    | nested hp k =>
      rw [hseat, seat_of_not_works hf rfl, seatIn_cons_of_ne hp (Ne.symm hne)]

/-- **What a move makes of the seat of a driver.** -/
theorem seat_move (ho : Orderly l) (m : Move Co Fu) (hd : d ∈ l.drivers)
    (hd' : d' ∈ (l.move p m).drivers) (hk : d'.key = d.key) : SeatMove p l m d d' := by
  have hb := (ho.proper d hd).1
  have hu : ∀ x ∈ l.drivers, x.key = d.key → x = d := fun x hx => ho.eq_of_key hx hd
  cases hfocus : l.focus with
  | idle =>
    have hl := move_of_idle p hfocus m
    rw [hl] at hd'
    cases (spares_outside p l m).eq_of_key hu hb hd' hk
    have hseat := seat_of_idle hfocus d
    refine .still rfl ?_ fun doing h => ?_
    · rw [hseat, hl]
      rcases outside_focus p hfocus m with hf | ⟨ps, key, hf, hps⟩
      · exact seat_of_idle hf d
      · rw [seat_of_not_works hf rfl]
        exact seatIn_of_not_mem (by rw [hps]; exact List.not_mem_nil) key
    · rw [hseat] at h
      cases h
  | active pollers k doing =>
    by_cases hm : m = .step
    · subst hm
      by_cases hleave : ∃ outcome, doing = .leave outcome
      · obtain ⟨outcome, rfl⟩ := hleave
        have hl := move_step_of_leave p hfocus
        rw [hl] at hd'
        cases (spares_leave p l _ _ outcome).eq_of_key hu hb hd' hk
        exact seatMove_leave p ho hd hfocus (.inl rfl) hl
      · have hleave : ∀ outcome, doing ≠ .leave outcome := fun o he => hleave ⟨o, he⟩
        cases hf : l.driver? k with
        | none =>
          have hl := move_step_of_gone p hfocus hleave hf
          rw [hl] at hd'
          cases (spares_leave p l _ _ none).eq_of_key hu hb hd' hk
          exact seatMove_leave p ho hd hfocus (.inr ⟨rfl, hf⟩) hl
        | some f =>
          cases key_of_driver? hf
          have hmem := mem_of_driver? hf
          have hl := move_step_of_driver p hfocus hf hleave
          by_cases hkey : d.key = f.key
          · cases ho.eq_of_key hd hmem hkey
            cases hw : doing.works with
            | true => exact .acts hfocus hw hl
            | false =>
              have hpoll : doing = .poll := by
                cases doing with
                | poll => rfl
                | leave outcome => exact absurd rfl (hleave outcome)
                | _ => cases hw
              subst hpoll
              by_cases hheld : d.key ∈ pollers.filterMap Poller.key?
              · have hstep := (poll_of_held p ho hfocus hd hheld).2
                rw [hl, hstep] at hd'
                cases hu d' hd' hk
                have hseat := seat_of_not_works hfocus rfl d
                refine .still rfl ?_ fun doing h => ?_
                · rw [hseat, hl, hstep, seat_of_not_works rfl rfl]
                · rw [hseat] at h
                  exact absurd h (seatIn_ne_working d d.key pollers doing)
              · refine .begins hfocus ?_ hl
                rw [seat_of_not_works hfocus rfl]
                exact seatIn_of_not_mem hheld d.key
          · have hstep := driverStep_stepDriver p l pollers f (ho.proper f hmem).1 hleave
            have hn : NextFocus pollers f.key (l.move p .step).focus := by
              rw [hl]
              exact hstep.nextFocus p
            rw [hl] at hd'
            have hold := (hstep.touches p (ho.proper f hmem).1).mem_of_ne hd'
              (fun he => hkey (hk.symm.trans he)) (hk ▸ hb)
            cases hu d' hold hk
            exact seatMove_elsewhere p ho hd hfocus hkey hn
    · have hl := move_of_active p hfocus hm
      rw [hl] at hd'
      cases hu d' hd' hk
      exact .still rfl (by rw [hl]) fun _ _ => hl

/-! ## Drivers that are over -/

/-- A driver that computes does not come to its end in the same step. -/
theorem ComputingStep.not_over {l' : EventLoop Co Fu} (h : ComputingStep l pollers d l')
    {ps : List (Poller Co Fu)} {o : Outcome} : l'.focus ≠ .active ps key (.leave (some o)) := by
  intro hf
  cases h with
  | on _ hc =>
    cases hf
    cases hc
  | _ => cases hf

/-- A driver is left with an outcome only when it has just come to its end. -/
theorem finish_of_over (hb : d.key.val ≤ l.lastKey) (hleave : ∀ outcome, doing ≠ .leave outcome)
    {ps : List (Poller Co Fu)} {o : Outcome}
    (hf : (l.stepDriver p pollers d doing).focus = .active ps key (.leave (some o))) :
    key = d.key ∧ ∃ outcome, doing = .finish outcome := by
  by_cases hc : doing.computes = true ∧ ∀ r, doing ≠ .answer r {}
  · exact absurd hf (computingStep_of_computes p hb hc.1 hc.2).not_over
  cases doing with
  | poll =>
    unfold stepDriver at hf
    dsimp only at hf
    split at hf <;> cases hf
  | resume input =>
    unfold stepDriver at hf
    dsimp only at hf
    split at hf <;> cases hf
  | advance a =>
    cases a with
    | ret progress =>
      cases progress with
      | yield y co =>
        unfold stepDriver at hf
        dsimp only at hf
        split at hf
        · unfold stepYield at hf
          cases y with
          | pass v =>
            dsimp only at hf
            split at hf
            · split at hf <;> cases hf
            · cases hf
          | effect e =>
            dsimp only at hf
            split at hf <;> cases hf
        · cases hf
      | _ => cases hf
    | panic => cases hf
    | _ =>
      rw [stepDriver_advance p l pollers d rfl] at hf
      cases hf
  | process ref e spot => exact absurd hf (computingStep_process p ref e spot).not_over
  | answer r spot =>
    by_cases hs : spot = {}
    · subst hs
      unfold stepDriver at hf
      replace hf : (l.stepAnswer p pollers d r ⟨[], []⟩).focus = _ := hf
      unfold stepAnswer at hf
      dsimp only at hf
      split at hf <;> cases hf
    · exact absurd ⟨rfl, fun r' h => hs (Doing.answer.inj h).2⟩ hc
  | finish outcome => exact ⟨(Focus.active.inj hf).2.1.symm, outcome, rfl⟩
  | leave outcome => exact absurd rfl (hleave outcome)
  | crash => cases hf
  | _ => exact absurd ⟨rfl, fun r => nofun⟩ hc

/-- **Whoever is left with an outcome is gone**, after every run. -/
theorem gone_of_over (moves : List (Move Co Fu)) {ps : List (Poller Co Fu)} {o : Outcome}
    (hf : (after p {} moves).focus = .active ps key (.leave (some o))) :
    ∀ d ∈ (after p {} moves).drivers, d.key ≠ key := by
  induction moves using List.reverseRecOn with
  | nil => cases hf
  | append_singleton moves m ih =>
    rw [after_snoc] at hf ⊢
    have ho := orderly_after p moves
    generalize after p {} moves = l at *
    have hturn := turn_move p m (l := l)
    generalize l.move p m = l' at hturn hf
    cases hturn with
    | outside hidle m =>
      rcases outside_focus p hidle m with hf' | ⟨_, _, hf', _⟩
      · rw [hf'] at hf
        cases hf
      · rw [hf'] at hf
        cases hf
    | refused _ _ => exact ih hf
    | leave hfocus _ outcome =>
      rename_i below k doing _
      exfalso
      cases below with
      | nil => cases hf
      | cons poller rest =>
        cases poller with
        | waiting owner spot => cases outcome <;> cases hf
        | _ => cases hf
    | driver hfocus hd hleave =>
      have hb := (ho.proper _ (mem_of_driver? hd)).1
      obtain ⟨rfl, outcome, rfl⟩ := finish_of_over p hb hleave hf
      exact fun x hx => key_ne_of_mem_conclude hx

end

end EventLoop

end EffectLoop
