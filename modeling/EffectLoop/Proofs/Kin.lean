import EffectLoop.Proofs.Prospects

/-!
# What comes of a target in a run

The tasks that are entered for an effect of a coroutine, and for those in turn, are its kin (`Kin`). As
long as nobody else decides what becomes of them (`Undisturbed`), a driver among them ends with what may
come of the work it was entered for, and the effect is answered with what may come of the effect
(`comes_of_settled`, `comes_of_resolved`): the loop does what the reference says, whatever else goes on.
-/

namespace EffectLoop

variable {Co Fu : Type}

namespace EventLoop

section

variable (p : Program Co Fu) (s : SchedulerId) (w : Reading Co Fu) (called : DriverKey → Co → Prop)
  {l : EventLoop Co Fu} {d d' : Driver Co Fu} {pollers : List (Poller Co Fu)} {job job' : Job Co}
  {seat seat' : Seat Co Fu}

/-! ## Prospects along a move -/

/-- Nothing may come of a driver with this job at this seat that might not come of it before. -/
structure Narrows (job : Job Co) (seat : Seat Co Fu) (job' : Job Co) (seat' : Seat Co Fu) : Prop where
  brings : ∀ r, seat'.Brings p s w called r → seat.Brings p s w called r
  may : ∀ o, seat'.May p s w called job' o → seat.May p s w called job o

theorem Narrows.refl : Narrows p s w called job seat job seat := ⟨fun _ h => h, fun _ h => h⟩

/-- Back from a nested driver a computation goes on with what the wait for it may end with. -/
theorem narrows_back {polled : DriverKey} {spot : Spot Fu} {outcome : Option Outcome}
    (h : ∀ o, outcome = some o → (Wait.nested polled).Brings p s w called (o.map .value)) :
    Narrows p s w called job (.polling polled spot) job (.working (Seat.back polled spot outcome)) := by
  have hbrings : ∀ r, (Seat.working (Seat.back polled spot outcome) : Seat Co Fu).Brings p s w called r →
      (Seat.polling polled spot : Seat Co Fu).Brings p s w called r := by
    intro r hr
    cases outcome with
    | some o => exact ⟨_, h o rfl, hr⟩
    | none =>
      obtain ⟨r₁, ⟨r₂, h₂, h₁⟩, hr⟩ := hr
      exact ⟨r₂, h₂, r₁, h₁, hr⟩
  refine ⟨hbrings, fun o ho => ?_⟩
  cases outcome with
  | some o' =>
    obtain ⟨r, hr, hends⟩ := ho
    exact ⟨r, hbrings r hr, hends⟩
  | none =>
    obtain ⟨r, hr, hends⟩ := ho
    exact ⟨r, hbrings r hr, hends⟩

/-- A driver that is polled where it rests goes on from there. -/
theorem narrows_poll (ho : Orderly l) (hd : d ∈ l.drivers) (hfocus : l.focus = .active pollers d.key .poll)
    (hseat : l.seat d = .resting d.activity) (hd' : d' ∈ (l.stepDriver p pollers d .poll).drivers)
    (hk : d'.key = d.key) :
    Narrows p s w called d.job (l.seat d) d'.job ((l.stepDriver p pollers d .poll).seat d') := by
  have hsame : ∀ x ∈ l.drivers, x.key = d.key → x = d := fun x hx => ho.eq_of_key hx hd
  cases hactivity : d.activity with
  | fresh =>
    rw [stepDriver_poll_fresh p pollers hactivity] at hd' ⊢
    cases hsame d' hd' hk
    rw [seat_focusOn_of_works _ _ rfl rfl, hseat, hactivity]
    exact ⟨fun _ h => h, fun _ h => h⟩
  | busy =>
    rw [stepDriver_poll_busy p pollers hactivity] at hd' ⊢
    cases hsame d' hd' hk
    rw [seat_of_not_works hfocus rfl] at hseat ⊢
    rw [seat_focusOn_of_not_works _ _ rfl]
    exact .refl p s w called
  | pending branch =>
    rw [stepDriver_poll_pending p pollers hactivity] at hd' ⊢
    have hown : d' = { d with activity := .busy } := eq_of_mem_modifyDriver hsame hd' hk
    rw [seat_focusOn_of_works _ _ hk rfl, hown, hseat, hactivity]
    have hbrings : ∀ r, (Seat.working (.visit branch []) : Seat Co Fu).Brings p s w called r →
        branch.Brings p s w called r := by
      rintro r ⟨r₁, h, rfl⟩
      exact h
    refine ⟨hbrings, fun o ho => ?_⟩
    obtain ⟨r, hr, hends⟩ := ho
    exact ⟨r, hbrings r hr, hends⟩

/-- **A move adds nothing to the prospects of a driver**, or the driver acts. -/
theorem narrows_or_acts (ho : Orderly l) (m : Move Co Fu) (hd : d ∈ l.drivers)
    (hd' : d' ∈ (l.move p m).drivers) (hk : d'.key = d.key)
    (hback : ∀ polled pollers spot o,
      l.focus = .active (.waiting d.key spot :: pollers) polled (.leave (some o)) →
        (Wait.nested polled).Brings p s w called (o.map .value)) :
    Narrows p s w called d.job (l.seat d) d'.job ((l.move p m).seat d') ∨
      m = .step ∧ ∃ pollers doing, l.focus = .active pollers d.key doing ∧ doing.works = true ∧
        l.seat d = .working doing ∧ Stride p l d doing d'.job ((l.move p m).seat d') := by
  cases seat_move p ho m hd hd' hk with
  | still he hseat _ =>
    subst he
    rw [hseat]
    exact .inl (.refl p s w called)
  | broken he hactivity hidle _ =>
    subst he
    rw [seat_of_idle hidle, hactivity]
    refine .inl ⟨fun _ h => h.elim, fun _ h => ?_⟩
    obtain ⟨_, hr, _⟩ := h
    exact hr.elim
  | @back polled spot outcome pollers doing he hseat hfocus hleft hl =>
    subst he
    have hwhere : (l.move p m).seat d' = .working (Seat.back polled spot outcome) := by
      rw [hl, seat_focusOn_of_works _ _ rfl (by cases outcome <;> rfl)]
    rw [hwhere, hseat]
    refine .inl (narrows_back p s w called fun o ho => ?_)
    subst ho
    rcases hleft with rfl | ⟨hnone, _⟩
    · exact hback polled pollers spot o hfocus
    · cases hnone
  | @bodyBack polled k outcome pollers he hseat hl =>
    subst he
    have hwhere : (l.move p m).seat d' = .working (.advance (p.advance (k outcome))) := by
      rw [hl, seat_focusOn_of_works _ _ rfl rfl]
    rw [hwhere, hseat]
    exact .inl ⟨fun _ h => h.elim, fun _ h => ⟨outcome, h⟩⟩
  | begins hfocus hseat hl =>
    rw [hl] at hd' ⊢
    exact .inl (narrows_poll p s w called ho hd hfocus hseat hd' hk)
  | @acts pollers doing hfocus hw hl =>
    by_cases hm : m = .step
    · right
      refine ⟨hm, pollers, doing, hfocus, hw, seat_of_works hfocus hw, ?_⟩
      rw [hl] at hd' ⊢
      exact stride_stepDriver p ho hd hfocus hw hd' hk
    · have hrefused := move_of_active p hfocus hm
      rw [hrefused] at hd' ⊢
      cases ho.eq_of_key hd' hd hk
      exact .inl (.refl p s w called)

/-- Who is left with an outcome has just come to its end, and its task has that outcome. -/
theorem outcome_of_over {moves : List (Move Co Fu)} {key : DriverKey} {o : Outcome}
    (hf : (after p {} moves).focus = .active pollers key (.leave (some o))) :
    ∃ before d own, before ++ [.step] <+: moves ∧
      (after p {} before).focus = .active pollers key (.finish own) ∧
      (after p {} before).driver? key = some d ∧ (after p {} moves).outcome? d.task = some o := by
  induction moves using List.reverseRecOn with
  | nil => cases hf
  | append_singleton moves m ih =>
    rw [after_snoc] at hf ⊢
    have ho := orderly_after p moves
    by_cases hm : m = .step
    · subst hm
      cases hfocus : (after p {} moves).focus with
      | idle =>
        rw [move_of_idle p hfocus] at hf
        cases hfocus.symm.trans hf
      | active below k doing =>
        by_cases hleft : (∃ outcome, doing = .leave outcome) ∨ (after p {} moves).driver? k = none
        · exfalso
          obtain ⟨outcome, hl⟩ : ∃ outcome, (after p {} moves).move p .step =
              (after p {} moves).leave p k outcome below := by
            by_cases hleave : ∃ outcome, doing = .leave outcome
            · obtain ⟨outcome, rfl⟩ := hleave
              exact ⟨outcome, move_step_of_leave p hfocus⟩
            · have hgone := hleft.resolve_left hleave
              exact ⟨none, move_step_of_gone p hfocus (fun o he => hleave ⟨o, he⟩) hgone⟩
          rw [hl] at hf
          cases below with
          | nil => cases hf
          | cons poller rest =>
            cases poller with
            | waiting owner spot => cases outcome <;> cases hf
            | _ => cases hf
        · rw [not_or] at hleft
          obtain ⟨d, hd⟩ := Option.ne_none_iff_exists'.mp hleft.2
          cases key_of_driver? hd
          have hleave : ∀ outcome, doing ≠ .leave outcome := fun o he => hleft.1 ⟨o, he⟩
          have hb := (ho.proper d (mem_of_driver? hd)).1
          rw [move_step_of_driver p hfocus hd hleave] at hf ⊢
          obtain ⟨rfl, own, rfl⟩ := finish_of_over p hb hleave hf
          obtain ⟨rfl, _, houtcome⟩ := Focus.active.inj hf
          exact ⟨moves, d, own, List.prefix_refl _, hfocus, hd, Doing.leave.inj houtcome⟩
    · cases hfocus : (after p {} moves).focus with
      | idle =>
        rw [move_of_idle p hfocus] at hf
        rcases outside_focus p hfocus m with hf' | ⟨_, _, hf', _⟩
        · cases hf'.symm.trans hf
        · cases hf'.symm.trans hf
      | active below k doing =>
        rw [move_of_active p hfocus hm] at hf ⊢
        obtain ⟨before, d, own, hle, h⟩ := ih hf
        exact ⟨before, d, own, hle.trans (List.prefix_append ..), h⟩

end

/-! ## The kin of an effect -/

/-- The tasks that are entered in a run on behalf of the effect that the coroutine of the driver `key` had
processed when `told` had happened to it, and on behalf of those tasks in turn: the driver, the task and
what it works on. -/
inductive Kin (p : Program Co Fu) (moves : List (Move Co Fu)) (key : DriverKey)
    (told : List (TaskEvent Co)) : DriverKey → TaskHandle → Invoked Co Fu → Prop
  | first {first : List (Move Co Fu)} {b : Builtin} {k : DriverKey} {t : TaskHandle}
      {work : Invoked Co Fu} (hle : first ++ [.step] <+: moves) (htold : history p first key = told)
      (h : Enters (after p {} first) key b work k t) : Kin p moves key told k t work
  | next {first : List (Move Co Fu)} {b : Builtin} {parent k : DriverKey} {t₀ t : TaskHandle}
      {work₀ work : Invoked Co Fu} (hparent : Kin p moves key told parent t₀ work₀)
      (hle : first ++ [.step] <+: moves) (h : Enters (after p {} first) parent b work k t) :
      Kin p moves key told k t work

/-- At this point of the run the driver works on the effect or on a task of its kin. -/
def OnBehalf (p : Program Co Fu) (moves : List (Move Co Fu)) (key : DriverKey)
    (told : List (TaskEvent Co)) (first : List (Move Co Fu)) (k : DriverKey) : Prop :=
  k = key ∧ history p first key = told ∨ ∃ t work, Kin p moves key told k t work

/-- Nobody else meddles with an effect in a run. -/
structure Undisturbed (p : Program Co Fu) (moves : List (Move Co Fu)) (key : DriverKey)
    (told : List (TaskEvent Co)) (others : TaskHandle → Option Outcome) : Prop where
  /-- Each task of its kin is left to its driver. -/
  spared : ∀ k t work, Kin p moves key told k t work → Spared p moves t
  /-- The tasks of others are not of its kin, -/
  own : ∀ k t work, Kin p moves key told k t work → others t = none
  /-- and whatever other task is waited for on its behalf comes to what is said of it. -/
  foreign : ∀ first k pollers doing t o, first ++ [.step] <+: moves →
    OnBehalf p moves key told first k → (after p {} first).focus = .active pollers k doing →
    doing.wait? = some (.task t) → (after p {} first).outcome? t = some o →
    (∀ k work, ¬ Kin p moves key told k t work) → others t = some o

section

variable {p : Program Co Fu} {total moves : List (Move Co Fu)} {key k : DriverKey}
  {told : List (TaskEvent Co)} {t : TaskHandle} {work : Invoked Co Fu}

theorem Kin.entered (h : Kin p total key told k t work) :
    ∃ first parent b, first ++ [.step] <+: total ∧ Enters (after p {} first) parent b work k t := by
  cases h with
  | first hle _ h => exact ⟨_, _, _, hle, h⟩
  | next _ hle h => exact ⟨_, _, _, hle, h⟩

/-- A task works on one thing. -/
theorem Kin.unique {k' : DriverKey} {work' : Invoked Co Fu} (h : Kin p total key told k t work)
    (h' : Kin p total key told k' t work') : work = work' := by
  obtain ⟨first, _, _, hle, he⟩ := h.entered
  obtain ⟨first', _, _, hle', he'⟩ := h'.entered
  cases enters_unique p hle hle' he he' (.inr ⟨rfl, rfl⟩)
  exact (he.unique he').2.1

theorem Kin.task_eq {d : Driver Co Fu} (h : Kin p total key told k t work) (hmoves : moves <+: total)
    (hd : d ∈ (after p {} moves).drivers) (hk : d.key = k) : d.task = t := by
  obtain ⟨first, _, _, hle, he⟩ := h.entered
  exact he.task_eq p hle hmoves hd hk

/-- What works on behalf of an effect enters nothing but its kin. -/
theorem OnBehalf.enters {parent : DriverKey} {b : Builtin} (h : OnBehalf p total key told moves parent)
    (hle : moves ++ [.step] <+: total) (he : Enters (after p {} moves) parent b work k t) :
    Kin p total key told k t work := by
  rcases h with ⟨rfl, htold⟩ | ⟨t₀, work₀, hkin⟩
  · exact .first hle htold he
  · exact .next hkin hle he

/-- What works on behalf of an effect does so under the scheduler of the coroutine. -/
theorem OnBehalf.scheduler {s : SchedulerId} {co : Co} {hist : List (TaskEvent Co)} {d : Driver Co Fu}
    (htold : told = .entered s co :: hist) (h : OnBehalf p total key told moves d.key)
    (hmoves : moves <+: total) (hd : d ∈ (after p {} moves).drivers) : d.task.scheduler = s := by
  have hcaller : ∀ {moves : List (Move Co Fu)} {d : Driver Co Fu}, history p moves d.key = told →
      d ∈ (after p {} moves).drivers → d.task.scheduler = s := by
    intro moves d hhist hd
    have h := told_after p moves d.key
    rw [hhist, htold] at h
    exact (coroutine_of_entered p h hd).2
  have hkin : ∀ {k t work}, Kin p total key told k t work → t.scheduler = s := by
    intro k t work h
    induction h with
    | first hle hfirst h =>
      cases h with
      | intro _ hd _ =>
        cases key_of_driver? hd
        exact hcaller hfirst (mem_of_driver? hd)
    | next hparent hle h ih =>
      cases h with
      | intro _ hd _ =>
        have htask := hparent.task_eq ((List.prefix_append _ _).trans hle) (mem_of_driver? hd)
          (key_of_driver? hd)
        rw [htask]
        exact ih
  rcases h with ⟨hk, hhist⟩ | ⟨t, work, h⟩
  · exact hcaller (hk ▸ hhist) hd
  · rw [h.task_eq hmoves hd rfl]
    exact hkin h

/-- What the handles of a run stand for. -/
theorem exists_reading (p : Program Co Fu) (total : List (Move Co Fu)) (key : DriverKey)
    (told : List (TaskEvent Co)) (others : TaskHandle → Option Outcome) :
    ∃ w : Reading Co Fu, w.others = others ∧
      ∀ k t work, Kin p total key told k t work → w.forked t = some work := by
  classical
  refine ⟨⟨fun t => if h : ∃ work k, Kin p total key told k t work then some h.choose else none,
    others⟩, rfl, fun k t work h => ?_⟩
  have hex : ∃ work k, Kin p total key told k t work := ⟨work, k, h⟩
  obtain ⟨_, hchosen⟩ := hex.choose_spec
  dsimp only
  rw [dif_pos hex, hchosen.unique h]

end

/-! ## A run does what the reference says -/

section

variable (p : Program Co Fu) {total moves : List (Move Co Fu)} {key : DriverKey}
  {told : List (TaskEvent Co)} {others : TaskHandle → Option Outcome} {s : SchedulerId}
  {w : Reading Co Fu}

/-- The drivers among the kin that were entered to be called. -/
def CalledFor (total : List (Move Co Fu)) (key : DriverKey) (told : List (TaskEvent Co)) (k : DriverKey)
    (co : Co) : Prop := ∃ t, Kin p total key told k t (.coroutine co)

/-- Nothing may come of a driver among the kin but what may come of the work it was entered for. -/
def Keeps (s : SchedulerId) (w : Reading Co Fu) (total : List (Move Co Fu)) (key : DriverKey)
    (told : List (TaskEvent Co)) (l : EventLoop Co Fu) : Prop :=
  ∀ d t work, Kin p total key told d.key t work → d ∈ l.drivers → ∀ o,
    (l.seat d).May p s w (CalledFor p total key told) d.job o → Comes p s w (.invoked work) (o.map .value)

/-- The outcome of a task of the kin is one that may come of its work. -/
theorem comes_of_keeps (hu : Undisturbed p total key told others) (hmoves : moves <+: total)
    (hkeeps : ∀ first, first <+: moves → Keeps p s w total key told (after p {} first))
    {k : DriverKey} {t : TaskHandle} {work : Invoked Co Fu} (h : Kin p total key told k t work)
    {o : Outcome} (ho : (after p {} moves).outcome? t = some o) :
    Comes p s w (.invoked work) (o.map .value) := by
  obtain ⟨first, _, _, hle, he⟩ := h.entered
  obtain ⟨before, hbefore, pollers, d, hfocus, hd⟩ :=
    finishing_of_settled p hle he (hu.spared k t work h) hmoves ho
  cases key_of_driver? hd
  refine hkeeps before ((List.prefix_append ..).trans hbefore) d t work h (mem_of_driver? hd) o ?_
  rw [seat_of_works hfocus rfl]
  rfl

variable (hothers : w.others = others)
  (hforked : ∀ k t work, Kin p total key told k t work → w.forked t = some work)
  {co₀ : Co} {hist : List (TaskEvent Co)} (htold : told = .entered s co₀ :: hist)
include hothers hforked htold

/-- What a driver gets to see of the loop on behalf of the effect is as the handles are read. -/
theorem meets_of_keeps (hu : Undisturbed p total key told others) (hle : moves ++ [.step] <+: total)
    (hkeeps : ∀ first, first <+: moves → Keeps p s w total key told (after p {} first))
    {d : Driver Co Fu} {pollers : List (Poller Co Fu)} {doing : Doing Co Fu}
    (hd : d ∈ (after p {} moves).drivers) (hbehalf : OnBehalf p total key told moves d.key)
    (hfocus : (after p {} moves).focus = .active pollers d.key doing) :
    Meets p s w (CalledFor p total key told) (after p {} moves) d doing := by
  have hmoves := (List.prefix_append moves [Move.step]).trans hle
  have hdriver := driver?_of_mem (orderly_after p moves) hd
  have hs := hbehalf.scheduler htold hmoves hd
  refine ⟨hs, ?_, ?_, ?_⟩
  · intro t o hwait ho
    by_cases hkin : ∃ k work, Kin p total key told k t work
    · obtain ⟨k, work, hkin⟩ := hkin
      refine .joined ?_ (hforked k t work hkin) (comes_of_keeps p hu hmoves hkeeps hkin ho)
      rw [hothers]
      exact hu.own k t work hkin
    · refine .other ?_
      rw [hothers]
      exact hu.foreign moves d.key pollers doing t o hle hbehalf hfocus hwait ho
        fun k work h => hkin ⟨k, work, h⟩
  · rintro target work spot rfl
    have hkin := hbehalf.enters hle (.intro hfocus hdriver (.inl rfl))
    rw [hs] at hkin
    rw [hothers]
    exact ⟨hu.own _ _ _ hkin, hforked _ _ _ hkin⟩
  · rintro b target co spot _ rfl
    exact ⟨_, hbehalf.enters hle (.intro hfocus hdriver (.inr ⟨co, rfl⟩))⟩

omit hothers hforked htold in
/-- A driver that was entered to be called is left with what may come of the coroutine it drives. -/
theorem brings_of_over (hu : Undisturbed p total key told others) (hmoves : moves <+: total)
    (hkeeps : ∀ first, first <+: moves → Keeps p s w total key told (after p {} first))
    {pollers : List (Poller Co Fu)} {polled : DriverKey} {o : Outcome}
    (hf : (after p {} moves).focus = .active pollers polled (.leave (some o))) :
    (Wait.nested polled).Brings p s w (CalledFor p total key told) (o.map .value) := by
  rintro co ⟨t, hkin⟩
  obtain ⟨before, d, _, hbefore, _, hd, ho⟩ := outcome_of_over p hf
  have hle := ((List.prefix_append before [Move.step]).trans hbefore).trans hmoves
  rw [hkin.task_eq hle (mem_of_driver? hd) (key_of_driver? hd)] at ho
  exact comes_of_keeps p hu hmoves hkeeps hkin ho

omit hothers hforked htold in
/-- Nothing may come of a driver that was just entered but what may come of its work. -/
theorem comes_of_entered {called : DriverKey → Co → Prop} {x : Arrival Co Fu} {o : Outcome}
    (h : (Seat.resting x.activity : Seat Co Fu).May p s w called x.job o) :
    Comes p s w (.invoked x.work) (o.map .value) := by
  unfold Arrival.activity Arrival.job at h
  cases hwork : x.work with
  | coroutine co =>
    rw [hwork] at h
    exact .coroutine h
  | pending fu =>
    rw [hwork] at h
    obtain ⟨r, hr, ho⟩ := h
    have hwired : o.map .value = r.wired := by
      rw [show o = r.map Output.wire from ho]
      cases r <;> rfl
    rw [hwired]
    exact .pending hr

/-- **What may come of the kin stays what may come of its work**, move after move. -/
theorem keeps_move {m : Move Co Fu} (hu : Undisturbed p total key told others)
    (hle : moves ++ [m] <+: total)
    (hkeeps : ∀ first, first <+: moves → Keeps p s w total key told (after p {} first)) :
    Keeps p s w total key told (after p {} (moves ++ [m])) := by
  intro d' t work hkin hd' o hmay
  have hmoves := (List.prefix_append moves [m]).trans hle
  have ho := orderly_after p moves
  rw [after_snoc] at hd' hmay
  by_cases hold : d'.key.val ≤ (after p {} moves).lastKey
  · obtain ⟨d, hd, hk, _, _⟩ := exists_before p ho m hd' hold
    rw [hk] at hkin
    refine hkeeps moves (List.prefix_refl _) d t work hkin hd o ?_
    rcases narrows_or_acts p s w (CalledFor p total key told) ho m hd hd' hk fun polled pollers spot o hf =>
        brings_of_over p hu hmoves hkeeps hf with
      hnarrows | ⟨rfl, pollers, doing, hfocus, _, hseat, hstride⟩
    · exact hnarrows.may o hmay
    · have hmeets := meets_of_keeps p hothers hforked htold hu hle hkeeps hd (.inr ⟨t, work, hkin⟩) hfocus
      rw [hseat]
      exact may_stride p s w _ hstride hmeets hmay
  · obtain ⟨first, parent, b, hfirst, he⟩ := hkin.entered
    have ho' := orderly_move p ho m
    have hnow : first ++ [.step] = moves ++ [m] := by
      have hbefore := he.before p hfirst hle (by rw [after_snoc]; exact (ho'.proper d' hd').1)
      rcases List.prefix_concat_iff.mp hbefore with heq | hearlier
      · exact heq
      · obtain ⟨hgiven, _⟩ := he.allotted p (orderly_after p first)
        obtain ⟨rest, rfl⟩ := hearlier
        have hgrows := lastKey_le_after p (orderly_after p (first ++ [.step])).proper rest
        rw [← after_append, after_snoc] at hgrows
        exact absurd (Nat.le_trans hgiven hgrows) hold
    obtain ⟨rfl, hm⟩ := List.append_inj' hnow rfl
    cases hm
    obtain ⟨x, rfl, d, hd, hk, _, hjob, hactivity⟩ := he.driver p
    cases ho'.eq_of_key hd' hd hk.symm
    have haway : d'.key ∉ ((after p {} first).move p .step).held := fun hheld =>
      hold (held_move_le p ho .step _ hheld)
    rw [seat_of_not_held haway, hjob, hactivity] at hmay
    exact comes_of_entered p hmay

theorem keeps_after (hu : Undisturbed p total key told others) (hmoves : moves <+: total) :
    ∀ first, first <+: moves → Keeps p s w total key told (after p {} first) := by
  induction moves using List.reverseRecOn with
  | nil =>
    intro first hfirst
    rw [List.prefix_nil.mp hfirst]
    intro d _ _ _ hd
    cases hd
  | append_singleton moves m ih =>
    have hbefore := ih ((List.prefix_append ..).trans hmoves)
    intro first hfirst
    rcases List.prefix_concat_iff.mp hfirst with rfl | hfirst
    · exact keeps_move p hothers hforked htold hu hmoves hbefore
    · exact hbefore first hfirst

/-- **A task of the kin settles with what may come of its work.** -/
theorem comes_of_settled (hu : Undisturbed p total key told others) (hmoves : moves <+: total)
    {k : DriverKey} {t : TaskHandle} {work : Invoked Co Fu} (h : Kin p total key told k t work)
    {o : Outcome} (ho : (after p {} moves).outcome? t = some o) :
    Comes p s w (.invoked work) (o.map .value) :=
  comes_of_keeps p hu hmoves (keeps_after p hothers hforked htold hu hmoves) h ho

/-! ## The effect itself -/

variable {past rest : List (TaskEvent Co)} {ref : ProcessorRef} {e : Effect}
  (hgiven : told = past ++ [.given ref e])
include hgiven

omit hothers hforked hgiven in
/-- The step in which an effect is given to its processor adds nothing to what it may be answered with. -/
theorem brings_of_given {called : DriverKey → Co → Prop} {d d' : Driver Co Fu}
    {pollers : List (Poller Co Fu)} {doing : Doing Co Fu} {r : Resume}
    (h : history p (moves ++ [.step]) d.key = told)
    (hfocus : (after p {} moves).focus = .active pollers d.key doing)
    (hd : (after p {} moves).driver? d.key = some d) (he : doing.event? d = some (.given ref e))
    (hd' : d' ∈ ((after p {} moves).move p .step).drivers) (hk : d'.key = d.key)
    (hr : (((after p {} moves).move p .step).seat d').Brings p s w called r) :
    Comes p s w (.effect ref e) r := by
  have ho := orderly_after p moves
  have hmem := mem_of_driver? hd
  cases process_of_given he
  have hs : d.task.scheduler = s := by
    obtain ⟨d₀, hd₀, hk₀, htask, _⟩ := exists_before p ho .step hd' (hk ▸ (ho.proper d hmem).1)
    cases ho.eq_of_key hd₀ hmem (hk₀.symm.trans hk)
    rw [← htask]
    rw [← hk] at h
    rw [← after_snoc] at hd'
    have hbehalf : OnBehalf p (moves ++ [.step]) d'.key told (moves ++ [.step]) d'.key := .inl ⟨rfl, h⟩
    exact hbehalf.scheduler htold (List.prefix_refl _) hd'
  have hmeets : Meets p s w called (after p {} moves) d (.process ref e {}) := by
    refine ⟨hs, ?_, ?_, ?_⟩
    · intro t o hwait
      cases hwait
    · intro target work spot hinvoke
      cases hinvoke
    · intro b target co spot _ hinvoke
      cases hinvoke
  rw [move_step_of_driver p hfocus hd (not_leave_of_works rfl)] at hd' hr
  have hstride := stride_stepDriver p ho hmem hfocus rfl hd' hk
  obtain ⟨r₁, hcomes, hleads⟩ := brings_stride p s w called hstride hmeets nofun nofun hr
  cases (leads_nil p s w called).mp hleads
  exact hcomes

/-- **While an effect is processed, nothing may come of it but what may come of it by itself.** -/
theorem brings_after (hu : Undisturbed p total key told others) (hmoves : moves <+: total)
    (h : history p moves key = told) {d : Driver Co Fu} (hd : d ∈ (after p {} moves).drivers)
    (hk : d.key = key) {r : Resume}
    (hr : ((after p {} moves).seat d).Brings p s w (CalledFor p total key told) r) :
    Comes p s w (.effect ref e) r := by
  induction moves using List.reverseRecOn generalizing d r with
  | nil =>
    rw [hgiven] at h
    simp [history, trace, eventsOf] at h
  | append_singleton moves m ih =>
    have hle := (List.prefix_append moves [m]).trans hmoves
    have ho := orderly_after p moves
    rw [after_snoc] at hd hr
    rcases history_last p (h.trans hgiven) rfl with
      hbefore | ⟨_, rfl, pollers, f, doing, hfocus, hf, rfl, he⟩
    · have hold : key.val ≤ (after p {} moves).lastKey :=
        old_of_history p (by rw [hbefore]; simp)
      obtain ⟨d₀, hd₀, hk₀, _, _⟩ := exists_before p ho m hd (hk ▸ hold)
      have hkey : d₀.key = key := hk₀.symm.trans hk
      have hkeeps := keeps_after p hothers hforked htold hu hle
      refine ih hle (hbefore.trans hgiven.symm) hd₀ hkey ?_
      rcases narrows_or_acts p s w (CalledFor p total key told) ho m hd₀ hd hk₀
          fun polled pollers spot o hf => brings_of_over p hu hle hkeeps hf with
        hnarrows | ⟨rfl, pollers, doing, hfocus, hw, hseat, hstride⟩
      · exact hnarrows.brings r hr
      · have hbehalf : OnBehalf p total key told moves d₀.key :=
          .inl ⟨hkey, hkey ▸ hbefore.trans hgiven.symm⟩
        have hmeets := meets_of_keeps p hothers hforked htold hu hmoves hkeeps hd₀ hbehalf hfocus
        obtain ⟨_, _, _, ph, _, hp, hstands⟩ := exists_stands p hbefore rfl
        obtain ⟨co, rfl⟩ := hp.processing_of_given
        obtain ⟨_, _, _, _, hdoes⟩ := does_of_stands hfocus hw (hstands d₀ hd₀ hkey)
        rw [hseat]
        refine brings_stride p s w _ hstride hmeets ?_ ?_ hr
        · rintro input rfl
          cases (show Phase.processing co ref e = .owed _ _ _ from hdoes)
        · rintro a rfl
          cases (show Phase.processing co ref e = .running _ from hdoes)
    · exact brings_of_given p htold h hfocus hf he hd hk hr

/-- **An effect is answered with what may come of it.** -/
theorem comes_of_resolved (hu : Undisturbed p total key told others) {r : Resume}
    (h : history p total key = told ++ .resolved r :: rest) : Comes p s w (.effect ref e) r := by
  obtain ⟨first, pollers, d, doing, hle, hhist, rfl, hfocus, hd, he⟩ := exists_step_of_event p h rfl
  have hmoves := (List.prefix_append first [Move.step]).trans hle
  cases answer_of_resolved he
  refine brings_after p hothers hforked htold hgiven hu hmoves hhist (mem_of_driver? hd) rfl ?_
  rw [seat_of_works hfocus rfl]
  exact ⟨r, rfl, rfl⟩

end

end EventLoop

end EffectLoop
