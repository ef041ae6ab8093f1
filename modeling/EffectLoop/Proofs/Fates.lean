import EffectLoop.Proofs.Answers

/-!
# What becomes of the task of a driver

As long as a driver is there its task has no outcome, or it was terminated (`outcome_of_driver`): an outcome
of its own or its abandonment takes the driver away. So a driver that comes to its end with an outcome
settles its task with that, unless the task was terminated before (`outcome_of_ended`). Of a task that is spared
it can be said more: it settles when the driver that works on it comes to its end, with the outcome of that
(`WorksOn.finishing`, `WorksOn.outcome_of_finishing`).
-/

namespace EffectLoop

variable {Co Fu : Type}

theorem Attempt.eq_of_duty {a : Attempt} {duty : Duty} (h : a.duty? = some duty) :
    a.scheduler = duty.scheduler ∧ a.id = duty.id := by
  cases a <;> cases h <;> exact ⟨rfl, rfl⟩

/-- A duty that is left after some postings, and was not entered by them, was used up by none of them. -/
theorem Books.mem_duties_postAll {b : Books} {ps : List Posting} {d : Duty} (h : d ∈ (b.postAll ps).duties)
    (hold : d.key.val ≤ b.lastKey) :
    d ∈ b.duties ∧ ∀ a, .attempt a ∈ ps → a.duty?.map Duty.key ≠ some d.key := by
  induction ps generalizing b with
  | nil => exact ⟨h, fun a ha => by cases ha⟩
  | cons x ps ih =>
    cases x with
    | enter s name =>
      obtain ⟨hmem, hps⟩ := ih h (Nat.le_succ_of_le hold)
      refine ⟨?_, fun a ha => hps a (by simpa using ha)⟩
      rcases List.mem_append.mp hmem with hmem | hmem
      · exact hmem
      · cases List.mem_singleton.mp hmem
        exact absurd hold (Nat.not_succ_le_self _)
    | note s id state =>
      obtain ⟨hmem, hps⟩ := ih h hold
      exact ⟨hmem, fun a ha => hps a (by simpa using ha)⟩
    | attempt a =>
      obtain ⟨hmem, hps⟩ := ih h hold
      obtain ⟨hmem, hne⟩ := List.mem_filter.mp hmem
      refine ⟨hmem, fun a' ha' => ?_⟩
      rcases List.mem_cons.mp ha' with he | ha'
      · cases he
        simpa using hne
      · exact hps a' ha'

namespace EventLoop

variable (p : Program Co Fu) {first moves : List (Move Co Fu)} {d d' : Driver Co Fu}

/-! ## Who works on a task -/

/-- The driver works on the task. -/
def WorksOn (moves : List (Move Co Fu)) (key : DriverKey) (t : TaskHandle) : Prop :=
  ∃ first d, first <+: moves ∧ d ∈ (after p {} first).drivers ∧ d.key = key ∧ d.task = t

section

variable {p} {before : List (Move Co Fu)} {key : DriverKey} {t : TaskHandle}

theorem WorksOn.of_driver? (hle : before <+: moves) (hd : (after p {} before).driver? key = some d)
    (ht : d.task = t) : WorksOn p moves key t :=
  ⟨before, d, hle, mem_of_driver? hd, key_of_driver? hd, ht⟩

/-- A driver with the key works on the task all along the run. -/
theorem WorksOn.task_eq (h : WorksOn p moves key t) (hbefore : before <+: moves)
    (hd : d ∈ (after p {} before).drivers) (hk : d.key = key) : d.task = t := by
  obtain ⟨first, d₁, hfirst, hd₁, hk₁, rfl⟩ := h
  rcases List.prefix_or_prefix_of_prefix hfirst hbefore with ⟨rest, rfl⟩ | ⟨rest, rfl⟩
  · rw [after_append] at hd
    exact task_eq_of_key p (orderly_after p first) hd₁ hd (hk.trans hk₁.symm)
  · rw [after_append] at hd₁
    exact (task_eq_of_key p (orderly_after p before) hd hd₁ (hk₁.trans hk.symm)).symm

/-- Nobody else works on the task. -/
theorem WorksOn.key_eq (h : WorksOn p moves key t) (hbefore : before <+: moves)
    (hd : d ∈ (after p {} before).drivers) (hs : d.task.scheduler = t.scheduler) (hid : d.task.id = t.id) :
    d.key = key := by
  obtain ⟨first, d₁, hfirst, hd₁, rfl, rfl⟩ := h
  rcases List.prefix_or_prefix_of_prefix hfirst hbefore with ⟨rest, rfl⟩ | ⟨rest, rfl⟩
  · rw [after_append] at hd
    exact key_eq_of_task p (orderly_after p first) hd₁ hd hs hid
  · rw [after_append] at hd₁
    exact (key_eq_of_task p (orderly_after p before) hd hd₁ hs.symm hid.symm).symm

end

/-! ## What becomes of it -/

/-- A driver of which an attempt uses up the duty is gone after that. -/
theorem gone_of_attempt {before : List (Move Co Fu)} {m : Move Co Fu} (hle : before ++ [m] <+: moves)
    {a : Attempt} (ha : .attempt a ∈ (after p {} before).postings p m) {d₀ : Driver Co Fu}
    (hd₀ : d₀ ∈ (after p {} before).drivers) (hduty : a.duty? = some d₀.duty) :
    ∀ d ∈ (after p {} moves).drivers, d.key ≠ d₀.key := by
  intro d hd hk
  obtain ⟨rest, rfl⟩ := hle
  have ho := orderly_after p before
  have hold := (ho.proper d₀ hd₀).1
  have hlast : d.key.val ≤ (after p {} (before ++ [m])).lastKey := by
    rw [hk, after_append]
    exact hold.trans (lastKey_le_after p ho.proper [m])
  rw [after_append] at hd
  obtain ⟨d₁, hd₁, hk₁, _⟩ := exists_earlier p (orderly_after p _).proper rest hd hlast
  have hmem : d₁.duty ∈ ((after p {} before).books.postAll ((after p {} before).postings p m)).duties := by
    rw [← books_move, ← after_snoc]
    exact List.mem_map_of_mem hd₁
  have hkey : d₁.key = d₀.key := hk₁.trans hk
  refine (Books.mem_duties_postAll hmem ?_).2 a ha ?_
  · show d₁.key.val ≤ (after p {} before).lastKey
    rw [hkey]
    exact hold
  · rw [hduty]
    exact congrArg some hkey.symm

/-- The task was terminated in the run before it had an outcome. -/
def Terminated (moves : List (Move Co Fu)) (t : TaskHandle) : Prop :=
  ∃ before m, before ++ [m] <+: moves ∧ (after p {} before).outcome? t = none ∧
    .attempt (.terminate t.scheduler t.id) ∈ (after p {} before).postings p m

/-- Whoever attempts to decide the task of a driver that stays terminates it. -/
theorem terminate_of_attempt {before : List (Move Co Fu)} {m : Move Co Fu} (hle : before ++ [m] <+: moves)
    {a : Attempt} (ha : .attempt a ∈ (after p {} before).postings p m) (hd : d ∈ (after p {} moves).drivers)
    (hs : a.scheduler = d.task.scheduler) (hid : a.id = d.task.id) :
    a = .terminate d.task.scheduler d.task.id := by
  by_cases hduty : a.duty? = none
  · cases a with
    | terminate s id =>
      cases hs
      cases hid
      rfl
    | _ => cases hduty
  · exfalso
    obtain ⟨d₀, hd₀, hduty⟩ : ∃ d₀ ∈ (after p {} before).drivers, a.duty? = some d₀.duty := by
      rcases cases_of_attempt p ha hduty with ⟨_, _, d₀, _, _, hd₀, rfl⟩ | ⟨d₀, hd₀, rfl, _⟩
      · exact ⟨d₀, mem_of_driver? hd₀, rfl⟩
      · exact ⟨d₀, hd₀, rfl⟩
    have hkey : d.key = d₀.key := by
      obtain ⟨rest, rfl⟩ := (List.prefix_append before [m]).trans hle
      rw [after_append] at hd
      have ho := orderly_after p before
      obtain ⟨hs₀, hid₀⟩ := Attempt.eq_of_duty hduty
      exact key_eq_of_task p ho hd₀ hd (hs.symm.trans hs₀)
        (hid.symm.trans (hid₀.trans (ho.proper d₀ hd₀).2.guard))
    exact gone_of_attempt p hle ha hd₀ hduty d hd hkey

/-- **As long as a driver is there its task has no outcome**, unless it was terminated. -/
theorem outcome_of_driver (hd : d ∈ (after p {} moves).drivers) :
    (after p {} moves).outcome? d.task = none ∨
      (after p {} moves).outcome? d.task = some (.error (.terminated d.task.id)) ∧ Terminated p moves d.task := by
  cases ho : (after p {} moves).outcome? d.task with
  | none => exact .inl rfl
  | some o =>
    obtain ⟨before, m, a, hle, hnone, ha, hs, hid, rfl⟩ := attempt_of_settled p ho
    obtain rfl := terminate_of_attempt p hle ha hd hs hid
    exact .inr ⟨rfl, before, m, hle, hnone, ha⟩

/-- The end of a driver settles its task, if nobody has done so before. -/
theorem outcome_of_finish {pollers : List (Poller Co Fu)} {o : Outcome}
    (hfocus : (after p {} moves).focus = .active pollers d.key (.finish o))
    (hd : (after p {} moves).driver? d.key = some d) (hnone : (after p {} moves).outcome? d.task = none) :
    (after p {} (moves ++ [.step])).outcome? d.task = some o := by
  have ho := orderly_after p moves
  have hmem := mem_of_driver? hd
  have hguard := (ho.proper d hmem).2.guard
  have hallotted := ho.balanced.allotted d.duty (List.mem_map_of_mem hmem)
  rw [show d.duty.id = d.task.id from hguard] at hallotted
  have hactive := ((ho.balanced.sound d.task.scheduler).active_iff d.task.id hallotted).mpr hnone
  have hfirst := ho.balanced.sound.outcome_eq_firstAttempt hactive ((after p {} moves).postings p .step)
  rw [← books_move, ← after_snoc] at hfirst
  refine hfirst.trans ?_
  rw [postings_of_driver p hfocus hd]
  simp [doingPostings, firstAttempt, Posting.outcomeFor, Attempt.scheduler, Attempt.id, Attempt.result,
    Driver.duty, hguard]

/-- **Who comes to its end with an outcome settles its task with that**, unless the task was terminated. -/
theorem outcome_of_ended {key : DriverKey} {o : Outcome} (h : .ended o ∈ history p moves key)
    (hfirst : first <+: moves) (hd : d ∈ (after p {} first).drivers) (hk : d.key = key) :
    (after p {} moves).outcome? d.task = some o ∨
      (after p {} moves).outcome? d.task = some (.error (.terminated d.task.id)) ∧ Terminated p moves d.task := by
  subst hk
  obtain ⟨past, hpast⟩ := exists_of_ended p h
  obtain ⟨before, pollers, d', doing, hle, _, hk, hfocus, hd', hevent⟩ := exists_step_of_event p hpast rfl
  obtain rfl : doing = .finish o := by
    unfold Doing.event? at hevent
    split at hevent <;> simp_all
  have hmem := mem_of_driver? hd'
  have hworks : WorksOn p moves d.key d.task := ⟨first, d, hfirst, hd, rfl, rfl⟩
  have htask := hworks.task_eq ((List.prefix_append ..).trans hle) hmem hk
  rw [← htask]
  obtain ⟨rest, rfl⟩ := hle
  rcases outcome_of_driver p hmem with hnone | ⟨hsome, hterminated⟩
  · exact .inl (outcome_after p (outcome_of_finish p hfocus hd' hnone) rest)
  · refine .inr ⟨?_, ?_⟩
    · rw [List.append_assoc]
      exact outcome_after p hsome _
    · obtain ⟨early, m, hearly, hterminated⟩ := hterminated
      exact ⟨early, m, hearly.trans ((List.prefix_append ..).trans (List.prefix_append ..)), hterminated⟩

theorem exists_worksOn {key : DriverKey} {o : Outcome} (h : .ended o ∈ history p moves key) :
    ∃ t, WorksOn p moves key t := by
  obtain ⟨past, hpast⟩ := exists_of_ended p h
  obtain ⟨before, _, d, _, hle, _, hk, _, hd, _⟩ := exists_step_of_event p hpast rfl
  exact ⟨d.task, before, d, (List.prefix_append ..).trans hle, mem_of_driver? hd, hk, rfl⟩

/-! ## Tasks that are spared -/

section

variable {p} {before : List (Move Co Fu)} {key : DriverKey} {t : TaskHandle} {o : Outcome}

/-- **The outcome of a task that is spared is that of its driver.** -/
theorem WorksOn.finishing (h : WorksOn p moves key t) (hspared : Spared p moves t)
    (ho : (after p {} moves).outcome? t = some o) :
    ∃ before, before ++ [.step] <+: moves ∧ Finishing (after p {} before) key o := by
  obtain ⟨before, m, a, hle, hnone, ha, hs, hid, hresult⟩ := attempt_of_settled p ho
  obtain ⟨duty, o, rfl⟩ := hspared before m hle hnone a ha hs hid
  cases hresult
  obtain ⟨rfl, pollers, d, hfocus, hd, rfl⟩ := finishing_of_posting p ha
  have hmem := mem_of_driver? hd
  have hguard := ((orderly_after p before).proper d hmem).2.guard
  obtain rfl := h.key_eq ((List.prefix_append ..).trans hle) hmem hs (hguard.symm.trans hid)
  exact ⟨before, hle, pollers, d, hfocus, hd⟩

/-- While its driver is there, a task that is spared has no outcome. -/
theorem WorksOn.unsettled (h : WorksOn p moves key t) (hspared : Spared p moves t) (hbefore : before <+: moves)
    (hd : d ∈ (after p {} before).drivers) (hk : d.key = key) : (after p {} before).outcome? t = none := by
  obtain rfl := h.task_eq hbefore hd hk
  rcases outcome_of_driver p hd with hnone | ⟨_, early, m, hearly, hnone, ha⟩
  · exact hnone
  · obtain ⟨_, _, he⟩ := hspared early m (hearly.trans hbefore) hnone _ ha rfl rfl
    cases he

/-- **A driver at its end settles the task that it works on**, if that is spared. -/
theorem WorksOn.outcome_of_finishing (h : WorksOn p moves key t) (hspared : Spared p moves t)
    (hle : before ++ [.step] <+: moves) (hfinishing : Finishing (after p {} before) key o) :
    (after p {} moves).outcome? t = some o := by
  obtain ⟨pollers, d, hfocus, hd⟩ := hfinishing
  cases key_of_driver? hd
  have hbefore := (List.prefix_append before [.step]).trans hle
  have hmem := mem_of_driver? hd
  have hnone := h.unsettled hspared hbefore hmem rfl
  obtain rfl := h.task_eq hbefore hmem rfl
  obtain ⟨rest, rfl⟩ := hle
  exact outcome_after p (outcome_of_finish p hfocus hd hnone) rest

end

end EventLoop

end EffectLoop
