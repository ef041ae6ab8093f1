import EffectLoop.Proofs.History

/-!
# Drivers go by the protocol

What follows at once in the protocol follows at once in the loop: after a yield, an answer or the end
of a coroutine its driver is in focus (`urgent_after`), and the very next step is its next event. The
end of a driver settles its task unless that was settled before (`ended_of_happenings`).

`drivers_follow_protocol` puts this together with what is known of histories.
-/

namespace EffectLoop

variable {Co Fu : Type}

namespace EventLoop

section

variable (p : Program Co Fu) {l : EventLoop Co Fu} {pollers : List (Poller Co Fu)}
  {d : Driver Co Fu} {ph : Phase Co}

/-! ## What follows at once -/

/-- The driver `key` is in focus, and its next step is an event of its coroutine. -/
def Urgent (l : EventLoop Co Fu) (key : DriverKey) : Prop :=
  ∃ pollers d doing e, l.focus = .active pollers key doing ∧ l.driver? key = some d ∧
    doing.event? d = some e

/-- What is nested below some drivers is younger than one of them. -/
theorem lt_of_mem_nestedBelow {ds : List (Driver Co Fu)} (hds : ∀ x ∈ ds, x.Proper)
    {keys : List DriverKey} {x : Driver Co Fu} (hx : x ∈ nestedBelow keys ds) :
    ∃ k ∈ keys, k.val < x.key.val := by
  induction ds generalizing keys with
  | nil => cases hx
  | cons y ds ih =>
    have hds' : ∀ z ∈ ds, z.Proper := fun z hz => hds z (List.mem_cons_of_mem _ hz)
    unfold nestedBelow at hx
    split at hx
    · rename_i key howner
      have hlt := (hds y List.mem_cons_self).owner key howner
      split at hx
      · rename_i hkey
        rcases List.mem_cons.mp hx with rfl | hx
        · exact ⟨key, hkey, hlt⟩
        · obtain ⟨k, hk, hkx⟩ := ih hds' hx
          rcases List.mem_cons.mp hk with rfl | hk
          · exact ⟨key, hkey, Nat.lt_trans hlt hkx⟩
          · exact ⟨k, hk, hkx⟩
      · exact ih hds' hx
    · exact ih hds' hx

/-- The drivers nested in a driver go away without it. -/
theorem mem_dropNested (ho : Orderly l) (hd : d ∈ l.drivers) :
    d ∈ (l.dropNested d.key).drivers := by
  refine mem_foldl_abandon.mpr ⟨hd, fun y hy he => ?_⟩
  obtain ⟨k, hk, hlt⟩ := lt_of_mem_nestedBelow (fun x hx => (ho.proper x hx).2)
    (List.mem_reverse.mp hy)
  rw [List.mem_singleton.mp hk, he] at hlt
  exact Nat.lt_irrefl _ hlt

theorem mem_setJob (hd : d ∈ l.drivers) (job : Job Co) :
    { d with job } ∈ (l.setJob d.key job).drivers := by
  refine List.mem_map.mpr ⟨d, hd, ?_⟩
  exact if_pos rfl

theorem urgent_of_focus (ho : Orderly l) (hd : d ∈ l.drivers) {key : DriverKey} (hk : d.key = key)
    {doing : Doing Co Fu} (hfocus : l.focus = .active pollers key doing) {e : TaskEvent Co}
    (he : doing.event? d = some e) : Urgent l key :=
  ⟨pollers, d, doing, e, hfocus, hk ▸ driver?_of_mem ho hd, he⟩

/-- What is yielded comes straight back, goes to its processor or ends the driver. -/
theorem urgent_stepYield (hd : d ∈ l.drivers) {passes : Nat} {kind : EffectKind} {co : Co}
    {y : Yielded} (ho : Orderly (l.stepYield p pollers d passes kind co y)) :
    Urgent (l.stepYield p pollers d passes kind co y) d.key := by
  unfold stepYield at ho ⊢
  cases y with
  | pass o =>
    have hd' := mem_setJob hd (.coroutine co (passes + 1) kind)
    dsimp only at ho ⊢
    cases hlimit : (p.scheduler d.task.scheduler).config.passThroughLimit with
    | none =>
      rw [hlimit] at ho
      exact urgent_of_focus ho hd' rfl rfl rfl
    | some limit =>
      rw [hlimit] at ho
      dsimp only at ho ⊢
      by_cases hlt : limit < passes + 1
      · rw [if_pos hlt] at ho ⊢
        exact urgent_of_focus ho hd' rfl rfl rfl
      · rw [if_neg hlt] at ho ⊢
        exact urgent_of_focus ho hd' rfl rfl rfl
  | effect e =>
    have hd' := mem_setJob hd (.coroutine co 0 e.kind)
    dsimp only at ho ⊢
    cases hget : (p.scheduler d.task.scheduler).processors.get? e.kind with
    | none =>
      rw [hget] at ho
      exact urgent_of_focus ho hd' rfl rfl rfl
    | some ref =>
      rw [hget] at ho
      exact urgent_of_focus ho hd' rfl rfl rfl

/-- After a yield, an answer or the end of the coroutine the driver has the next step, and it is an
event again. -/
theorem urgent_stepDriver (ho : Orderly l) {doing : Doing Co Fu}
    (hfocus : l.focus = .active pollers d.key doing) (hd : d ∈ l.drivers)
    {e : TaskEvent Co} (he : doing.event? d = some e) (hu : e.urgent = true) :
    Urgent (l.stepDriver p pollers d doing) d.key := by
  have ho' : Orderly (l.stepDriver p pollers d doing) :=
    orderly_stepDriver p ho hfocus hd (not_leave_of_event he)
  unfold Doing.event? at he
  split at he
  · cases he
    cases hu
  · rename_i co passes kind y co' hjob
    have hstep : l.stepDriver p pollers d (.advance (.ret (.yield y co'))) =
        l.stepYield p pollers d passes kind co' y := by
      unfold stepDriver
      rw [hjob]
    rw [hstep] at ho' ⊢
    exact urgent_stepYield p hd ho'
  · rename_i co passes kind o co' hjob
    have hevent : (Doing.finish o).event? d = some (.ended o) := by
      unfold Doing.event?
      rw [hjob]
    exact urgent_of_focus ho' (mem_dropNested ho hd) rfl rfl hevent
  · cases he
    cases hu
  · rename_i co passes kind r hjob
    have hevent : (Doing.resume r).event? d = some (.resumed co r) := by
      unfold Doing.event?
      rw [hjob]
    have hstep : l.stepDriver p pollers d (.answer r ⟨[], []⟩) =
        l.stepAnswer p pollers d r ⟨[], []⟩ := rfl
    rw [hstep] at ho' ⊢
    unfold stepAnswer at ho' ⊢
    rw [hjob] at ho' ⊢
    cases r with
    | ok o => exact urgent_of_focus ho' hd rfl rfl hevent
    | error err => exact urgent_of_focus ho' hd rfl rfl hevent
  · cases he
    cases hu
  · cases he

theorem acting_of_urgent {key : DriverKey} (h : Urgent l key) :
    ∃ e, l.acting .step = [(key, e)] ∧ eventsOf key (l.acting .step) = [e] := by
  obtain ⟨pollers, d, doing, e, hfocus, hd, he⟩ := h
  cases key_of_driver? hd
  rw [acting_of_driver hfocus hd, eventsOf_toList, he, if_pos rfl]
  exact ⟨e, rfl, rfl⟩

/-- The last thing in the history of a driver, if it is urgent, has left the driver in focus. -/
theorem urgent_after (moves : List (Move Co Fu)) {key : DriverKey} {told : List (TaskEvent Co)}
    {e : TaskEvent Co} (h : history p moves key = told ++ [e]) (hu : e.urgent = true) :
    Urgent (after p {} moves) key := by
  induction moves using List.reverseRecOn generalizing told with
  | nil => simp [history, trace, eventsOf] at h
  | append_singleton moves m ih =>
    have ho := orderly_after p moves
    rw [history_snoc, happenings, eventsOf_append] at h
    rw [after_snoc]
    generalize after p {} moves = l at *
    -- a newcomer is not urgent, so the last thing was done by the driver in focus
    have hnew : eventsOf key (newcomers l (l.move p m)) = [] := by
      rcases List.eq_nil_or_concat (eventsOf key (newcomers l (l.move p m))) with hn | ⟨xs, x, hx⟩
      · exact hn
      · have hlast : x = e := by
          have := congrArg List.getLast? h
          simpa [hx] using this
        have hmem : x ∈ eventsOf key (newcomers l (l.move p m)) := by
          rw [hx]
          simp
        have := not_urgent_of_newcomer hmem
        rw [hlast, hu] at this
        cases this
    rw [hnew, List.append_nil] at h
    rcases eventsOf_acting l m key with
      hnone | ⟨pollers, d, doing, e', rfl, hfocus, hd, rfl, he', hact⟩
    · rw [hnone, List.append_nil] at h
      have hurgent := ih h
      have hm : m ≠ .step := by
        rintro rfl
        obtain ⟨e', _, he'⟩ := acting_of_urgent hurgent
        rw [hnone] at he'
        cases he'
      obtain ⟨pollers, d, doing, e', hfocus, _⟩ := id hurgent
      rw [move_of_active p hfocus hm]
      exact hurgent
    · rw [hact] at h
      have hlast : e' = e := by
        have := congrArg List.getLast? h
        simpa using this
      rw [move_step_of_event p hfocus hd he']
      exact urgent_stepDriver p ho hfocus (mem_of_driver? hd) he' (hlast ▸ hu)

theorem newcomers_eq_nil {l' : EventLoop Co Fu} (hp : Proper l') (h : l'.lastKey = l.lastKey) :
    newcomers l l' = [] := by
  have hnobody : l'.drivers.filter (fun d => l.lastKey < d.key.val) = [] := by
    refine List.filter_eq_nil_iff.mpr fun x hx hlt => ?_
    have hle := (hp x hx).1
    have hlt := of_decide_eq_true hlt
    omega
  rw [newcomers, hnobody]
  rfl

/-- Nobody becomes a task in a step that is an event of a coroutine. -/
theorem newcomers_of_event (ho : Orderly l) {doing : Doing Co Fu}
    (hfocus : l.focus = .active pollers d.key doing) (hd : l.driver? d.key = some d)
    {e : TaskEvent Co} (he : doing.event? d = some e) :
    newcomers l (l.move p .step) = [] := by
  have hstep := orderly_move p ho .step
  have hpost := books_move p l .step
  rw [postings_of_driver p hfocus hd] at hpost
  have hnone : ∀ x ∈ l.doingPostings p d doing, ∀ s name, x ≠ .enter s name := by
    have habandon : ∀ ds : List (Driver Co Fu), ∀ x ∈ abandonments ds, ∀ s name,
        x ≠ .enter s name := by
      intro ds x hx s name
      obtain ⟨a, _, rfl⟩ := List.mem_map.mp hx
      exact nofun
    unfold Doing.event? at he
    split at he
    · rename_i hjob
      simp only [doingPostings, hjob, List.mem_singleton]
      rintro x rfl s name
      exact nofun
    · rename_i y co' hjob
      cases y with
      | pass o => exact fun x hx => nomatch hx
      | effect e =>
        simp only [doingPostings, hjob]
        split
        · simp only [List.mem_singleton]
          rintro x rfl s name
          exact nofun
        · exact fun x hx => nomatch hx
    · exact habandon _
    · exact fun x hx => nomatch hx
    · exact fun x hx => nomatch hx
    · intro x hx s name
      rcases List.mem_cons.mp hx with rfl | hx
      · exact nofun
      · exact habandon _ x hx s name
    · cases he
  have hlast : (l.move p .step).lastKey = l.lastKey := by
    have := congrArg Books.lastKey hpost
    rwa [Books.lastKey_postAll _ hnone] at this
  exact newcomers_eq_nil hstep.proper hlast

theorem happenings_of_urgent (ho : Orderly l) {key : DriverKey} (h : Urgent l key) :
    ∃ e, happenings p l .step = [(key, e)] ∧
      ∀ m, m ≠ .step → l.move p m = l ∧ happenings p l m = [] := by
  obtain ⟨e, hacting, _⟩ := acting_of_urgent h
  obtain ⟨pollers, d, doing, e', hfocus, hd, he⟩ := h
  cases key_of_driver? hd
  refine ⟨e, ?_, fun m hm => ?_⟩
  · rw [happenings, hacting, newcomers_of_event p ho hfocus hd he]
    rfl
  · have hmove := move_of_active p hfocus hm
    refine ⟨hmove, ?_⟩
    rw [happenings, hmove, acting_of_ne_step hm, newcomers_eq_nil ho.proper rfl]
    rfl

/-- The end of a driver attempts to settle its task with the outcome, and takes the driver away. -/
theorem ended_of_happenings (ho : Orderly l) {m : Move Co Fu} {key : DriverKey} {o : Outcome}
    (h : (key, .ended o) ∈ happenings p l m) :
    ∃ d ∈ l.drivers, d.key = key ∧
      (l.postings p m).head? = some (.attempt (.outcome d.duty o)) ∧
      (l.outcome? d.task = none → (l.move p m).outcome? d.task = some o) ∧
      ∀ x ∈ (l.move p m).drivers, x.key ≠ key := by
  have hacting : (key, TaskEvent.ended o) ∈ l.acting m := by
    rcases List.mem_append.mp h with h | h
    · exact h
    · obtain ⟨d, _, he⟩ := List.mem_filterMap.mp h
      obtain ⟨e, he, hk⟩ := Option.map_eq_some_iff.mp he
      unfold Driver.entry? at he
      cases hjob : d.job <;> rw [hjob] at he <;> cases he
      cases hk
  have hevent : TaskEvent.ended o ∈ eventsOf key (l.acting m) :=
    List.mem_filterMap.mpr ⟨_, hacting, if_pos rfl⟩
  rcases eventsOf_acting l m key with hnone | ⟨pollers, d, doing, e, rfl, hfocus, hd, rfl, he, hact⟩
  · rw [hnone] at hevent
    cases hevent
  · rw [hact, List.mem_singleton] at hevent
    subst hevent
    have hfinish : doing = .finish o := by
      unfold Doing.event? at he
      split at he <;> cases he
      rfl
    have hstep := move_step_of_event p hfocus hd he
    subst hfinish
    have hmem := mem_of_driver? hd
    have hpost := postings_of_driver p hfocus hd
    refine ⟨d, hmem, rfl, by rw [hpost]; rfl, fun hnone => ?_, fun x hx => ?_⟩
    · have hguard := (ho.proper d hmem).2.guard
      have hallotted := ho.balanced.allotted d.duty (List.mem_map_of_mem hmem)
      have hcontains : (l.books.tasks d.task.scheduler).contains d.task.id = true :=
        ((ho.balanced.sound d.task.scheduler).active_iff _ (hguard ▸ hallotted)).mpr hnone
      have hfirst := ho.balanced.sound.outcome_eq_firstAttempt hcontains (l.postings p .step)
      rw [← books_move, hpost] at hfirst
      have hdecides : Posting.outcomeFor d.task.scheduler d.task.id
          (.attempt (.outcome d.duty o)) = some o := if_pos ⟨rfl, hguard⟩
      refine hfirst.trans ?_
      show List.findSome? _ (_ :: _) = _
      rw [List.findSome?_cons, hdecides]
    · rw [hstep] at hx
      exact key_ne_of_mem_conclude hx

/-- What follows at once is what the protocol has next. -/
theorem next_of_urgent (ho : Orderly l) (hu : Urgent l d.key) (hd : d ∈ l.drivers)
    (h : Stands l d ph) :
    ∃ e ph', Phase.Next (p.scheduler d.task.scheduler) ph e ph' ∧
      happenings p l .step = [(d.key, e)] ∧
      ∀ m, m ≠ .step → l.move p m = l ∧ happenings p l m = [] := by
  obtain ⟨e, hstep, hother⟩ := happenings_of_urgent p ho hu
  obtain ⟨e', hacting, hevents⟩ := acting_of_urgent hu
  obtain ⟨event, hevent, ph', hfollows, _⟩ := carries_move p ho .step hd h
  rw [hevents] at hevent
  cases hfollows with
  | still => cases hevent
  | next hn =>
    cases hevent
    have he : e = e' := by
      rw [happenings, hacting] at hstep
      exact (Prod.mk.inj (List.cons.inj hstep).1).2.symm
    exact ⟨e', ph', hn, he ▸ hstep, hother⟩

end

end EventLoop

end EffectLoop
