import EffectLoop.Proofs.Standing

/-!
# What happens to a coroutine in a run

`history` reads off a run what happens to the coroutine of one driver, whatever else goes on in
between. Every move takes a driver from where it stands along the protocol (`carries_move`), so the
history of every driver in every run is one that the protocol allows (`told_after`).
-/

namespace EffectLoop

variable {Co Fu : Type}

/-- The event of a driver whose coroutine has become a task. -/
def Driver.entry? (d : Driver Co Fu) : Option (TaskEvent Co) :=
  match d.job with
  | .coroutine co _ _ => some (.entered d.task.scheduler co)
  | .plain => none

/-- The events of one driver. -/
def eventsOf (key : DriverKey) (events : List (DriverKey × TaskEvent Co)) : List (TaskEvent Co) :=
  events.filterMap fun x => if x.1 = key then some x.2 else none

theorem eventsOf_append (key : DriverKey) (first rest : List (DriverKey × TaskEvent Co)) :
    eventsOf key (first ++ rest) = eventsOf key first ++ eventsOf key rest := List.filterMap_append

namespace EventLoop

/-! ## Histories -/

/-- What the driver in focus does in a move, as an event. -/
def acting (l : EventLoop Co Fu) : Move Co Fu → List (DriverKey × TaskEvent Co)
  | .step =>
    match l.focus with
    | .idle => []
    | .active _ key doing =>
      match l.driver? key with
      | some d => ((doing.event? d).map fun e => (key, e)).toList
      | none => []
  | _ => []

/-- The coroutines that become tasks between two states. -/
def newcomers (l l' : EventLoop Co Fu) : List (DriverKey × TaskEvent Co) :=
  (l'.drivers.filter fun d => l.lastKey < d.key.val).filterMap fun d =>
    d.entry?.map fun e => (d.key, e)

/-- What happens to driven coroutines in a move. -/
def happenings (p : Program Co Fu) (l : EventLoop Co Fu) (m : Move Co Fu) :
    List (DriverKey × TaskEvent Co) := l.acting m ++ newcomers l (l.move p m)

/-- What happens to driven coroutines in a run. -/
def trace (p : Program Co Fu) :
    EventLoop Co Fu → List (Move Co Fu) → List (DriverKey × TaskEvent Co)
  | _, [] => []
  | l, m :: moves => l.happenings p m ++ trace p (l.move p m) moves

/-- What happens to the coroutine of one driver in a run from the beginning. -/
def history (p : Program Co Fu) (moves : List (Move Co Fu)) (key : DriverKey) :
    List (TaskEvent Co) := eventsOf key (trace p {} moves)

theorem trace_append (p : Program Co Fu) (l : EventLoop Co Fu) (first rest : List (Move Co Fu)) :
    trace p l (first ++ rest) = trace p l first ++ trace p (l.after p first) rest := by
  induction first generalizing l with
  | nil => rfl
  | cons m first ih => rw [List.cons_append, trace, ih, trace, List.append_assoc, after_cons]

theorem history_append (p : Program Co Fu) (first rest : List (Move Co Fu)) (key : DriverKey) :
    history p (first ++ rest) key =
      history p first key ++ eventsOf key (trace p (after p {} first) rest) := by
  unfold history
  rw [trace_append, eventsOf_append]

/-- A history only grows. -/
theorem history_prefix (p : Program Co Fu) {first moves : List (Move Co Fu)} (h : first <+: moves)
    (key : DriverKey) : history p first key <+: history p moves key := by
  obtain ⟨rest, rfl⟩ := h
  rw [history_append]
  exact List.prefix_append _ _

theorem history_snoc (p : Program Co Fu) (moves : List (Move Co Fu)) (m : Move Co Fu)
    (key : DriverKey) : history p (moves ++ [m]) key =
      history p moves key ++ eventsOf key (happenings p (after p {} moves) m) := by
  rw [history_append, trace, trace, List.append_nil]

section

variable (p : Program Co Fu) {l : EventLoop Co Fu} {pollers : List (Poller Co Fu)}
  {d : Driver Co Fu} {ph : Phase Co}

/-! ## What a move adds to a history -/

theorem acting_of_idle (h : l.focus = .idle) (m : Move Co Fu) : l.acting m = [] := by
  cases m with
  | step => simp only [acting, h]
  | _ => rfl

theorem acting_of_ne_step {m : Move Co Fu} (h : m ≠ .step) : l.acting m = [] := by
  cases m with
  | step => exact absurd rfl h
  | _ => rfl

theorem acting_of_driver {doing : Doing Co Fu} (hfocus : l.focus = .active pollers d.key doing)
    (hd : l.driver? d.key = some d) :
    l.acting .step = ((doing.event? d).map fun e => (d.key, e)).toList := by
  simp only [acting, hfocus, hd]

theorem acting_of_gone {key : DriverKey} {doing : Doing Co Fu}
    (hfocus : l.focus = .active pollers key doing)
    (h : (∃ outcome, doing = .leave outcome) ∨ l.driver? key = none) : l.acting .step = [] := by
  rcases h with ⟨outcome, rfl⟩ | h
  · cases hd : l.driver? key with
    | none => simp only [acting, hfocus, hd]
    | some d =>
      have he : (Doing.leave outcome : Doing Co Fu).event? d = none := by
        unfold Doing.event?
        cases d.job <;> rfl
      simp only [acting, hfocus, hd, he, Option.map_none, Option.toList_none]
  · simp only [acting, hfocus, h]

theorem eventsOf_toList (key : DriverKey) (event : Option (TaskEvent Co)) (k : DriverKey) :
    eventsOf key (event.map fun e => (k, e)).toList = if k = key then event.toList else [] := by
  cases event with
  | none => simp [eventsOf]
  | some e =>
    by_cases hk : k = key
    · simp [eventsOf, hk]
    · simp [eventsOf, hk]

/-- A move is no event of a driver, or it is the one event that the driver in focus is about to do. -/
theorem eventsOf_acting (l : EventLoop Co Fu) (m : Move Co Fu) (key : DriverKey) :
    eventsOf key (l.acting m) = [] ∨
    ∃ pollers d doing e, m = .step ∧ l.focus = .active pollers d.key doing ∧
      l.driver? d.key = some d ∧ d.key = key ∧ doing.event? d = some e ∧
      eventsOf key (l.acting m) = [e] := by
  by_cases hm : m = .step
  · subst hm
    cases hfocus : l.focus with
    | idle =>
      left
      rw [acting_of_idle hfocus]
      rfl
    | active pollers k doing =>
      cases hd : l.driver? k with
      | none =>
        left
        rw [acting_of_gone hfocus (.inr hd)]
        rfl
      | some d =>
        cases key_of_driver? hd
        rw [acting_of_driver hfocus hd, eventsOf_toList]
        by_cases hk : d.key = key
        · rw [if_pos hk]
          cases he : doing.event? d with
          | none => exact .inl rfl
          | some e => exact .inr ⟨pollers, d, doing, e, rfl, rfl, hd, hk, he, rfl⟩
        · rw [if_neg hk]
          exact .inl rfl
  · left
    rw [acting_of_ne_step hm]
    rfl

/-- The drivers `key` among the newcomers. -/
theorem eventsOf_newcomers (l l' : EventLoop Co Fu) (key : DriverKey) :
    eventsOf key (newcomers l l') = (l'.drivers.filter fun d => d.key = key).filterMap fun d =>
      if l.lastKey < key.val then d.entry? else none := by
  unfold eventsOf newcomers
  rw [List.filterMap_filterMap, List.filterMap_filter, List.filterMap_filter]
  apply List.filterMap_congr
  intro d _
  by_cases hk : d.key = key
  · subst hk
    by_cases hlt : l.lastKey < d.key.val
    · cases he : d.entry? <;> simp [hlt]
    · simp [hlt]
  · cases he : d.entry? <;> simp [hk]

theorem eventsOf_newcomers_old {l' : EventLoop Co Fu} {key : DriverKey}
    (h : key.val ≤ l.lastKey) : eventsOf key (newcomers l l') = [] := by
  rw [eventsOf_newcomers]
  exact List.filterMap_eq_nil_iff.mpr fun _ _ => if_neg (Nat.not_lt.mpr h)

/-- A step, unless the poll ends with it, is a step of the driver in focus. -/
theorem move_step_of_driver {doing : Doing Co Fu} (hfocus : l.focus = .active pollers d.key doing)
    (hd : l.driver? d.key = some d) (hleave : ∀ outcome, doing ≠ .leave outcome) :
    l.move p .step = l.stepDriver p pollers d doing := by
  rw [move_step]
  unfold step?
  rw [hfocus]
  split
  · rename_i hidle
    cases hidle
  · rename_i hactive
    cases hactive
    exact absurd rfl (hleave _)
  · rename_i hactive
    cases hactive
    rw [hd, Option.getD_some]

theorem move_step_of_leave {key : DriverKey} {outcome : Option Outcome}
    (hfocus : l.focus = .active pollers key (.leave outcome)) :
    l.move p .step = l.leave p key outcome pollers := by
  rw [move_step]
  simp only [step?, hfocus, Option.getD_some]

/-- A poll of a driver that is gone is over. -/
theorem move_step_of_gone {key : DriverKey} {doing : Doing Co Fu}
    (hfocus : l.focus = .active pollers key doing) (hleave : ∀ outcome, doing ≠ .leave outcome)
    (hd : l.driver? key = none) : l.move p .step = l.leave p key none pollers := by
  rw [move_step]
  unfold step?
  rw [hfocus]
  split
  · rename_i hidle
    cases hidle
  · rename_i hactive
    cases hactive
    exact absurd rfl (hleave _)
  · rename_i hactive
    cases hactive
    rw [hd, Option.getD_some]

/-- A step that is an event is a step of the driver in focus. -/
theorem move_step_of_event {doing : Doing Co Fu} (hfocus : l.focus = .active pollers d.key doing)
    (hd : l.driver? d.key = some d) {e : TaskEvent Co} (he : doing.event? d = some e) :
    l.move p .step = l.stepDriver p pollers d doing :=
  move_step_of_driver p hfocus hd (not_leave_of_event he)

theorem eventsOf_newcomers_of_mem {l' : EventLoop Co Fu} (ho : Orderly l') (hd : d ∈ l'.drivers)
    (h : l.lastKey < d.key.val) : eventsOf d.key (newcomers l l') = d.entry?.toList := by
  rw [eventsOf_newcomers, filter_eq_singleton ho.nodup_keys hd]
  cases he : d.entry? with
  | none => simp [he]
  | some e => simp [h, he]

theorem eventsOf_newcomers_of_forall_ne {l' : EventLoop Co Fu} {key : DriverKey}
    (h : ∀ d ∈ l'.drivers, d.key ≠ key) : eventsOf key (newcomers l l') = [] := by
  have hnone : l'.drivers.filter (fun d => d.key = key) = [] :=
    List.filter_eq_nil_iff.mpr fun d hd hk => h d hd (of_decide_eq_true hk)
  rw [eventsOf_newcomers, hnone]
  rfl

/-- A driver after a move, if it was there before. -/
theorem exists_before (ho : Orderly l) (m : Move Co Fu) {d' : Driver Co Fu}
    (hd' : d' ∈ (l.move p m).drivers) (hold : d'.key.val ≤ l.lastKey) :
    ∃ d ∈ l.drivers, d'.key = d.key ∧ d'.task = d.task ∧ (d.job = .plain → d'.job = .plain) := by
  have hturn := turn_move p m (l := l)
  generalize l.move p m = l' at hturn hd'
  have hspares : Spares l l' → d' ∈ l.drivers := fun hl => by
    rcases hl.old_or_new d' hd' with h | ⟨⟨hlt, _⟩, _⟩
    · exact h
    · omega
  cases hturn with
  | outside h m => exact ⟨d', hspares (spares_outside ..), rfl, rfl, id⟩
  | refused _ _ => exact ⟨d', hd', rfl, rfl, id⟩
  | leave _ _ outcome => exact ⟨d', hspares (spares_leave ..), rfl, rfl, id⟩
  | driver h hd hleave =>
    rename_i pollers d doing
    have hmem := mem_of_driver? hd
    have hb := (ho.proper d hmem).1
    have hstep := driverStep_stepDriver p l pollers d hb hleave
    rcases (hstep.touches p hb).old_or_new d' hd' with h | ⟨hk, d₀, hd₀, he⟩ | ⟨⟨hlt, _⟩, _⟩
    · exact ⟨d', h, rfl, rfl, id⟩
    · have hk₀ : d₀.key = d.key := by rw [← hk, he]
      cases ho.eq_of_key hd₀ hmem hk₀
      refine ⟨d, hmem, hk, by rw [he], fun hjob => ?_⟩
      exact hstep.job_plain p (fun x hx => ho.eq_of_key hx hmem) hb hjob hd' hk
    · omega

/-- **A move takes every driver along the protocol**, with what happens to it in the move. -/
theorem carries_move (ho : Orderly l) (m : Move Co Fu) (hd : d ∈ l.drivers) (h : Stands l d ph) :
    ∃ event, eventsOf d.key (l.acting m) = event.toList ∧ Carries p d ph event (l.move p m) := by
  have hturn := turn_move p m (l := l)
  have hb := (ho.proper d hd).1
  have hu : ∀ x ∈ l.drivers, x.key = d.key → x = d := fun x hx => ho.eq_of_key hx hd
  generalize l.move p m = l' at hturn ⊢
  cases hturn with
  | outside hidle m =>
    refine ⟨none, by rw [acting_of_idle hidle]; rfl, ph, .still, fun d' hd' hk => ?_⟩
    cases (spares_outside p l m).eq_of_key hu hb hd' hk
    have haway : (l.outside p m).place d.key = .away := by
      rcases outside_focus p hidle m with hf | ⟨ps, k, hf, hps⟩
      · exact place_of_idle hf d.key
      · rw [place_of_not_works hf rfl]
        exact placeIn_of_not_mem (by rw [hps]; exact List.not_mem_nil)
    exact stands_of_away (place_of_idle hidle d.key) haway h
  | refused _ hm =>
    refine ⟨none, by rw [acting_of_ne_step hm]; rfl, ph, .still, fun d' hd' hk => ?_⟩
    cases hu d' hd' hk
    exact h
  | leave hfocus hgone outcome =>
    refine ⟨none, by rw [acting_of_gone hfocus hgone]; rfl, ph, .still, fun d' hd' hk => ?_⟩
    cases (spares_leave p l _ _ outcome).eq_of_key hu hb hd' hk
    exact stands_leave p ho hfocus (gone_of_leave hgone) hd outcome h
  | driver hfocus hf hleave =>
    rename_i pollers f doing
    have hmem := mem_of_driver? hf
    have hstep := driverStep_stepDriver p l pollers f (ho.proper f hmem).1 hleave
    rw [acting_of_driver hfocus hf, eventsOf_toList]
    by_cases hk : f.key = d.key
    · cases ho.eq_of_key hmem hd hk
      exact ⟨_, if_pos rfl, carries_step p ho hfocus hd hleave h⟩
    · refine ⟨none, if_neg hk, ph, .still, fun d' hd' hk' => ?_⟩
      have hold := (hstep.touches p (ho.proper f hmem).1).mem_of_ne hd'
        (fun he => hk (he.symm.trans hk')) (hk' ▸ hb)
      cases hu d' hold hk'
      exact stands_elsewhere ho hfocus hd (Ne.symm hk) (hstep.nextFocus p) h

/-- A coroutine that becomes a task is to be resumed with null. -/
theorem stands_new (ho : Orderly l) (m : Move Co Fu) {d' : Driver Co Fu}
    (hd' : d' ∈ (l.move p m).drivers) (hnew : l.lastKey < d'.key.val) {co : Co} {passes : Nat}
    {kind : EffectKind} (hjob : d'.job = .coroutine co passes kind) :
    Stands (l.move p m) d' (.owed co (.ok (.value .null)) 0) := by
  have haway : (l.move p m).place d'.key = .away := by
    refine place_eq_away fun hheld => ?_
    have := held_move_le p ho m d'.key hheld
    omega
  have hunbegun : d'.Unbegun := by
    obtain ⟨key, hkey, htouches⟩ := touches_move p ho.proper m
    rcases htouches.old_or_new d' hd' with hold | ⟨hk, _⟩ | ⟨_, hn⟩
    · have := (ho.proper d' hold).1
      omega
    · rw [hk] at hnew
      omega
    · exact hn
  unfold Driver.Unbegun at hunbegun
  rw [hjob] at hunbegun
  obtain ⟨rfl, hfresh⟩ := hunbegun
  rw [stands_iff hjob, haway, hfresh]
  rfl

theorem not_urgent_of_newcomer {l' : EventLoop Co Fu} {key : DriverKey} {e : TaskEvent Co}
    (h : e ∈ eventsOf key (newcomers l l')) : e.urgent = false := by
  rw [eventsOf_newcomers] at h
  obtain ⟨d, _, he⟩ := List.mem_filterMap.mp h
  obtain ⟨_, he⟩ := Option.ite_none_right_eq_some.mp he
  unfold Driver.entry? at he
  cases hjob : d.job with
  | coroutine co passes kind =>
    rw [hjob] at he
    cases he
    rfl
  | plain =>
    rw [hjob] at he
    cases he

/-! ## The history of a driver -/

/-- What has happened to the coroutine of the driver `key`: nothing, if it has none, or what the
protocol allows since it became a task, and the driver stands where that leads if it is still there. -/
def Told (l : EventLoop Co Fu) (key : DriverKey) (told : List (TaskEvent Co)) : Prop :=
  (told = [] ∧ ∀ d ∈ l.drivers, d.key = key → d.job = .plain) ∨
  ∃ s co h ph, told = .entered s co :: h ∧ key.val ≤ l.lastKey ∧
    Protocol (p.scheduler s) co h ph ∧
    ∀ d ∈ l.drivers, d.key = key → d.task.scheduler = s ∧ Stands l d ph

theorem eventsOf_acting_of_plain {key : DriverKey}
    (h : ∀ d ∈ l.drivers, d.key = key → d.job = .plain) (m : Move Co Fu) :
    eventsOf key (l.acting m) = [] := by
  rcases eventsOf_acting l m key with hnone | ⟨_, d, doing, e, _, _, hd, hk, he, _⟩
  · exact hnone
  · unfold Doing.event? at he
    rw [h d (mem_of_driver? hd) hk] at he
    cases he

theorem told_new (ho : Orderly l) {key : DriverKey} (hnew : l.lastKey < key.val)
    (m : Move Co Fu) : Told p (l.move p m) key (eventsOf key (newcomers l (l.move p m))) := by
  have ho' := orderly_move p ho m
  by_cases hex : ∃ d ∈ (l.move p m).drivers, d.key = key
  · obtain ⟨d, hd, rfl⟩ := hex
    rw [eventsOf_newcomers_of_mem ho' hd hnew]
    have hone : ∀ d' ∈ (l.move p m).drivers, d'.key = d.key → d' = d := fun d' hd' =>
      ho'.eq_of_key hd' hd
    cases hjob : d.job with
    | plain =>
      refine .inl ⟨by simp [Driver.entry?, hjob], fun d' hd' hk => ?_⟩
      rw [hone d' hd' hk, hjob]
    | coroutine co passes kind =>
      refine .inr ⟨d.task.scheduler, co, [], _, by simp [Driver.entry?, hjob],
        (ho'.proper d hd).1, .start, fun d' hd' hk => ?_⟩
      rw [hone d' hd' hk]
      exact ⟨rfl, stands_new p ho m hd hnew hjob⟩
  · have hnone : ∀ d ∈ (l.move p m).drivers, d.key ≠ key := fun d hd hk => hex ⟨d, hd, hk⟩
    exact .inl ⟨eventsOf_newcomers_of_forall_ne hnone, fun d hd hk => absurd hk (hnone d hd)⟩

/-- **Every move takes the history of every driver along the protocol.** -/
theorem told_move (ho : Orderly l) {key : DriverKey} {told : List (TaskEvent Co)}
    (h : Told p l key told) (m : Move Co Fu) :
    Told p (l.move p m) key (told ++ eventsOf key (happenings p l m)) := by
  rw [happenings, eventsOf_append]
  rcases h with ⟨rfl, hplain⟩ | ⟨s, co, hist, ph, rfl, hle, hp, hstands⟩
  · rw [eventsOf_acting_of_plain hplain, List.nil_append, List.nil_append]
    by_cases hnew : l.lastKey < key.val
    · exact told_new p ho hnew m
    · have hle : key.val ≤ l.lastKey := Nat.not_lt.mp hnew
      refine .inl ⟨eventsOf_newcomers_old hle, fun d' hd' hk => ?_⟩
      obtain ⟨d, hd, hkd, _, hjob⟩ := exists_before p ho m hd' (hk ▸ hle)
      exact hjob (hplain d hd (hkd.symm.trans hk))
  · rw [eventsOf_newcomers_old hle, List.append_nil]
    have hle' : key.val ≤ (l.move p m).lastKey := by
      obtain ⟨k, _, ht⟩ := touches_move p ho.proper m
      exact Nat.le_trans hle ht.lastKey_le
    by_cases hex : ∃ d ∈ l.drivers, d.key = key
    · obtain ⟨d, hd, rfl⟩ := hex
      obtain ⟨rfl, hst⟩ := hstands d hd rfl
      obtain ⟨event, hevent, ph', hfollows, hnext⟩ := carries_move p ho m hd hst
      rw [hevent]
      have htask : ∀ d' ∈ (l.move p m).drivers, d'.key = d.key →
          d'.task.scheduler = d.task.scheduler ∧ Stands (l.move p m) d' ph' := by
        intro d' hd' hk
        obtain ⟨d₀, hd₀, hk₀, htask, _⟩ := exists_before p ho m hd' (hk ▸ hle)
        cases ho.eq_of_key hd₀ hd (hk₀.symm.trans hk)
        exact ⟨by rw [htask], hnext d' hd' hk⟩
      cases hfollows with
      | still => exact .inr ⟨_, co, hist, ph, by simp, hle', hp, htask⟩
      | next hn => exact .inr ⟨_, co, hist ++ [_], ph', by simp, hle', .next hp hn, htask⟩
    · have hnone : eventsOf key (l.acting m) = [] :=
        eventsOf_acting_of_plain (fun d hd hk => absurd ⟨d, hd, hk⟩ hex) m
      rw [hnone, List.append_nil]
      refine .inr ⟨s, co, hist, ph, rfl, hle', hp, fun d' hd' hk => ?_⟩
      obtain ⟨d, hd, hkd, _⟩ := exists_before p ho m hd' (hk ▸ hle)
      exact absurd ⟨d, hd, hkd.symm.trans hk⟩ hex

/-- **The history of every driver in every run is one the protocol allows.** -/
theorem told_after (moves : List (Move Co Fu)) (key : DriverKey) :
    Told p (after p {} moves) key (history p moves key) := by
  induction moves using List.reverseRecOn with
  | nil => exact .inl ⟨rfl, fun _ h => nomatch h⟩
  | append_singleton moves m ih =>
    rw [history_snoc, after_snoc]
    exact told_move p (orderly_after p moves) ih m

end

end EventLoop

end EffectLoop
