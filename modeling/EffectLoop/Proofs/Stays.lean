import EffectLoop.Proofs.Handles

/-!
# What holds of a driver between two events

Between two events of its coroutine a driver works, rests and polls others, and may be polled itself at
any time. `Stays` says of a property of its seat that all this keeps it, step by step, and `stays_after`
that it then holds until the next event.

A driver without a coroutine has no events at all, and so for the whole run stays away from where only a
driver of a coroutine comes to sit (`not_ofCoroutine_of_plain`).

Another use is the resume. A coroutine runs through any number of requests and polls before it
yields or ends: `StopsAt` is what it may come to, and `stops_of_resumed` that its history goes on with
nothing else.
-/

namespace EffectLoop

variable {Co Fu : Type}

/-- What a coroutine that has come so far within a resume may come to next: a yield, or its end. -/
inductive StopsAt (p : Program Co Fu) : Act Co Fu (Progress Co) → Progress Co → Prop
  | yields {a : Act Co Fu (Progress Co)} {y : Yielded} {co : Co} (h : a.Ends (.yield y co)) :
      StopsAt p a (.yield y co)
  | ends {a : Act Co Fu (Progress Co)} {o : Outcome} {co : Co} (h : a.Ends (.done o co)) :
      StopsAt p a (.done o co)
  | more {a : Act Co Fu (Progress Co)} {co : Co} {x : Progress Co} (h : a.Ends (.more co))
      (hx : StopsAt p (p.advance co) x) : StopsAt p a x
  | polls {a : Act Co Fu (Progress Co)} {key : DriverKey} {k : Option Outcome → Co} {x : Progress Co}
      (o : Option Outcome) (h : a.Ends (.poll key k)) (hx : StopsAt p (p.advance (k o)) x) :
      StopsAt p a x

/-- Only a driver of a coroutine comes to sit there. -/
def Seat.OfCoroutine : Seat Co Fu → Prop
  | .resting .fresh | .body _ _ => True
  | .working (.resume _) | .working (.advance _) | .working (.process _ _ ⟨[], []⟩) => True
  | _ => False

theorem Protocol.enters_eq_false {spec : SchedulerSpec} {co : Co} {h : List (TaskEvent Co)} {ph : Phase Co}
    (hp : Protocol spec co h ph) : ∀ e ∈ h, e.enters = false := by
  induction hp with
  | start => simp
  | next _ hn ih =>
    intro e he
    rcases List.mem_append.mp he with he | he
    · exact ih e he
    · cases List.mem_singleton.mp he
      cases hn <;> rfl

namespace EventLoop

section

variable (p : Program Co Fu)

/-- A coroutine becomes a task before anything else happens to it, and once. -/
theorem enters_of_history {p : Program Co Fu} {moves : List (Move Co Fu)} {key : DriverKey}
    {past rest : List (TaskEvent Co)} {e : TaskEvent Co} (h : history p moves key = past ++ e :: rest)
    (hpast : past ≠ []) : e.enters = false := by
  rcases told_after p moves key with ⟨hnil, _⟩ | ⟨s, co, told, ph, htold, _, hp, _⟩
  · rw [hnil] at h
    exact absurd h.symm (by simp)
  · rw [htold] at h
    cases past with
    | nil => exact absurd rfl hpast
    | cons first past =>
      obtain ⟨_, rfl⟩ := List.cons.inj h
      exact hp.enters_eq_false e (by simp)

/-- A property of the seat of the driver `key`, in view of the run so far, that is kept as long as `hist` is
all that has happened to its coroutine. -/
structure Stays (key : DriverKey) (hist : List (TaskEvent Co)) (Q : List (Move Co Fu) → Seat Co Fu → Prop) : Prop where
  /-- It does not matter what others do, -/
  later : ∀ moves m seat, Q moves seat → Q (moves ++ [m]) seat
  /-- and nothing comes of a driver that a panic has left. -/
  busy : ∀ moves, Q moves (.resting .busy)
  /-- The driver is polled where it rests, -/
  fresh : ∀ moves, Q moves (.resting .fresh) → Q moves (.working (.resume (.ok (.value .null))))
  pending : ∀ moves branch, Q moves (.resting (.pending branch)) → Q moves (.working (.visit branch []))
  /-- comes back from a driver that it has polled, -/
  back : ∀ moves m polled spot outcome pollers doing, Q moves (.polling polled spot) →
    (after p {} moves).focus = .active (.waiting key spot :: pollers) polled doing →
    (doing = .leave outcome ∨ outcome = none ∧ (after p {} moves).driver? polled = none) →
    Q (moves ++ [m]) (.working (Seat.back polled spot outcome))
  bodyBack : ∀ moves polled k outcome, Q moves (.body polled k) →
    Q moves (.working (.advance (p.advance (k outcome))))
  /-- or takes a step. -/
  stride : ∀ moves d pollers doing job seat, d.key = key → d ∈ (after p {} moves).drivers →
    history p moves key = hist →
    (after p {} moves).focus = .active pollers d.key doing → Q moves (.working doing) →
    doing.event? d = none → Stride p (after p {} moves) d doing job seat → Q (moves ++ [.step]) seat

variable {p} {key : DriverKey} {hist : List (TaskEvent Co)}
  {Q : List (Move Co Fu) → Seat Co Fu → Prop}

/-- A driver to whose coroutine something has happened drives a coroutine. -/
theorem job_of_history {moves : List (Move Co Fu)} {d : Driver Co Fu} (hd : d ∈ (after p {} moves).drivers)
    (h : history p moves d.key ≠ []) : d.job ≠ .plain := by
  rcases told_after p moves d.key with ⟨hnil, _⟩ | ⟨_, _, _, ph, _, _, _, hstands⟩
  · exact absurd hnil h
  · obtain ⟨co, passes, kind, hjob⟩ := exists_job_of_stands (hstands d hd rfl).2
    simp [hjob]

theorem plain_of_history {moves : List (Move Co Fu)} {d : Driver Co Fu} (hd : d ∈ (after p {} moves).drivers)
    (h : history p moves d.key = []) : d.job = .plain := by
  rcases told_after p moves d.key with ⟨-, hplain⟩ | ⟨_, _, _, _, htold, -⟩
  · exact hplain d hd rfl
  · rw [h] at htold
    cases htold

/-- The seat of a driver that is polled where it rests. -/
theorem Stays.begins (h : Stays p key hist Q) {moves : List (Move Co Fu)} {d d' : Driver Co Fu}
    {pollers : List (Poller Co Fu)} (hd : d ∈ (after p {} moves).drivers)
    (hfocus : (after p {} moves).focus = .active pollers d.key .poll)
    (hseat : (after p {} moves).seat d = .resting d.activity) (hq : Q moves (.resting d.activity))
    (hd' : d' ∈ ((after p {} moves).stepDriver p pollers d .poll).drivers) (hk : d'.key = d.key) :
    Q moves (((after p {} moves).stepDriver p pollers d .poll).seat d') := by
  cases hactivity : d.activity with
  | fresh =>
    rw [stepDriver_poll_fresh p pollers hactivity, seat_focusOn_of_works _ _ hk rfl]
    exact h.fresh moves (hactivity ▸ hq)
  | pending branch =>
    rw [stepDriver_poll_pending p pollers hactivity, seat_focusOn_of_works _ _ hk rfl]
    exact h.pending moves branch (hactivity ▸ hq)
  | busy =>
    rw [stepDriver_poll_busy p pollers hactivity] at hd' ⊢
    cases (orderly_after p moves).eq_of_key hd' hd hk
    rw [seat_of_not_works hfocus rfl] at hseat
    rw [seat_focusOn_of_not_works _ _ rfl, hseat]
    exact hq

/-- A move in which nothing happens to the coroutine of the driver keeps the property. -/
theorem Stays.move (h : Stays p key hist Q) {moves : List (Move Co Fu)} {m : Move Co Fu}
    {d d' : Driver Co Fu} (hd : d ∈ (after p {} moves).drivers) (hkey : d.key = key)
    (hhist : history p moves key = hist) (hsame : history p (moves ++ [m]) key = hist)
    (hq : Q moves ((after p {} moves).seat d))
    (hd' : d' ∈ ((after p {} moves).move p m).drivers) (hk : d'.key = d.key) :
    Q (moves ++ [m]) (((after p {} moves).move p m).seat d') := by
  have ho := orderly_after p moves
  cases seat_move p ho m hd hd' hk with
  | still he hseat _ =>
    subst he
    rw [hseat]
    exact h.later moves m _ hq
  | broken he hactivity hidle _ =>
    subst he
    rw [seat_of_idle hidle, hactivity]
    exact h.busy _
  | @back polled spot outcome pollers doing he hseat hfocus hleft hl =>
    subst he hkey
    rw [hl, seat_focusOn_of_works _ _ rfl (by cases outcome <;> rfl)]
    exact h.back moves m polled spot outcome pollers doing (hseat ▸ hq) hfocus hleft
  | @bodyBack polled k outcome pollers he hseat hl =>
    subst he
    rw [hl, seat_focusOn_of_works _ _ rfl rfl]
    exact h.later moves m _ (h.bodyBack moves polled k outcome (hseat ▸ hq))
  | begins hfocus hseat hl =>
    rw [hl] at hd' ⊢
    exact h.later moves m _ (h.begins hd hfocus hseat (hseat ▸ hq) hd' hk)
  | @acts pollers doing hfocus hw hl =>
    rw [seat_of_works hfocus hw] at hq
    by_cases hm : m = .step
    · subst hm
      have hevent : doing.event? d = none := by
        rw [← hhist, ← hkey, history_step p hfocus (driver?_of_mem ho hd)] at hsame
        exact Option.toList_eq_nil_iff.mp (List.append_right_eq_self.mp hsame)
      rw [hl] at hd' ⊢
      exact h.stride moves d pollers doing d'.job _ hkey hd hhist hfocus hq hevent
        (stride_stepDriver p ho hd hfocus hw hd' hk)
    · have hrefused := move_of_active p hfocus hm
      rw [hrefused] at hd' ⊢
      cases ho.eq_of_key hd' hd hk
      rw [seat_of_works hfocus hw]
      exact h.later moves m _ hq

/-- **What stays with a driver holds until the next event** of its coroutine. -/
theorem stays_after (h : Stays p key hist Q) {first moves : List (Move Co Fu)} (hle : first <+: moves)
    (hold : key.val ≤ (after p {} first).lastKey)
    (hfirst : history p first key = hist) (hsame : history p moves key = hist)
    (hbase : ∀ d ∈ (after p {} first).drivers, d.key = key → Q first ((after p {} first).seat d)) :
    ∀ d ∈ (after p {} moves).drivers, d.key = key → Q moves ((after p {} moves).seat d) := by
  obtain ⟨rest, rfl⟩ := hle
  induction rest using List.reverseRecOn with
  | nil => simpa using hbase
  | append_singleton rest m ih =>
    rw [← List.append_assoc] at hsame ⊢
    have hgrows := history_prefix p (List.prefix_append first rest) key
    have hnext := history_prefix p (List.prefix_append (first ++ rest) [m]) key
    rw [hfirst] at hgrows
    rw [hsame] at hnext
    have hhist : history p (first ++ rest) key = hist :=
      (hgrows.eq_of_length_le hnext.length_le).symm
    intro d' hd' hk
    rw [after_snoc] at hd' ⊢
    have hold' : d'.key.val ≤ (after p {} (first ++ rest)).lastKey := by
      rw [hk, after_append]
      exact hold.trans (lastKey_le_after p (orderly_after p first).proper rest)
    obtain ⟨d, hd, hdk, _⟩ := exists_before p (orderly_after p _) m hd' hold'
    have hkey := hdk.symm.trans hk
    exact h.move hd hkey hhist hsame (ih hhist d hd hkey) hd' hdk

/-- **What comes with an event stays until the next one.** -/
theorem stays_since {moves : List (Move Co Fu)} {past : List (TaskEvent Co)} {e : TaskEvent Co}
    (h : Stays p key (past ++ [e]) Q) (hhist : history p moves key = past ++ [e]) (he : e.enters = false)
    (hbase : ∀ first d pollers doing job seat, first ++ [.step] <+: moves → d.key = key →
      (after p {} first).focus = .active pollers d.key doing → doing.event? d = some e →
      Stride p (after p {} first) d doing job seat → Q (first ++ [.step]) seat) :
    ∀ d ∈ (after p {} moves).drivers, d.key = key → Q moves ((after p {} moves).seat d) := by
  obtain ⟨first, pollers, d, doing, hle, hpast, rfl, hfocus, hd, hevent⟩ := exists_step_of_event p hhist he
  have ho := orderly_after p first
  have hmem := mem_of_driver? hd
  have hnow : history p (first ++ [.step]) d.key = past ++ [e] := by
    rw [history_step p hfocus hd, hpast, hevent]
    rfl
  have hold : d.key.val ≤ (after p {} (first ++ [.step])).lastKey :=
    old_of_history p (by simp [hnow])
  refine stays_after h hle hold hnow hhist fun d' hd' hk => ?_
  rw [after_snoc, move_step_of_event p hfocus hd hevent] at hd' ⊢
  exact hbase first d pollers doing d'.job _ hle rfl hfocus hevent
    (stride_stepDriver p ho hmem hfocus (works_of_event hevent) hd' hk)

/-! ## Without a coroutine -/

theorem stays_off_coroutines (key : DriverKey) : Stays p key [] fun _ seat => ¬ seat.OfCoroutine where
  later := fun _ _ _ h => h
  busy := fun _ => not_false
  fresh := fun _ h => absurd trivial h
  pending := fun _ _ _ => not_false
  back := fun _ _ _ _ outcome _ _ _ _ _ => by cases outcome <;> exact not_false
  bodyBack := fun _ _ _ _ h => absurd trivial h
  stride := by
    intro moves d pollers doing job seat _ _ _ _ hoff hevent hs
    cases hs with
    | resumed | unresumed | more | body | advances | advancePanics | returns | passed | exceeds | routed
    | unknown | unyielded => exact absurd trivial hoff
    | processes b e spot =>
      show ¬ (Seat.working (builtinDoing p b e spot)).OfCoroutine
      unfold builtinDoing
      split <;> exact not_false
    | resolves hjob r => simp [Doing.event?, hjob] at hevent
    | _ => exact not_false

theorem not_ofCoroutine_of_arrival {x : Arrival Co Fu} (h : x.job = .plain) :
    ¬ (Seat.resting x.activity : Seat Co Fu).OfCoroutine := by
  obtain ⟨scheduler, name, work, nested⟩ := x
  cases work with
  | coroutine co => cases h
  | pending fu => exact not_false

/-- **A driver without a coroutine never does what is done for one.** -/
theorem not_ofCoroutine_of_plain (moves : List (Move Co Fu)) :
    ∀ d ∈ (after p {} moves).drivers, d.job = .plain → ¬ ((after p {} moves).seat d).OfCoroutine := by
  induction moves using List.reverseRecOn with
  | nil => exact nofun
  | append_singleton moves m ih =>
    intro d' hd' hplain
    have ho := orderly_after p moves
    have hsilent : history p (moves ++ [m]) d'.key = [] :=
      by_contra fun hne => job_of_history hd' hne hplain
    rw [after_snoc] at hd' ⊢
    by_cases hold : d'.key.val ≤ (after p {} moves).lastKey
    · obtain ⟨d, hd, hk, -, -⟩ := exists_before p ho m hd' hold
      have hbefore : history p moves d'.key = [] :=
        List.prefix_nil.mp (hsilent ▸ history_prefix p (List.prefix_append moves [m]) d'.key)
      have hoff := ih d hd (plain_of_history hd (hk ▸ hbefore))
      exact (stays_off_coroutines d'.key).move hd hk.symm hbefore hsilent hoff hd' hk
    · obtain ⟨current, x, -, rfl⟩ := arrival_move p ho.proper m hd' (Nat.lt_of_not_le hold)
      have haway : (x.driver p (after p {} moves) current).key ∉ ((after p {} moves).move p m).held :=
        fun hheld => hold (held_move_le p ho m _ hheld)
      rw [seat_of_not_held haway]
      exact not_ofCoroutine_of_arrival hplain

theorem job_of_ofCoroutine {moves : List (Move Co Fu)} {pollers : List (Poller Co Fu)} {d : Driver Co Fu}
    {doing : Doing Co Fu} (hfocus : (after p {} moves).focus = .active pollers d.key doing)
    (hd : d ∈ (after p {} moves).drivers) (hw : doing.works = true)
    (h : (Seat.working doing).OfCoroutine) : d.job ≠ .plain := fun hplain =>
  not_ofCoroutine_of_plain moves d hd hplain (seat_of_works hfocus hw ▸ h)

/-! ## Within a resume -/

theorem stopsAt_of_perform (l : EventLoop Co Fu) (current : Option DriverKey)
    {a : Act Co Fu (Progress Co)} {x : Progress Co} (h : StopsAt p (l.perform p current a).2 x) :
    StopsAt p a x := by
  cases h with
  | yields h => exact .yields (ends_of_perform p l current h)
  | ends h => exact .ends (ends_of_perform p l current h)
  | more h hx => exact .more (ends_of_perform p l current h) hx
  | polls o h hx => exact .polls o (ends_of_perform p l current h) hx

/-- The seats of a driver whose coroutine runs, and comes to nothing but what it might from `act`. -/
inductive Running (p : Program Co Fu) (act : Act Co Fu (Progress Co)) : Seat Co Fu → Prop
  | advances {a : Act Co Fu (Progress Co)} (h : ∀ x, StopsAt p a x → StopsAt p act x) :
      Running p act (.working (.advance a))
  | polls {key : DriverKey} {k : Option Outcome → Co}
      (h : ∀ o x, StopsAt p (p.advance (k o)) x → StopsAt p act x) : Running p act (.body key k)
  | crashes : Running p act (.working .crash)
  | busy : Running p act (.resting .busy)

theorem running_stride {l : EventLoop Co Fu} {d : Driver Co Fu} {act a : Act Co Fu (Progress Co)}
    {job : Job Co} {seat : Seat Co Fu} (h : ∀ x, StopsAt p a x → StopsAt p act x) (hjob : d.job ≠ .plain)
    (hevent : (Doing.advance a : Doing Co Fu).event? d = none) (hs : Stride p l d (.advance a) job seat) :
    Running p act seat := by
  cases hs with
  | more co => exact .advances fun x hx => h x (.more (.ret _) hx)
  | body key k => exact .polls fun o x hx => h x (.polls o (.ret _) hx)
  | advances ha => exact .advances fun x hx => h x (stopsAt_of_perform _ _ hx)
  | advancePanics => exact .crashes
  | returns o co =>
    cases hd : d.job with
    | plain => exact absurd hd hjob
    | coroutine _ _ _ => simp [Doing.event?, hd] at hevent
  | passed hd _ _ _ => simp [Doing.event?, hd] at hevent
  | exceeds hd _ _ _ _ => simp [Doing.event?, hd] at hevent
  | routed hd _ _ _ => simp [Doing.event?, hd] at hevent
  | unknown hd _ _ _ => simp [Doing.event?, hd] at hevent
  | unyielded hd _ _ => exact absurd hd hjob

theorem stays_running (hne : hist ≠ []) (act : Act Co Fu (Progress Co)) :
    Stays p key hist fun _ => Running p act where
  later := fun _ _ _ h => h
  busy := fun _ => .busy
  fresh := by
    intro moves h
    cases h
  pending := by
    intro moves branch h
    cases h
  back := by
    intro moves m polled spot outcome pollers doing h
    cases h
  bodyBack := by
    intro moves polled k outcome h
    cases h with
    | polls h => exact .advances (h outcome)
  stride := by
    intro moves d pollers doing job seat hk hd hhist _ h hevent hs
    have hjob : d.job ≠ .plain := job_of_history hd (by rwa [hk, hhist])
    cases h with
    | crashes => cases hs
    | advances h => exact running_stride h hjob hevent hs

theorem resume_of_resumed {d : Driver Co Fu} {doing : Doing Co Fu} {co : Co} {r : Resume}
    (h : doing.event? d = some (.resumed co r)) :
    doing = .resume r ∧ ∃ passes kind, d.job = .coroutine co passes kind := by
  unfold Doing.event? at h
  split at h <;> simp_all

/-- A coroutine that was resumed runs. -/
theorem running_after {moves : List (Move Co Fu)} {past : List (TaskEvent Co)} {co : Co} {r : Resume}
    (h : history p moves key = past ++ [.resumed co r]) :
    ∀ d ∈ (after p {} moves).drivers, d.key = key →
      Running p (p.advance (p.resume co r)) ((after p {} moves).seat d) := by
  refine stays_since (stays_running (by simp) _) h rfl ?_
  intro first d pollers doing job seat _ _ _ hevent hs
  obtain ⟨rfl, passes, kind, hjob⟩ := resume_of_resumed hevent
  cases hs with
  | resumed hjob' _ =>
    cases hjob.symm.trans hjob'
    exact .advances fun _ hx => hx
  | unresumed hjob' _ => cases hjob.symm.trans hjob'

theorem stop_of_event {d : Driver Co Fu} {a : Act Co Fu (Progress Co)} {e : TaskEvent Co}
    (h : (Doing.advance a : Doing Co Fu).event? d = some e) :
    (∃ y co, a = .ret (.yield y co) ∧ e = .yielded y co) ∨ ∃ o co, a = .ret (.done o co) ∧ e = .returned o := by
  unfold Doing.event? at h
  split at h <;> simp_all

/-- **A coroutine that was resumed yields or ends as its code may.** -/
theorem stops_of_resumed {moves : List (Move Co Fu)} {past rest : List (TaskEvent Co)} {co : Co}
    {r : Resume} {e : TaskEvent Co}
    (h : history p moves key = past ++ .resumed co r :: e :: rest) :
    (∃ y co', e = .yielded y co' ∧ StopsAt p (p.advance (p.resume co r)) (.yield y co')) ∨
      ∃ o co', e = .returned o ∧ StopsAt p (p.advance (p.resume co r)) (.done o co') := by
  rw [List.append_cons] at h
  have he : e.enters = false := enters_of_history h (by simp)
  obtain ⟨first, pollers, d, doing, hle, hpast, rfl, hfocus, hd, hevent⟩ := exists_step_of_event p h he
  have hrunning := running_after hpast d (mem_of_driver? hd) rfl
  rw [seat_of_works hfocus (works_of_event hevent)] at hrunning
  cases hrunning with
  | crashes => simp [Doing.event?] at hevent
  | advances hstops =>
    rcases stop_of_event hevent with ⟨y, co', rfl, rfl⟩ | ⟨o, co', rfl, rfl⟩
    · exact .inl ⟨y, co', rfl, hstops _ (.yields (.ret _))⟩
    · exact .inr ⟨o, co', rfl, hstops _ (.ends (.ret _))⟩

end

end EventLoop

end EffectLoop
