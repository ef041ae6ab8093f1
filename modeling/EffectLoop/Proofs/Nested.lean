import EffectLoop.Proofs.Forks

/-!
# Coroutines that are driven in place

User code can enter a coroutine as a task and drive it itself, as the program around the loop can, and a called
target that is a coroutine is entered so by its caller (`Nests`). Whoever has come to wait for such a driver
waits for it somewhere in its computation until the driver is left with an outcome (`Seat.Holds`,
`history_of_awaiting`). By then the driver is gone (`gone_of_left`), and the outcome is that of its task: the
one that the driver has come to its end with, or that of the termination, if the task was terminated meanwhile
(`Nests.own_of_left`). `RunsNested` puts together what can be relied on, and `CallsNested` what that means for
a caller.
-/

namespace EffectLoop

variable {Co Fu : Type}

/-- The seats of a driver that waits for the driver `n` somewhere in its computation, or has panicked. -/
inductive Seat.Holds (n : DriverKey) : Seat Co Fu → Prop
  | begins (spot : Spot Fu) : Holds n (.working (.await (.nested n) spot))
  | waits {doing : Doing Co Fu} (way : Way) (h : .nested n ∈ doing.waits way) : Holds n (.working doing)
  | polls (spot : Spot Fu) : Holds n (.polling n spot)
  | beside {key : DriverKey} {spot : Spot Fu} (way : Way) (h : .nested n ∈ waitsBeside way spot.forks) :
      Holds n (.polling key spot)
  | rests {branch : Branch Fu} (h : .nested n ∈ branch.waits) : Holds n (.resting (.pending branch))
  | crashes : Holds n (.working .crash)
  | busy : Holds n (.resting .busy)

namespace EventLoop

section

variable {p : Program Co Fu} {l : EventLoop Co Fu} {d : Driver Co Fu} {doing : Doing Co Fu} {job : Job Co}
  {seat : Seat Co Fu} {n key : DriverKey}

/-! ## Who waits for a nested driver -/

theorem waits_builtinDoing (way : Way) (b : Builtin) (e : Effect) (spot : Spot Fu) :
    (builtinDoing p b e spot).waits way = waitsBeside way spot.forks := by
  cases b <;> cases e <;> cases way <;> rfl

/-- From one place in user code or a processor to the next a driver keeps what it waits for beside that. -/
theorem holds_of_forks {doing' : Doing Co Fu} {way : Way} (h : .nested n ∈ doing.waits way)
    (hs : doing.shifts = false) (hs' : doing'.shifts = false) (hforks : doing'.forks = doing.forks) :
    Seat.Holds n (.working doing') := by
  refine .waits way ?_
  rwa [Doing.waits_of_not_shifts hs', hforks, ← Doing.waits_of_not_shifts hs]

/-- A driver that waits for a nested one still does so after its next step. -/
theorem holds_stride (h : Seat.Holds n (.working doing)) (hs : Stride p l d doing job seat) : seat.Holds n := by
  cases h with
  | begins spot =>
    cases hs with
    | awaitsNested _ _ => exact .polls spot
    | awaitsReady _ hpeek => cases hpeek
    | awaits _ _ => exact .waits .behind List.mem_cons_self
  | crashes => cases hs
  | waits way h =>
    cases hs with
    | workPanics _ | advancePanics | invokePanics _ _ _ | dispatchPanics _ => exact .crashes
    | unresumed _ _ | unyielded _ _ _ => cases way <;> cases h
    | body _ _ => cases way <;> cases h
    | visitsNested key frames forks =>
      cases way with
      | behind => exact .beside .behind h
      | ahead =>
        rcases List.mem_cons.mp h with he | h
        · cases he
          exact .polls _
        · exact .beside .ahead h
    | visitsTurn frames forks =>
      refine .waits way ?_
      cases way with
      | behind => exact h
      | ahead => exact (List.mem_cons.mp h).resolve_left nofun
    | visitsReady frames forks hpeek =>
      refine .waits way ?_
      cases way with
      | behind => exact h
      | ahead =>
        refine (List.mem_cons.mp h).resolve_left fun he => ?_
        subst he
        cases hpeek
    | visitsWaiting frames forks _ _ =>
      cases way with
      | behind => exact .waits .behind (List.mem_cons_of_mem _ h)
      | ahead =>
        rcases List.mem_cons.mp h with rfl | h
        · exact .waits .behind List.mem_cons_self
        · exact .waits .ahead h
    | rests branch =>
      cases way with
      | behind => exact .rests (by simpa [Doing.waits, Doing.waitsHere, Doing.forks, waitsBeside] using h)
      | ahead => cases h
    | awaitsNested key spot => exact .beside way (by cases way <;> exact h)
    | awaits spot _ =>
      cases way with
      | behind => exact .waits .behind (List.mem_cons_of_mem _ h)
      | ahead => exact .waits .ahead h
    | processes b e spot =>
      refine .waits way ?_
      rw [waits_builtinDoing]
      cases way <;> exact h
    | begun _ _ | visitsFinished _ _ | workForks _ _ _ _ | answersLeft _ _ _ _ _ | answersBoth _ _ _ _ _ =>
      exact .waits way (by cases way <;> exact h)
    | visitsBoth _ _ _ _ _ | pausesLeft _ _ _ _ _ | pausesRight _ _ _ _ _ | answersRight _ _ _ _ _ =>
      refine .waits way ?_
      cases way <;> simpa [Doing.waits, Doing.waitsHere, Doing.forks, waitsBeside, Fork.waits, Branch.waits,
        or_left_comm] using h
    | _ => exact holds_of_forks h rfl rfl rfl

/-- A driver that waits for a nested one has nothing to tell of its coroutine. -/
theorem event?_of_holds (h : Seat.Holds n (.working doing)) : doing.event? d = none := by
  unfold Doing.event?
  cases h with
  | begins _ => split <;> first | rfl | contradiction
  | crashes => split <;> first | rfl | contradiction
  | waits way h => split <;> first | rfl | (cases way <;> cases h)

/-- **Whoever waits for a nested driver does so until that is left.** -/
theorem stays_holding (n key : DriverKey) (hist : List (TaskEvent Co)) :
    Stays p key hist fun moves seat => (∃ o, Over p moves n o) ∨ seat.Holds n where
  later := fun _ _ _ h => h.imp_left (Exists.imp fun _ ho => ho.mono (List.prefix_append ..))
  busy := fun _ => .inr .busy
  fresh := fun _ h => h.imp_right fun h => nomatch h
  pending := by
    intro moves branch h
    refine h.imp_right fun h => ?_
    cases h with
    | rests h => exact .waits .ahead (List.mem_append_left _ h)
  back := by
    intro moves m polled spot outcome pollers doing h hfocus hleft
    rcases h with ⟨o, ho⟩ | h
    · exact .inl ⟨o, ho.mono (List.prefix_append ..)⟩
    cases outcome with
    | none =>
      right
      cases h with
      | polls _ => exact .waits .behind List.mem_cons_self
      | beside way h =>
        refine .waits way ?_
        cases way with
        | ahead => exact h
        | behind => exact List.mem_cons_of_mem _ h
    | some o =>
      obtain rfl | ⟨hnone, _⟩ := hleft
      · cases h with
        | polls _ => exact .inl ⟨o, moves, _, List.prefix_append .., hfocus⟩
        | beside way h => exact .inr (.waits way (by cases way <;> exact h))
      · cases hnone
  bodyBack := by
    intro moves polled k outcome h
    exact h.imp_right fun h => nomatch h
  stride := by
    intro moves d pollers doing job seat _ _ _ _ h _ hs
    rcases h with ⟨o, ho⟩ | h
    · exact .inl ⟨o, ho.mono (List.prefix_append ..)⟩
    · exact .inr (holds_stride h hs)

/-- **While a nested driver is not left with an outcome nothing happens to the coroutine of whoever waits for
it**, whatever becomes of the nested task. -/
theorem history_of_awaiting {upto moves : List (Move Co Fu)} {pollers : List (Poller Co Fu)} {spot : Spot Fu}
    (hle : upto <+: moves) (hacts : Acts (after p {} upto) pollers d (.await (.nested n) spot))
    (hover : ∀ o, ¬ Over p moves n o) : history p moves d.key = history p upto d.key := by
  obtain ⟨rest, rfl⟩ := hle
  have hmem := mem_of_driver? hacts.driver
  have hold := ((orderly_after p upto).proper d hmem).1
  induction rest using List.reverseRecOn with
  | nil => rw [List.append_nil]
  | append_singleton rest m ih =>
    rw [← List.append_assoc] at hover ⊢
    have hover' : ∀ o, ¬ Over p (upto ++ rest) n o := fun o ho => hover o (ho.mono (List.prefix_append ..))
    have hsame := ih hover'
    have hbase : ∀ x ∈ (after p {} upto).drivers, x.key = d.key →
        (∃ o, Over p upto n o) ∨ ((after p {} upto).seat x).Holds n := by
      intro x hx hk
      cases (orderly_after p upto).eq_of_key hx hmem hk
      rw [seat_of_works hacts.focus rfl]
      exact .inr (.begins spot)
    have hholds := stays_after (stays_holding n d.key _) (List.prefix_append upto rest) hold rfl hsame hbase
    have hold' : d.key.val ≤ (after p {} (upto ++ rest)).lastKey := by
      rw [after_append]
      exact hold.trans (lastKey_le_after p (orderly_after p upto).proper rest)
    rw [history_snoc, happenings, eventsOf_append, eventsOf_newcomers_old hold', List.append_nil]
    rcases eventsOf_acting (after p {} (upto ++ rest)) m d.key with
      hnone | ⟨_, x, doing, e, _, hfocus, hx, hk, hevent, _⟩
    · rw [hnone, List.append_nil, hsame]
    · have hholds := (hholds x (mem_of_driver? hx) hk).resolve_left (not_exists.mpr hover')
      rw [seat_of_works hfocus (works_of_event hevent)] at hholds
      cases (event?_of_holds hholds).symm.trans hevent

end

/-! ## Who is entered to be driven in place -/

/-- The move enters a coroutine with the driver `n` and the task `t`, to be driven from where it is entered. -/
def Nests (p : Program Co Fu) (l : EventLoop Co Fu) (m : Move Co Fu) (co : Co) (n : DriverKey)
    (t : TaskHandle) : Prop :=
  ∃ current x, l.arrival? m = some (current, x) ∧ x.nested = true ∧ x.work = .coroutine co ∧
    (x.driver p l current).key = n ∧ (x.driver p l current).task = t

/-- The task is terminated in the run after its first part, when it has no outcome. (A number can be named
before it is given out, but that terminates nothing.) -/
def TerminatedSince (p : Program Co Fu) (first moves : List (Move Co Fu)) (t : TaskHandle) : Prop :=
  ∃ before m, first <+: before ∧ before ++ [m] <+: moves ∧ (after p {} before).outcome? t = none ∧
    .attempt (.terminate t.scheduler t.id) ∈ (after p {} before).postings p m

section

variable (p : Program Co Fu) {l : EventLoop Co Fu} {first moves : List (Move Co Fu)} {m : Move Co Fu}
  {d : Driver Co Fu} {n parent : DriverKey} {co : Co} {t : TaskHandle} {o : Outcome}

/-- A called coroutine is driven by its caller. -/
theorem Nests.of_called (h : Enters l parent .call (.coroutine co) n t) : Nests p l .step co n t := by
  obtain ⟨x, hx, hwork, hkey, htask⟩ := h.arrival p
  refine ⟨_, x, hx, ?_, hwork, hkey, htask⟩
  cases h with
  | intro hfocus hd _ =>
    cases key_of_driver? hd
    rw [arrival?_of_driver hfocus hd] at hx
    cases hx
    rfl

theorem Nests.lt (h : Nests p l m co n t) : l.lastKey < n.val := by
  obtain ⟨_, _, _, _, _, rfl, _⟩ := h
  exact Nat.lt_succ_self _

theorem Nests.registered (h : Nests p (after p {} first) m co n t) :
    Registered (after p {} (first ++ [m])) t .created := by
  obtain ⟨_, x, hx, _, hwork, _, rfl⟩ := h
  have hregistered := registered_of_arrival p hx
  rwa [hwork] at hregistered

theorem Nests.history (h : Nests p (after p {} first) m co n t) :
    EventLoop.history p (first ++ [m]) n = [.entered t.scheduler co] := by
  obtain ⟨_, x, hx, _, hwork, rfl, rfl⟩ := h
  exact entered_of_arrival p hx hwork

/-- The driver works on the task that was entered for it. -/
theorem Nests.task_eq (h : Nests p (after p {} first) m co n t) (hle : first ++ [m] <+: moves)
    (hd : d ∈ (after p {} moves).drivers) (hk : d.key = n) : d.task = t := by
  obtain ⟨current, x, hx, _, _, rfl, rfl⟩ := h
  obtain ⟨rest, rfl⟩ := hle
  rw [after_append] at hd
  refine task_eq_of_key p (orderly_after p _) ?_ hd hk
  rw [after_snoc, (drivers_move_of_arrival p hx).1]
  exact List.mem_append_right _ List.mem_cons_self

/-! ## Termination -/

omit p in
theorem actPostings_of_terminate {β : Type} {a : Act Co Fu β} {s : SchedulerId} {id : TaskId}
    (h : .attempt (.terminate s id) ∈ l.actPostings a) : l.actPostings a = [.attempt (.terminate s id)] := by
  cases a with
  | ask q k =>
    cases q with
    | terminate s' id' =>
      cases List.mem_singleton.mp h
      rfl
    | _ => cases h
  | start _ _ _ _ => cases List.mem_singleton.mp h
  | nest _ _ _ _ => cases List.mem_singleton.mp h
  | spawn _ _ _ _ => simp [actPostings] at h
  | _ => cases h

theorem doingPostings_of_terminate {doing : Doing Co Fu} {s : SchedulerId} {id : TaskId}
    (h : .attempt (.terminate s id) ∈ l.doingPostings p d doing) :
    l.doingPostings p d doing = [.attempt (.terminate s id)] := by
  have habandon : ∀ ds : List (Driver Co Fu), .attempt (.terminate s id) ∉ abandonments ds := by
    intro ds h
    obtain ⟨_, _, he⟩ := abandon_of_mem_abandonments h
    cases he
  unfold doingPostings at h ⊢
  split at h
  case h_1 | h_2 => split at h <;> simp at h
  case h_3 | h_10 => exact absurd h (habandon _)
  case h_4 _ b target work spot =>
    cases work with
    | pending fu => cases b <;> simp [invokedPostings] at h
    | coroutine co => cases List.mem_singleton.mp h
  case h_5 | h_6 | h_7 | h_8 => exact actPostings_of_terminate h
  case h_9 =>
    rcases List.mem_cons.mp h with h | h
    · cases h
    · exact absurd h (habandon _)
  case h_11 => cases h

/-- A move that terminates a task decides nothing else. -/
theorem postings_of_terminate {s : SchedulerId} {id : TaskId} (h : .attempt (.terminate s id) ∈ l.postings p m) :
    l.postings p m = [.attempt (.terminate s id)] := by
  unfold postings at h ⊢
  split at h
  · exact actPostings_of_terminate h
  · obtain ⟨_, _, he⟩ := abandon_of_mem_abandonments h
    cases he
  · unfold stepPostings at h ⊢
    split at h
    · cases h
    split at h
    · exact doingPostings_of_terminate p h
    · cases h
  · cases h

/-- A task that was terminated has that for its outcome. -/
theorem outcome_of_terminatedSince (hallotted : ((after p {} first).activeTasks t.scheduler).Allotted t.id)
    (h : TerminatedSince p first moves t) : (after p {} moves).outcome? t = some (.error (.terminated t.id)) := by
  obtain ⟨before, m, ⟨rest, rfl⟩, ⟨more, rfl⟩, hnone, hpost⟩ := h
  have ho := orderly_after p (first ++ rest)
  have hallotted : ((after p {} (first ++ rest)).activeTasks t.scheduler).Allotted t.id := by
    rw [after_append]
    exact allotted_of_before p rest hallotted
  have hactive := ((ho.balanced.sound t.scheduler).active_iff t.id hallotted).mpr hnone
  have hfirst := ho.balanced.sound.outcome_eq_firstAttempt hactive ((after p {} (first ++ rest)).postings p m)
  rw [← books_move, ← after_snoc, postings_of_terminate p hpost] at hfirst
  refine outcome_after p (hfirst.trans ?_) more
  simp [firstAttempt, Posting.outcomeFor, Attempt.scheduler, Attempt.id, Attempt.result]

/-- As long as a driver is there its task is decided by nothing but a termination. -/
theorem terminatedSince_of_outcome (hle : first <+: moves) (hd : d ∈ (after p {} moves).drivers)
    (hnone : (after p {} first).outcome? d.task = none) (ho : (after p {} moves).outcome? d.task = some o) :
    TerminatedSince p first moves d.task := by
  obtain ⟨before, m, hbefore, hactive, hsettled⟩ := exists_settling p ho
  have hfirst : first <+: before := by
    rcases List.prefix_or_prefix_of_prefix hle hbefore with hfirst | ⟨rest, rfl⟩
    · rcases List.prefix_concat_iff.mp hfirst with rfl | hfirst
      · cases hnone.symm.trans hsettled
      · exact hfirst
    · cases hnone.symm.trans (outcome_after p hsettled rest)
  rw [after_snoc] at hsettled
  obtain ⟨a, ha, hs, hid, _⟩ := attempt_of_move p hactive hsettled
  obtain rfl := terminate_of_attempt p hbefore ha hd hs hid
  exact ⟨before, m, hfirst, hbefore, hactive, ha⟩

/-! ## The end of a nested driver -/

/-- Whoever was left with an outcome has come to its end before, and its task has that outcome. -/
theorem finish_of_left (h : Over p moves n o) :
    ∃ before pollers d own, before ++ [.step] <+: moves ∧ d.key = n ∧
      Acts (after p {} before) pollers d (.finish own) ∧ (after p {} moves).outcome? d.task = some o := by
  obtain ⟨upto, pollers, ⟨rest, rfl⟩, hfocus⟩ := h
  obtain ⟨before, d, own, hbefore, hfinish, hd, ho⟩ := outcome_of_over p hfocus
  cases key_of_driver? hd
  exact ⟨before, pollers, d, own, hbefore.trans (List.prefix_append ..), rfl, ⟨hfinish, hd⟩, outcome_after p ho rest⟩

/-- **Whoever was left with an outcome is gone.** -/
theorem gone_of_left (h : Over p moves n o) : ∀ d ∈ (after p {} moves).drivers, d.key ≠ n := by
  obtain ⟨before, pollers, d, own, hbefore, rfl, hacts, _⟩ := finish_of_left p h
  have hposted : .attempt (.outcome d.duty own) ∈ (after p {} before).postings p .step := by
    rw [postings_of_driver p hacts.focus hacts.driver]
    exact List.mem_cons_self
  exact gone_of_attempt p hbefore hposted (mem_of_driver? hacts.driver) rfl

/-- A nested driver that was left with an outcome has come to its end after it was entered, and its task has
that outcome. -/
theorem Nests.finish_of_left (h : Nests p (after p {} first) m co n t) (hle : first ++ [m] <+: moves)
    (ho : Over p moves n o) :
    ∃ before pollers d own, first ++ [m] <+: before ∧ before ++ [.step] <+: moves ∧ d.key = n ∧ d.task = t ∧
      Acts (after p {} before) pollers d (.finish own) ∧ (after p {} moves).outcome? t = some o := by
  obtain ⟨before, pollers, d, own, hbefore, rfl, hacts, ho⟩ := EventLoop.finish_of_left p ho
  have hmem := mem_of_driver? hacts.driver
  have hentered := prefix_of_old p hle ((List.prefix_append ..).trans hbefore) h.lt
    ((orderly_after p before).proper d hmem).1
  have htask := h.task_eq p hentered hmem rfl
  rw [htask] at ho
  exact ⟨before, pollers, d, own, hentered, hbefore, rfl, htask, hacts, ho⟩

/-- **A nested driver is left with the outcome that it has come to its end with**, or with that of the
termination, if its task was terminated meanwhile. -/
theorem Nests.own_of_left (h : Nests p (after p {} first) m co n t) (hle : first ++ [m] <+: moves)
    (ho : Over p moves n o) : ∃ own, .ended own ∈ EventLoop.history p moves n ∧
      (TerminatedSince p (first ++ [m]) moves t → o = .error (.terminated t.id)) ∧
      (¬ TerminatedSince p (first ++ [m]) moves t → o = own) := by
  obtain ⟨before, pollers, d, own, hentered, hbefore, rfl, htask, hacts, hsettled⟩ := h.finish_of_left p hle ho
  have hregistered := h.registered p
  have hne : EventLoop.history p before d.key ≠ [] := history_ne_of_event p hentered (h.history p)
  refine ⟨own, ( history_prefix p hbefore d.key).subset (ended_of_finish p hacts hne), fun hterminated => ?_,
    fun hspared => ?_⟩
  · have hsound := (orderly_after p (first ++ [m])).balanced.sound t.scheduler
    have hallotted := hsound.allotted_of_contains t.id hregistered.contains
    exact Option.some.inj (hsettled.symm.trans (outcome_of_terminatedSince p hallotted hterminated))
  · subst htask
    cases hnow : (after p {} before).outcome? d.task with
    | none =>
      obtain ⟨rest, rfl⟩ := hbefore
      exact Option.some.inj (hsettled.symm.trans
        (outcome_after p (outcome_of_finish p hacts.focus hacts.driver hnow) rest))
    | some o' =>
      have hmem := mem_of_driver? hacts.driver
      obtain ⟨b, m', hb, hb', h⟩ := terminatedSince_of_outcome p hentered hmem hregistered.2 hnow
      exact absurd ⟨b, m', hb, hb'.trans ((List.prefix_append ..).trans hbefore), h⟩ hspared

/-! ## Who waits -/

/-- Who polls a nested driver to await it is answered when that is left with an outcome. -/
theorem answered_of_left {pollers : List (Poller Co Fu)} {spot : Spot Fu} {key : DriverKey}
    (hfocus : l.focus = .active (.waiting key spot :: pollers) n (.leave (some o)))
    (hd : l.driver? key = some d) : Acts (l.move p .step) pollers d (.answer (o.map .value) spot) := by
  cases key_of_driver? hd
  rw [move_step_of_leave p hfocus]
  exact ⟨rfl, hd⟩

/-- A driver that comes to its end is left with an outcome. -/
theorem left_of_finish {pollers : List (Poller Co Fu)} {own : Outcome}
    (hacts : Acts (after p {} moves) pollers d (.finish own)) :
    ∃ o, (after p {} (moves ++ [.step])).focus = .active pollers d.key (.leave (some o)) := by
  have hsettled : ∃ o, (after p {} (moves ++ [.step])).outcome? d.task = some o := by
    cases hnow : (after p {} moves).outcome? d.task with
    | none => exact ⟨own, outcome_of_finish p hacts.focus hacts.driver hnow⟩
    | some o => exact ⟨o, outcome_after p hnow [.step]⟩
  obtain ⟨o, ho⟩ := hsettled
  refine ⟨o, ?_⟩
  rw [after_snoc, move_step_of_driver p hacts.focus hacts.driver nofun] at ho ⊢
  exact congrArg (fun o => Focus.active pollers d.key (.leave o)) ho

/-- A driver that works for its coroutine on an effect was given that effect last. -/
theorem given_of_computes {pollers : List (Poller Co Fu)} {doing : Doing Co Fu}
    (hacts : Acts (after p {} moves) pollers d doing) (hw : doing.works = true) (hc : doing.computes = true)
    (hjob : d.job ≠ .plain) : ∃ past ref e, history p moves d.key = past ++ [.given ref e] := by
  have hmem := mem_of_driver? hacts.driver
  rcases told_after p moves d.key with ⟨_, hplain⟩ | ⟨s, co, told, ph, htold, _, hp, hstands⟩
  · exact absurd (hplain d hmem rfl) hjob
  · obtain ⟨co', passes, _, _, hdoes⟩ := does_of_stands hacts.focus hw (hstands d hmem rfl).2
    obtain ⟨_, ref, e, rfl, _⟩ := computes_of_does hc hdoes
    obtain ⟨past, rfl, _⟩ := hp.yielded_of_processing
    exact ⟨.entered s co :: past ++ [.yielded (.effect e) co'], ref, e, by simp [htold]⟩

/-- What can be relied on when a driver gets the coroutine that it has called, at this place in its
computation, and the driver `n` is entered for the coroutine. -/
structure CallsNested (p : Program Co Fu) (first moves : List (Move Co Fu)) (n : DriverKey)
    (pollers : List (Poller Co Fu)) (d : Driver Co Fu) (spot : Spot Fu) : Prop where
  /-- The caller waits for the nested driver, -/
  awaits : Acts (after p {} (first ++ [.step])) pollers d
    (.await (.nested n) { spot with frames := .call :: spot.frames })
  /-- and nothing happens to its coroutine as long as that is not left with an outcome. -/
  waits : (∀ o, ¬ Over p moves n o) → history p moves d.key = history p first d.key
  /-- When it is, the call is answered with the outcome. -/
  answered : ∀ ps d' o, (after p {} moves).focus =
      .active (.waiting d.key { spot with frames := .call :: spot.frames } :: ps) n (.leave (some o)) →
    (after p {} moves).driver? d.key = some d' →
    Acts (after p {} (stepping moves 2)) ps d' (.answer (o.map .value) spot)
  /-- A coroutine that has yielded the call is resumed with it in the same poll, -/
  prompt : spot = {} → d.job ≠ .plain → ∀ ps d' o, history p moves d.key = history p first d.key →
    (after p {} moves).focus = .active (.waiting d.key ⟨[.call], []⟩ :: ps) n (.leave (some o)) →
    (after p {} moves).driver? d.key = some d' →
    ∃ co, history p (stepping moves 4) d.key =
      history p moves d.key ++ [.resolved (o.map .value), .resumed co (o.map .value)]
  /-- and with nothing else. -/
  resumed : spot = {} → d.job ≠ .plain → ∀ e rest, history p moves d.key = history p first d.key ++ e :: rest →
    ∃ o, Over p moves n o ∧ e = .resolved (o.map .value) ∧
      (rest = [] ∨ ∃ co more, rest = .resumed co (o.map .value) :: more)

section

variable {pollers : List (Poller Co Fu)} {target : Target} {spot : Spot Fu}

/-- Whoever gets the coroutine that it has called waits for the driver that is entered for it. -/
theorem awaits_of_called (hn : Nests p (after p {} first) .step co n t)
    (hacts : Acts (after p {} first) pollers d (.invoke .call target (.ret (.coroutine co)) spot)) :
    Acts (after p {} (first ++ [.step])) pollers d
      (.await (.nested n) { spot with frames := .call :: spot.frames }) := by
  obtain ⟨_, _, hx, _, _, rfl, _⟩ := hn
  rw [after_snoc]
  refine ⟨?_, driver?_of_arrival p hx hacts.driver⟩
  rw [move_step_of_driver p hacts.focus hacts.driver nofun]
  rfl

/-- Getting what was called is nothing that happens to a coroutine. -/
theorem history_of_invoked {b : Builtin} {work : Invoked Co Fu}
    (hacts : Acts (after p {} first) pollers d (.invoke b target (.ret work) spot)) :
    history p (first ++ [.step]) d.key = history p first d.key := by
  rw [history_step p hacts.focus hacts.driver]
  cases hjob : d.job <;> simp [Doing.event?, hjob]

omit p in
/-- The only thing that happens to a coroutine whose driver waits so is that it is answered. -/
theorem resolved_of_awaits {left : Outcome → Prop} {doing : Doing Co Fu} {e : TaskEvent Co}
    (h : Awaits n left (.working doing)) (hevent : doing.event? d = some e) :
    ∃ o, left o ∧ e = .resolved (o.map .value) := by
  cases h with
  | answers h =>
    cases hjob : d.job <;> simp [Doing.event?, hjob] at hevent
    exact ⟨_, h, hevent.symm⟩
  | _ => cases hjob : d.job <;> simp [Doing.event?, hjob] at hevent

/-- What follows for the coroutine of the caller is the answer to the call, with the outcome that the nested
driver is left with. -/
theorem over_of_resumed (hawaits : Acts (after p {} (first ++ [.step])) pollers d (.await (.nested n) ⟨[.call], []⟩))
    (hsame : history p (first ++ [.step]) d.key = history p first d.key) (hne : history p first d.key ≠ [])
    (hle : first ++ [.step] <+: moves) {e : TaskEvent Co} {rest : List (TaskEvent Co)}
    (h : history p moves d.key = history p first d.key ++ e :: rest) :
    ∃ o, Over p moves n o ∧ e = .resolved (o.map .value) := by
  obtain ⟨upto, ps, d', doing, hupto, hpast, hkey, hfocus, hd', hevent⟩ :=
    exists_step_of_event p h (enters_of_history h hne)
  have hto := (List.prefix_append upto [.step]).trans hupto
  have hsnoc : history p (upto ++ [.step]) d'.key = history p first d.key ++ [e] := by
    rw [history_step p hfocus hd', hpast, hevent]
    rfl
  -- the step that tells of the event comes after the one that has got the coroutine
  have hlater : first ++ [.step] <+: upto := by
    rcases List.prefix_or_prefix_of_prefix hle hto with hlater | hbefore
    · exact hlater
    by_contra hnot
    have hsooner := snoc_prefix_of_ne hupto hle hbefore fun he => hnot (he ▸ List.prefix_refl _)
    exact history_ne_of_event p hsooner hsnoc (hkey ▸ hsame)
  have hmem := mem_of_driver? hawaits.driver
  have hbase : ∀ x ∈ (after p {} (first ++ [.step])).drivers, x.key = d.key →
      Awaits n (Over p (first ++ [.step]) n) ((after p {} (first ++ [.step])).seat x) := by
    intro x hx hk
    cases (orderly_after p _).eq_of_key hx hmem hk
    rw [seat_of_works hawaits.focus rfl]
    exact .awaits
  have hseat := stays_after (stays_awaiting n hne) hlater ((orderly_after p _).proper d hmem).1 hsame
    (hkey ▸ hpast) hbase d' (mem_of_driver? hd') hkey
  rw [seat_of_works hfocus (works_of_event hevent)] at hseat
  obtain ⟨o, hover, he⟩ := resolved_of_awaits hseat hevent
  exact ⟨o, hover.mono hto, he⟩

/-- **Who calls a coroutine waits for it**, and is answered with the outcome that its driver is left with. -/
theorem callsNested_of_nests (hn : Nests p (after p {} first) .step co n t)
    (hacts : Acts (after p {} first) pollers d (.invoke .call target (.ret (.coroutine co)) spot))
    (hle : first ++ [.step] <+: moves) : CallsNested p first moves n pollers d spot := by
  have hawaits := awaits_of_called p hn hacts
  have hsame := history_of_invoked p hacts
  constructor
  case awaits => exact hawaits
  case waits =>
    intro hover
    rw [history_of_awaiting hle hawaits hover, hsame]
  case answered =>
    intro ps d' o hfocus hd'
    have hreturns := answered_of_left p hfocus hd'
    show Acts (after p {} (moves ++ [.step, .step])) ps d' _
    rw [List.append_cons, after_snoc, after_snoc, move_step_of_driver p hreturns.focus hreturns.driver nofun]
    refine ⟨?_, hreturns.driver⟩
    exact congrArg (fun r => Focus.active ps d'.key (.answer r spot)) (Resume.wired_map_value o)
  case prompt =>
    rintro rfl hjob ps d' o hnow hfocus hd'
    have hkey := key_of_driver? hd'
    obtain ⟨past, ref, e, hgiven⟩ := given_of_computes p hacts rfl rfl hjob
    rw [← hnow, ← hkey] at hgiven
    rw [← hkey] at hfocus hd' ⊢
    obtain ⟨co', hresumed⟩ := resumed_of_callOver p hgiven (.driven hfocus) hd'
    refine ⟨co', ?_⟩
    simpa [stepping, List.replicate] using hresumed
  case resumed =>
    rintro rfl hjob e rest h
    obtain ⟨past, ref, given, hgiven⟩ := given_of_computes p hacts rfl rfl hjob
    have hne : history p first d.key ≠ [] := by simp [hgiven]
    obtain ⟨o, hover, rfl⟩ := over_of_resumed p hawaits hsame hne hle h
    exact ⟨o, hover, rfl, resumed_of_resolved p h⟩

end

/-! ## Runs in place -/

/-- What can be relied on when the move `m`, after the first part of a run, enters a coroutine with the driver
`n` and the task `t` to be driven in place. -/
structure RunsNested (p : Program Co Fu) (first : List (Move Co Fu)) (m : Move Co Fu) (moves : List (Move Co Fu))
    (co : Co) (n : DriverKey) (t : TaskHandle) : Prop where
  /-- The task is registered before anything else happens to the coroutine. -/
  entered : Registered (after p {} (first ++ [m])) t .created ∧
    history p (first ++ [m]) n = [.entered t.scheduler co]
  /-- As long as the driver is there it is not left with an outcome, even if its task has one, -/
  unresolved : ∀ d ∈ (after p {} moves).drivers, d.key = n → ∀ o, ¬ Over p moves n o
  /-- and it is as soon as it has come to its end. -/
  resolves : ∀ pollers d own, d.key = n → Acts (after p {} moves) pollers d (.finish own) →
    ∃ o, (after p {} (moves ++ [.step])).focus = .active pollers n (.leave (some o))
  /-- The outcome it is left with is that of the task, which is not registered any more: -/
  settled : ∀ o, Over p moves n o → (after p {} moves).outcome? t = some o ∧
    ((after p {} moves).activeTasks t.scheduler).contains t.id = false
  /-- the one that the driver has come to its end with, or that of the termination, if the task was
  terminated meanwhile. -/
  own : ∀ o, Over p moves n o → ∃ own, .ended own ∈ history p moves n ∧
    (TerminatedSince p (first ++ [m]) moves t → o = .error (.terminated t.id)) ∧
    (¬ TerminatedSince p (first ++ [m]) moves t → o = own)
  /-- Until then nothing happens to the coroutine of whoever has come to wait for the driver. -/
  waits : ∀ upto pollers d spot, upto <+: moves →
    Acts (after p {} upto) pollers d (.await (.nested n) spot) → (∀ o, ¬ Over p moves n o) →
    history p moves d.key = history p upto d.key
  /-- Then a driver that polls it to await it is answered with the outcome, -/
  answered : ∀ pollers key d spot o,
    (after p {} moves).focus = .active (.waiting key spot :: pollers) n (.leave (some o)) →
    (after p {} moves).driver? key = some d →
    Acts (after p {} (moves ++ [.step])) pollers d (.answer (o.map .value) spot)
  /-- and user code that polls it gets what it is left with. -/
  polled : ∀ pollers key d k o,
    (after p {} moves).focus = .active (.body key k :: pollers) n (.leave o) →
    (after p {} moves).driver? key = some d →
    Acts (after p {} (moves ++ [.step])) pollers d (.advance (p.advance (k o)))
  /-- If the coroutine was called, it is the caller that waits. -/
  calls : ∀ pollers d target spot, m = .step →
    Acts (after p {} first) pollers d (.invoke .call target (.ret (.coroutine co)) spot) →
    CallsNested p first moves n pollers d spot

/-- **A run in place resolves when its driver is over, with the outcome of its task.** -/
theorem nested_runs_settle (hn : Nests p (after p {} first) m co n t) (hle : first ++ [m] <+: moves) :
    RunsNested p first m moves co n t where
  entered := ⟨hn.registered p, hn.history p⟩
  unresolved := fun d hd hk _ ho => gone_of_left p ho d hd hk
  resolves := by
    rintro pollers d own rfl hacts
    exact left_of_finish p hacts
  settled := by
    intro o ho
    obtain ⟨_, _, _, _, _, _, _, _, _, houtcome⟩ := hn.finish_of_left p hle ho
    exact ⟨houtcome, ((orderly_after p moves).balanced.sound t.scheduler).not_contains_of_outcome houtcome⟩
  own := fun _ ho => hn.own_of_left p hle ho
  waits := fun _ _ _ _ hupto hacts hover => history_of_awaiting hupto hacts hover
  answered := by
    intro pollers key d spot o hfocus hd
    rw [after_snoc]
    exact answered_of_left p hfocus hd
  polled := by
    intro pollers key d k o hfocus hd
    cases key_of_driver? hd
    rw [after_snoc, move_step_of_leave p hfocus]
    exact ⟨rfl, hd⟩
  calls := by
    rintro pollers d target spot rfl hacts
    exact callsNested_of_nests p hn hacts hle

end

/-- The coroutine that is called in the example is driven in place, and settles. -/
theorem outer_runs_nested : callsOuter.take 6 ++ [.step] <+: callsOuter ∧
    Nests nests (after nests {} (callsOuter.take 6)) .step { page := 20 } ⟨2⟩ outerTask ∧
    RunsNested nests (callsOuter.take 6) .step callsOuter { page := 20 } ⟨2⟩ outerTask := by
  have hle : callsOuter.take 6 ++ [.step] <+: callsOuter := ⟨callsOuter.drop 7, rfl⟩
  have hn : Nests nests (after nests {} (callsOuter.take 6)) .step { page := 20 } ⟨2⟩ outerTask :=
    Nests.of_called nests (.of_eq rfl rfl (.inr ⟨_, rfl⟩) rfl rfl)
  exact ⟨hle, hn, nested_runs_settle nests hn hle⟩

/-- The outer target is terminated while its caller drives it. -/
def terminatesOuter : List (Move Diary Unit) :=
  begun 0 :: (pollOf 1 20 ++ .act (.ask (.terminate ⟨0⟩ ⟨2⟩) fun _ => .ret ()) :: pollOf 3 6 ++ pollOf 1 20 ++
    .flush :: pollOf 1 17)

-- it runs on to its end, and the caller gets the termination
example : (history nests terminatesOuter ⟨2⟩).getLast? = some (.ended (.ok (.arr [.bool true]))) ∧
    (history nests terminatesOuter ⟨1⟩)[4]? = some (.resolved (.error (.terminated ⟨2⟩))) :=
  ⟨rfl, rfl⟩

end EventLoop

end EffectLoop
