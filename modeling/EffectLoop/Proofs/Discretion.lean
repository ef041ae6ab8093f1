import EffectLoop.Proofs.Veils

/-!
# Those who look at nothing out of sight

A driver is discreet if what it does next depends on nothing that is out of sight: it waits for
nothing there, asks for nothing there, and if it enters a task it gets the same numbers in both
states. `alike_move` is the unwinding step: a discreet move made in two states that are alike leads
to states that are alike, and the driver that acts in it is the same and does the same.
-/

namespace EffectLoop

variable {Co Fu α β : Type}

/-- The request, with what follows the reply, sees nothing that is out of sight. To end a task early
and ignore the answer is to see nothing. -/
def Request.Discreet (v : Veil) : (q : Request) → (q.Reply → β) → Prop
  | .peek w, _ => v.InSight w
  | .outcome h, _ => v.tasks h.scheduler h.id = false
  | .snapshot s, _ => ∀ id, v.tasks s id = false
  | .terminate s id, k => v.tasks s id = false ∨ k true = k false
  | .openGate name _, _ => v.gates name = false
  | .publish key _, _ | .fetch key, _ => v.keys key = false
  | .keep sink _, _ => v.sinks sink.name = false
  | _, _ => True

/-- The act begins with nothing that shows what is out of sight. -/
def Act.Discreet (v : Veil) (l l' : EventLoop Co Fu) : Act Co Fu α → Prop
  | .ask q k => q.Discreet v k
  | .start s _ _ _ | .spawn s _ _ _ | .nest s _ _ _ => EventLoop.SameNumbers l l' s
  | _ => True

/-- What the driver does next depends on nothing that is out of sight. Who polls it hears the outcome
of its task. -/
def Doing.Discreet (v : Veil) (l l' : EventLoop Co Fu) (pollers : List (Poller Co Fu))
    (d : Driver Co Fu) : Doing Co Fu → Prop
  | .advance a => a.Discreet v l l'
  | .work a _ => a.Discreet v l l'
  | .dispatch a _ => a.Discreet v l l'
  | .invoke b _ (.ret (.pending _)) _ => b = .fork → EventLoop.SameNumbers l l' d.task.scheduler
  | .invoke _ _ (.ret (.coroutine _)) _ => EventLoop.SameNumbers l l' d.task.scheduler
  | .invoke _ _ a _ => a.Discreet v l l'
  | .visit (.waiting w _) _ | .await w _ => v.InSight w
  | .finish _ => v.tasks d.task.scheduler d.task.id = false ∨ heeded pollers = false
  | _ => True

namespace EventLoop

/-- The driver, if it is there, lives in sight. -/
def Sees (v : Veil) (l : EventLoop Co Fu) (key : DriverKey) : Prop :=
  ∀ d, l.driver? key = some d → v.shows d = true

/-- The clock may reach the time. -/
def MayReach (l : EventLoop Co Fu) (time : Nat) : Prop :=
  l.now ≤ time ∧ ∀ t ∈ l.nextDeadline?, time ≤ t

end EventLoop

open EventLoop in
/-- What the surroundings do depends on nothing that is out of sight. -/
def Move.Discreet (v : Veil) (l l' : EventLoop Co Fu) : Move Co Fu → Prop
  | .act a => a.Discreet v l l'
  | .poll home => v.homes home = false
  | .call key _ | .forget key => v.homes key = false ∧ l.Sees v key ∧ l'.Sees v key
  | .drop key => l.Sees v key ∧ l'.Sees v key
  | .jump time => l.MayReach time ↔ l'.MayReach time
  | .step | .flush => True

namespace EventLoop

/-- The driver that acts in a move, and what it does. -/
def deed (l : EventLoop Co Fu) : Move Co Fu → Option (Driver Co Fu × Doing Co Fu)
  | .step =>
    match l.focus with
    | .idle | .active _ _ (.leave _) => none
    | .active _ key doing => (l.driver? key).map (·, doing)
  | _ => none

/-- A move that is made by those in sight, in both of two states. -/
inductive Shared (v : Veil) (l l' : EventLoop Co Fu) : Move Co Fu → Prop
  | step {pollers : List (Poller Co Fu)} {key : DriverKey} {doing : Doing Co Fu}
      (hfocus : l.focus = .active pollers key doing) (hroot : v.homes (root pollers key) = false)
      (hsees : l.Sees v key) (hsees' : l'.Sees v key)
      (hdiscreet : ∀ d, l.driver? key = some d → doing.Discreet v l l' pollers d) : Shared v l l' .step
  | outside (hidle : l.focus = .idle) (hidle' : l'.focus = .idle) {m : Move Co Fu}
      (hdiscreet : m.Discreet v l l') : Shared v l l' m

namespace Alike

variable {v : Veil} {l l' : EventLoop Co Fu} (h : Alike v l l')
include h

/-! ## Requests -/

theorem terminate {spans spans' : List Span} {s : SchedulerId} {id : TaskId}
    (hid : v.tasks s id = false) :
    Alike v (l.terminate spans s id).1 (l'.terminate spans' s id).1 ∧
      (l.terminate spans s id).2 = (l'.terminate spans' s id).2 := by
  rw [terminate_eq, terminate_eq, h.contains_eq hid]
  split
  · rename_i hc'
    have hc := (h.contains_eq hid).trans hc'
    refine ⟨?_, rfl⟩
    apply Alike.record
    apply Alike.wake
    exact h.settled hc hc' _
  · exact ⟨h, rfl⟩

theorem perform (p : Program Co Fu) {current : Option DriverKey}
    (hcurrent : ∀ key ∈ current, l.driver? key = l'.driver? key) {a : Act Co Fu α}
    (ha : a.Discreet v l l') :
    Alike v (l.perform p current a).1 (l'.perform p current a).1 ∧
      (l.perform p current a).2 = (l'.perform p current a).2 := by
  cases a with
  | ask q k =>
    have hspans := spansOf_eq hcurrent
    cases q with
    | now => exact ⟨h, congrArg k h.now⟩
    | peek w => exact ⟨h, congrArg k (h.peek_eq ha)⟩
    | openGate name j => exact ⟨h.openGate ha j, rfl⟩
    | publish key o =>
      refine ⟨{ h with board := ?_ }, rfl⟩
      intro other ho
      show (l.board.insert key o).find? other = (l'.board.insert key o).find? other
      rw [Assoc.find?_insert, Assoc.find?_insert, h.board other ho]
    | fetch key => exact ⟨h, congrArg k (h.board key ha)⟩
    | outcome t => exact ⟨h, congrArg k (h.outcome t ha)⟩
    | snapshot s =>
      have hall : ∀ tasks : ActiveTasks, tasks.entries.filter (v.lists s) = tasks.entries := by
        intro tasks
        rw [List.filter_eq_self]
        intro e _
        simp [Veil.lists, ha e.id]
      have hentries := h.entries s
      rw [hall, hall] at hentries
      exact ⟨h, congrArg k hentries⟩
    | terminate s id =>
      rcases ha with hid | hk
      · obtain ⟨hl, hb⟩ := h.terminate hid
        exact ⟨hl, congrArg k hb⟩
      · cases hid : v.tasks s id with
        | false =>
          obtain ⟨hl, hb⟩ := h.terminate hid
          exact ⟨hl, congrArg k hb⟩
        | true =>
          refine ⟨((h.terminate_hidden _ hid).symm.terminate_hidden _ hid).symm, ?_⟩
          have hsame : ∀ b b' : Bool, k b = k b' := by
            intro b b'
            cases b <;> cases b' <;> first | rfl | exact hk | exact hk.symm
          exact hsame _ _
    | keep sink event =>
      have hkept := h.sinks sink.name ha
      refine ⟨{ h with sinks := ?_ }, ?_⟩
      · intro other ho
        show (l.sinks.insert _ _).find? other = (l'.sinks.insert _ _).find? other
        rw [Assoc.find?_insert, Assoc.find?_insert, h.sinks other ho, hkept]
      · show k _ = k _
        rw [hkept]
    | log j => exact ⟨((h.note _).symm.note _).symm, rfl⟩
    | noteDispatch event sink => exact ⟨((h.note _).symm.note _).symm, rfl⟩
    | record level source message fields => exact ⟨h.record _ _ _ _ _ _, rfl⟩
  | start s name co k =>
    obtain ⟨hl, ht⟩ := h.start (p.scheduler s) hcurrent ha name co
    exact ⟨hl, congrArg k ht⟩
  | spawn s name fu k =>
    obtain ⟨hl, ht⟩ := h.spawn (p.scheduler s) hcurrent ha name fu
    exact ⟨hl, congrArg k ht⟩
  | nest s name co k =>
    obtain ⟨hl, hd⟩ := h.nest (p.scheduler s) hcurrent ha name co
    exact ⟨hl, congrArg k (congrArg Driver.key hd)⟩
  | _ => exact ⟨h, rfl⟩

/-- Code that goes on after a discreet request goes on the same, wherever it stands. -/
theorem focusOn_perform (p : Program Co Fu) {current : Option DriverKey}
    (hcurrent : ∀ key ∈ current, l.driver? key = l'.driver? key) {a : Act Co Fu α}
    (ha : a.Discreet v l l') (pollers : List (Poller Co Fu)) (key : DriverKey)
    (doing : Act Co Fu α → Doing Co Fu) :
    Alike v ((l.perform p current a).1.focusOn pollers key (doing (l.perform p current a).2))
      ((l'.perform p current a).1.focusOn pollers key (doing (l'.perform p current a).2)) := by
  obtain ⟨hl, hreply⟩ := h.perform p hcurrent ha
  rw [hreply]
  exact hl.focusOn _ _ _

/-! ## Steps of a driver in sight -/

variable (p : Program Co Fu) {pollers : List (Poller Co Fu)} {d : Driver Co Fu}

theorem setActivity (key : DriverKey) (activity : Activity Fu) :
    Alike v (l.setActivity key activity) (l'.setActivity key activity) :=
  h.modifyDriver key fun _ => rfl

theorem setJob (key : DriverKey) (job : Job Co) : Alike v (l.setJob key job) (l'.setJob key job) :=
  h.modifyDriver key fun _ => rfl

theorem stepYield (passes : Nat) (kind : EffectKind) (co : Co) (y : Yielded) :
    Alike v (l.stepYield p pollers d passes kind co y) (l'.stepYield p pollers d passes kind co y) := by
  cases y with
  | pass o =>
    unfold EventLoop.stepYield
    dsimp only
    split
    · split
      · exact (h.setJob _ _).focusOn _ _ _
      · exact (h.setJob _ _).focusOn _ _ _
    · exact (h.setJob _ _).focusOn _ _ _
  | effect e =>
    unfold EventLoop.stepYield
    dsimp only
    split
    · exact (h.setJob _ _).focusOn _ _ _
    · exact (((h.setJob _ _).record _ _ _ _ _ _).setState _ _).focusOn _ _ _

theorem stepAnswer (r : Resume) (spot : Spot Fu) :
    Alike v (l.stepAnswer p pollers d r spot) (l'.stepAnswer p pollers d r spot) := by
  unfold EventLoop.stepAnswer
  split
  case h_7 =>
    split
    · exact (h.record _ _ _ _ _ _).focusOn _ _ _
    · exact h.focusOn _ _ _
    · exact h.focusOn _ _ _
  all_goals exact h.focusOn _ _ _

theorem stepInvoked (hx : l.driver? d.key = l'.driver? d.key) (b : Builtin) (target : Target)
    (spot : Spot Fu) (invoked : Invoked Co Fu)
    (hdiscreet : (Doing.invoke b target (.ret invoked) spot).Discreet v l l' pollers d) :
    Alike v (l.stepInvoked p pollers d b target spot invoked)
      (l'.stepInvoked p pollers d b target spot invoked) := by
  have hcurrent : ∀ key ∈ some d.key, l.driver? key = l'.driver? key := by
    rintro _ ⟨⟩
    exact hx
  cases invoked with
  | pending fu =>
    cases b with
    | fork =>
      obtain ⟨hl, ht⟩ := h.spawn (p.scheduler d.task.scheduler) hcurrent (hdiscreet rfl) target.name fu
      unfold EventLoop.stepInvoked
      dsimp only
      rw [ht]
      exact hl.focusOn _ _ _
    | _ => exact h.focusOn _ _ _
  | coroutine co =>
    cases b with
    | fork =>
      obtain ⟨hl, ht⟩ := h.start (p.scheduler d.task.scheduler) hcurrent hdiscreet target.name co
      unfold EventLoop.stepInvoked
      dsimp only
      rw [ht]
      exact hl.focusOn _ _ _
    | _ =>
      obtain ⟨hl, hd⟩ := h.nest (p.scheduler d.task.scheduler) hcurrent hdiscreet target.name co
      unfold EventLoop.stepInvoked
      dsimp only
      rw [hd]
      exact hl.focusOn _ _ _

/-- A coroutine that runs keeps states alike; when it is over, those nested in it go from both. -/
theorem stepAdvance (hl : Proper l) (hh : Housed l) (hh' : Housed l') (hx : l.driver? d.key = some d)
    (hx' : l'.driver? d.key = some d) (hshows : v.shows d = true) {a : Act Co Fu (Progress Co)}
    (hdiscreet : (Doing.advance a).Discreet v l l' pollers d) :
    Alike v (l.stepDriver p pollers d (.advance a)) (l'.stepDriver p pollers d (.advance a)) := by
  have hcurrent : ∀ key ∈ some d.key, l.driver? key = l'.driver? key := by
    rintro _ ⟨⟩
    exact hx.trans hx'.symm
  have hperform := h.focusOn_perform p hcurrent (a := a)
  cases a with
  | ret progress =>
    cases progress with
    | yield y co =>
      unfold EventLoop.stepDriver
      dsimp only
      split
      · exact h.stepYield p _ _ _ y
      · exact h.focusOn _ _ _
    | done outcome co =>
      apply Alike.focusOn
      apply h.dropNested hl hh hh'
      · exact fun x hmem => hh.shows_nested x hmem d (mem_of_driver? hx) hshows
      · exact fun x hmem => hh'.shows_nested x hmem d (mem_of_driver? hx') hshows
    | _ => exact h.focusOn _ _ _
  | panic => exact h.focusOn _ _ _
  | _ =>
    rw [stepDriver_advance p l pollers d rfl, stepDriver_advance p l' pollers d rfl]
    exact hperform hdiscreet pollers d.key .advance

/-- **A discreet step keeps states alike.** -/
theorem stepDriver (hl : Proper l) (hh : Housed l) (hh' : Housed l')
    (hx : l.driver? d.key = some d) (hx' : l'.driver? d.key = some d) (hshows : v.shows d = true)
    {doing : Doing Co Fu} (hleave : ∀ outcome, doing ≠ .leave outcome)
    (hdiscreet : doing.Discreet v l l' pollers d)
    (hroot : v.homes (root pollers d.key) = false) :
    Alike v (l.stepDriver p pollers d doing) (l'.stepDriver p pollers d doing) := by
  have hsame : l.driver? d.key = l'.driver? d.key := hx.trans hx'.symm
  have hcurrent : ∀ key ∈ some d.key, l.driver? key = l'.driver? key := by
    rintro _ ⟨⟩
    exact hsame
  have hmem := mem_of_driver? hx
  have hmem' := mem_of_driver? hx'
  cases doing with
  | poll =>
    unfold EventLoop.stepDriver
    dsimp only
    split
    · exact (h.record _ _ _ _ _ _).focusOn _ _ _
    · exact (h.setActivity _ _).focusOn _ _ _
    · exact h.focusOn _ _ _
  | resume input =>
    unfold EventLoop.stepDriver
    dsimp only
    split
    · exact (((h.setState _ _).setActivity _ _).setJob _ _).focusOn _ _ _
    · exact h.focusOn _ _ _
  | advance a => exact h.stepAdvance p hl hh hh' hx hx' hshows hdiscreet
  | visit branch forks =>
    cases branch with
    | waiting w frames =>
      have hpeek := h.peek_eq hdiscreet
      cases w with
      | nested key => exact h.focusOn _ _ _
      | turn => exact h.focusOn _ _ _
      | _ =>
        simp only [EventLoop.stepDriver, hpeek]
        split
        · exact h.focusOn _ _ _
        · exact h.focusOn _ _ _
    | _ => exact h.focusOn _ _ _
  | work a spot =>
    have hperform := h.focusOn_perform p hcurrent (a := a)
    cases a with
    | ret await => cases await <;> exact h.focusOn _ _ _
    | panic => exact h.focusOn _ _ _
    | _ =>
      rw [stepDriver_work p l pollers d rfl, stepDriver_work p l' pollers d rfl]
      exact hperform hdiscreet pollers d.key (.work · spot)
  | process ref e spot => cases ref <;> exact h.focusOn _ _ _
  | invoke b target a spot =>
    have hperform := h.focusOn_perform p hcurrent (a := a)
    cases a with
    | ret invoked => exact h.stepInvoked p hsame b target spot invoked hdiscreet
    | panic => exact h.focusOn _ _ _
    | _ =>
      rw [stepDriver_invoke p l pollers d b target rfl, stepDriver_invoke p l' pollers d b target rfl]
      exact hperform hdiscreet pollers d.key (.invoke b target · spot)
  | dispatch a spot =>
    have hperform := h.focusOn_perform p hcurrent (a := a)
    cases a with
    | ret j => exact h.focusOn _ _ _
    | panic => exact h.focusOn _ _ _
    | _ =>
      rw [stepDriver_dispatch p l pollers d rfl, stepDriver_dispatch p l' pollers d rfl]
      exact hperform hdiscreet pollers d.key (.dispatch · spot)
  | await w spot =>
    have hpeek := h.peek_eq hdiscreet
    have hwait := h.wait pollers d (w := w) hdiscreet
    cases w with
    | nested key => exact h.focusOn _ _ _
    | _ =>
      simp only [EventLoop.stepDriver, hpeek]
      split
      · exact h.focusOn _ _ _
      · exact hwait.focusOn _ _ _
  | answer r spot => exact h.stepAnswer p r spot
  | pause branch forks =>
    cases forks with
    | nil => exact (h.setActivity _ _).focusOn _ _ _
    | cons fork forks => cases fork <;> exact h.focusOn _ _ _
  | finish outcome =>
    have hconclude := h.conclude hl hh hh' hmem hmem' hshows outcome
    refine { hconclude with focus := ?_ }
    -- the outcome is the same where it is heard, and else it does not matter
    show v.focus (.active pollers d.key (.leave _)) = v.focus (.active pollers d.key (.leave _))
    simp only [Veil.focus, hroot, Bool.false_eq_true, if_false, Doing.heard]
    rcases hdiscreet with hv | hheed
    · rw [hconclude.outcome d.task hv]
    · simp [hheed]
  | leave outcome => exact absurd rfl (hleave outcome)
  | crash =>
    have hv : v.homes d.home = false := by simpa [Veil.shows] using hshows
    exact { h.crash hl hv with focus := rfl }

end Alike

/-! ## Moves -/

section

variable (p : Program Co Fu) {v : Veil} {l l' : EventLoop Co Fu}

/-- A driver in sight is the same in states that are alike. -/
theorem Alike.driver?_eq (h : Alike v l l') (ho : Orderly l) (ho' : Orderly l') {key : DriverKey}
    (hsees : l.Sees v key) (hsees' : l'.Sees v key) : l.driver? key = l'.driver? key := by
  have hfound : ∀ {l l' : EventLoop Co Fu}, Alike v l l' → Orderly l' → l.Sees v key →
      ∀ d, l.driver? key = some d → l'.driver? key = some d := by
    intro l l' h ho' hsees d hd
    have hmem : d ∈ l.drivers.filter v.shows :=
      List.mem_filter.mpr ⟨mem_of_driver? hd, hsees d hd⟩
    rw [h.drivers] at hmem
    have hd' := driver?_of_mem ho' (List.mem_filter.mp hmem).1
    rwa [key_of_driver? hd] at hd'
  cases hd : l.driver? key with
  | some d => exact (hfound h ho' hsees d hd).symm
  | none =>
    cases hd' : l'.driver? key with
    | none => rfl
    | some d' =>
      rw [hfound h.symm ho hsees' d' hd'] at hd
      cases hd

/-- A poll in sight is the same in states that are alike, but for outcomes that nobody hears. -/
theorem Alike.focus_eq (h : Alike v l l') {pollers : List (Poller Co Fu)} {key : DriverKey}
    {doing : Doing Co Fu} (hfocus : l.focus = .active pollers key doing)
    (hroot : v.homes (root pollers key) = false) :
    ∃ doing', l'.focus = .active pollers key doing' ∧ doing'.heard pollers = doing.heard pollers := by
  have he := h.focus
  rw [hfocus] at he
  simp only [Veil.focus, hroot, Bool.false_eq_true, if_false] at he
  cases hfocus' : l'.focus with
  | idle =>
    rw [hfocus'] at he
    cases he
  | active pollers' key' doing' =>
    rw [hfocus'] at he
    simp only at he
    split at he
    · cases he
    · obtain ⟨rfl, rfl, hheard⟩ := Focus.active.inj he
      exact ⟨doing', rfl, hheard.symm⟩

theorem deed_of_active {pollers : List (Poller Co Fu)} {key : DriverKey} {doing : Doing Co Fu}
    (hfocus : l.focus = .active pollers key doing) (hleave : ∀ outcome, doing ≠ .leave outcome) :
    l.deed .step = (l.driver? key).map (·, doing) := by
  simp only [deed, hfocus]

theorem Alike.leave (h : Alike v l l') {pollers : List (Poller Co Fu)} {key : DriverKey}
    {outcome outcome' : Option Outcome}
    (ho : heeded pollers = true → outcome = outcome') :
    Alike v (l.leave p key outcome pollers) (l'.leave p key outcome' pollers) := by
  cases pollers with
  | nil => exact { h with focus := rfl }
  | cons poller pollers =>
    cases poller with
    | hand => exact { h with focus := rfl }
    | body owner k =>
      rw [ho rfl]
      exact h.focusOn _ _ _
    | waiting owner spot =>
      rw [ho rfl]
      unfold EventLoop.leave
      dsimp only
      split
      · exact h.focusOn _ _ _
      · exact h.focusOn _ _ _

/-- A doing that is no leaving is heard as it is. -/
theorem Doing.eq_of_heard {pollers : List (Poller Co Fu)} {doing doing' : Doing Co Fu}
    (h : doing'.heard pollers = doing.heard pollers) (hleave : ∀ outcome, doing ≠ .leave outcome) :
    doing' = doing := by
  cases doing with
  | leave outcome => exact absurd rfl (hleave outcome)
  | _ => cases doing' <;> first | exact h | cases h

theorem Doing.leave_of_heard {pollers : List (Poller Co Fu)} {doing' : Doing Co Fu}
    {outcome : Option Outcome}
    (h : doing'.heard pollers = (Doing.leave outcome : Doing Co Fu).heard pollers) :
    ∃ outcome', doing' = .leave outcome' ∧ (heeded pollers = true → outcome = outcome') := by
  cases doing' with
  | leave outcome' =>
    refine ⟨outcome', rfl, fun hheed => ?_⟩
    simpa [Doing.heard, hheed] using h.symm
  | _ => cases h

theorem Alike.outside (h : Alike v l l') (ho : Orderly l) (ho' : Orderly l') {m : Move Co Fu}
    (hdiscreet : m.Discreet v l l') : Alike v (l.outside p m) (l'.outside p m) := by
  cases m with
  | step => exact h
  | act a =>
    have hnobody : ∀ key ∈ (none : Option DriverKey), l.driver? key = l'.driver? key := nofun
    exact (h.perform p hnobody hdiscreet).1
  | poll home =>
    have hv : v.homes home = false := hdiscreet
    have hqueued : home ∈ l.queue ↔ home ∈ l'.queue := by
      have hfilter : ∀ queue : List DriverKey,
          home ∈ queue ↔ home ∈ queue.filter fun home => !v.homes home := by simp [hv]
      rw [hfilter l.queue, hfilter l'.queue, h.queue]
    unfold EventLoop.outside
    dsimp only
    by_cases hq : home ∈ l.queue
    · rw [if_pos hq, if_pos (hqueued.mp hq)]
      refine { h with queue := ?_, focus := rfl }
      show (l.queue.erase home).filter _ = (l'.queue.erase home).filter _
      rw [← List.erase_filter, ← List.erase_filter, h.queue]
    · rw [if_neg hq, if_neg fun hq' => hq (hqueued.mpr hq')]
      exact h
  | call key byHand =>
    obtain ⟨_, hsees, hsees'⟩ := hdiscreet
    have hsame := h.driver?_eq ho ho' hsees hsees'
    unfold EventLoop.outside
    dsimp only
    rw [hsame]
    split
    · split
      · refine { h with queue := ?_, focus := rfl }
        show (l.queue.filter _).filter _ = (l'.queue.filter _).filter _
        rw [List.filter_comm, h.queue, List.filter_comm]
      · exact h
    · exact h
  | flush => exact h.flush
  | jump time =>
    unfold EventLoop.outside
    dsimp only
    by_cases hmay : l.MayReach time
    · have hmay' := (show l.MayReach time ↔ l'.MayReach time from hdiscreet).mp hmay
      unfold MayReach at hmay hmay'
      rw [if_pos hmay, if_pos hmay']
      exact h.jump time
    · have hmay' := mt (show l.MayReach time ↔ l'.MayReach time from hdiscreet).mpr hmay
      unfold MayReach at hmay hmay'
      rw [if_neg hmay, if_neg hmay']
      exact h
  | drop key =>
    have hsame := h.driver?_eq ho ho' hdiscreet.1 hdiscreet.2
    unfold EventLoop.outside
    dsimp only
    rw [hsame]
    split
    · rename_i d hd
      exact h.abandon (ho'.proper d (mem_of_driver? hd)).2
    · exact h
  | forget key =>
    have hsame := h.driver?_eq ho ho' hdiscreet.2.1 hdiscreet.2.2
    unfold EventLoop.outside
    dsimp only
    rw [hsame]
    split
    · exact h.forget key
    · exact h

/-- **The unwinding step**: a move shared by two states that are alike keeps them alike, and the same
driver does the same in it. -/
theorem alike_move (h : Alike v l l') (ho : Orderly l) (ho' : Orderly l') (hh : Housed l)
    (hh' : Housed l') {m : Move Co Fu} (hm : Shared v l l' m) :
    Alike v (l.move p m) (l'.move p m) ∧ l.deed m = l'.deed m := by
  cases hm with
  | outside hidle hidle' hdiscreet =>
    rw [move_of_idle p hidle, move_of_idle p hidle']
    refine ⟨h.outside p ho ho' hdiscreet, ?_⟩
    cases m with
    | step => simp only [deed, hidle, hidle']
    | _ => rfl
  | step hfocus hroot hsees hsees' hdiscreet =>
    rename_i pollers key doing
    have hsame := h.driver?_eq ho ho' hsees hsees'
    obtain ⟨doing', hfocus', hheard⟩ := h.focus_eq hfocus hroot
    by_cases hleave : ∃ outcome, doing = .leave outcome
    · obtain ⟨outcome, rfl⟩ := hleave
      obtain ⟨outcome', rfl, ho⟩ := Doing.leave_of_heard hheard
      rw [move_step_of_leave p hfocus, move_step_of_leave p hfocus', deed, deed, hfocus, hfocus']
      exact ⟨h.leave p ho, rfl⟩
    · have hleave : ∀ outcome, doing ≠ .leave outcome := fun outcome he => hleave ⟨outcome, he⟩
      cases Doing.eq_of_heard hheard hleave
      rw [deed_of_active hfocus hleave, deed_of_active hfocus' hleave, ← hsame]
      refine ⟨?_, rfl⟩
      cases hd : l.driver? key with
      | none =>
        rw [move_step_of_gone p hfocus hleave hd,
          move_step_of_gone p hfocus' hleave (hsame.symm.trans hd)]
        exact h.leave p fun _ => rfl
      | some d =>
        cases key_of_driver? hd
        have hd' := hsame.symm.trans hd
        rw [move_step_of_driver p hfocus hd hleave, move_step_of_driver p hfocus' hd' hleave]
        exact h.stepDriver p ho.proper hh hh' hd hd' (hsees d hd) hleave (hdiscreet d hd) hroot

end

end EventLoop

end EffectLoop
