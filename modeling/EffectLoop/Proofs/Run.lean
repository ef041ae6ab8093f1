import EffectLoop.Loop.Run

/-!
# Runs of the loop

`EventLoop.drain` and the functions around it let the loop run in one order. A claim about every
interleaving needs all of them, so here a run is a LIST OF MOVES: a step of the poll under way, a
request of the surroundings, a queued home polled, the clock set forward, a driver dropped. Which
queued home is next, when the clock moves and what the surroundings ask is up to the list.

`after` is total: a move that cannot be made in a state leaves it as it is. In particular nothing
but a step happens while a poll is under way, which is all that one thread means here.

The functions of `EventLoop` make only such moves (`drain_reached`, `turn_reached`,
`runAct_reached`; `cancel_reached` and `shutdown_reached` once drivers are known to be in order), so
what holds after every list of moves holds of what they do.
-/

namespace EffectLoop

/-- What can happen next. -/
inductive Move (Co Fu : Type)
  /-- The poll under way goes on. -/
  | step
  /-- The surroundings carry out the first request of an act. -/
  | act (a : Act Co Fu Unit)
  /-- A queued home is polled. -/
  | poll (home : DriverKey)
  /-- The surroundings poll a driver of their own, from a task or by hand. -/
  | call (key : DriverKey) (byHand : Bool)
  /-- The deferred homes are queued. -/
  | flush
  /-- The clock reaches a time no later than the end of the earliest wait. -/
  | jump (time : Nat)
  /-- A driver is dropped, with the runtime or with what held it. -/
  | drop (key : DriverKey)
  /-- The waits of a home that is gone are forgotten. -/
  | forget (home : DriverKey)

namespace EventLoop

variable {Co Fu α : Type}

/-- What a move of the surroundings makes of an idle loop. -/
def outside (p : Program Co Fu) (l : EventLoop Co Fu) : Move Co Fu → EventLoop Co Fu
  | .step => l
  | .act a => (l.perform p none a).1
  | .poll home =>
    if home ∈ l.queue then { l with queue := l.queue.erase home }.focusOn [] home .poll else l
  | .call key byHand =>
    match l.driver? key with
    | some d =>
      if d.owner = .caller then
        { l with queue := l.queue.filter (· ≠ key) }.focusOn (if byHand then [.hand] else []) key .poll
      else l
    | none => l
  | .flush => l.flush
  | .jump time =>
    if l.now ≤ time ∧ ∀ t ∈ l.nextDeadline?, time ≤ t then l.jump time else l
  | .drop key =>
    match l.driver? key with
    | some d => l.abandon d
    | none => l
  | .forget home => if (l.driver? home).isNone then l.forget home else l

/-- What a move makes of the loop: while a poll is under way only that poll goes on. -/
def move (p : Program Co Fu) (l : EventLoop Co Fu) (m : Move Co Fu) : EventLoop Co Fu :=
  match l.focus, m with
  | .idle, m => l.outside p m
  | .active _ _ _, .step => (l.step? p).getD l
  | .active _ _ _, _ => l

/-- What moves make of the loop, one after the other. -/
def after (p : Program Co Fu) (l : EventLoop Co Fu) (moves : List (Move Co Fu)) : EventLoop Co Fu :=
  moves.foldl (fun l m => l.move p m) l

@[simp] theorem after_nil (p : Program Co Fu) (l : EventLoop Co Fu) : l.after p [] = l := rfl

@[simp] theorem after_cons (p : Program Co Fu) (l : EventLoop Co Fu) (m : Move Co Fu)
    (moves : List (Move Co Fu)) : l.after p (m :: moves) = (l.move p m).after p moves := rfl

theorem after_append (p : Program Co Fu) (l : EventLoop Co Fu) (first rest : List (Move Co Fu)) :
    l.after p (first ++ rest) = (l.after p first).after p rest :=
  List.foldl_append

theorem after_snoc (p : Program Co Fu) (l : EventLoop Co Fu) (moves : List (Move Co Fu))
    (m : Move Co Fu) : l.after p (moves ++ [m]) = (l.after p moves).move p m := by
  rw [after_append, after_cons, after_nil]

theorem move_of_idle (p : Program Co Fu) {l : EventLoop Co Fu} (h : l.focus = .idle)
    (m : Move Co Fu) : l.move p m = l.outside p m := by
  simp only [move, h]

theorem move_step (p : Program Co Fu) (l : EventLoop Co Fu) :
    l.move p .step = (l.step? p).getD l := by
  cases h : l.focus with
  | idle => simp only [move, h, outside, step?, Option.getD_none]
  | active pollers key doing => simp only [move, h]

/-- While a poll is under way nothing else happens. -/
theorem move_of_active (p : Program Co Fu) {l : EventLoop Co Fu} {pollers : List (Poller Co Fu)}
    {key : DriverKey} {doing : Doing Co Fu} (h : l.focus = .active pollers key doing)
    {m : Move Co Fu} (hm : m ≠ .step) : l.move p m = l := by
  cases m <;> simp_all [move]

/-! ## The functions that let the loop run -/

/-- Some moves lead from one state to another. -/
def Reaches (p : Program Co Fu) (l l' : EventLoop Co Fu) : Prop := ∃ moves, l.after p moves = l'

namespace Reaches

variable {p : Program Co Fu} {l l' l'' : EventLoop Co Fu}

theorem refl : Reaches p l l := ⟨[], rfl⟩

theorem trans (h : Reaches p l l') (h' : Reaches p l' l'') : Reaches p l l'' := by
  obtain ⟨first, rfl⟩ := h
  obtain ⟨rest, rfl⟩ := h'
  exact ⟨first ++ rest, after_append p l first rest⟩

theorem of_move (m : Move Co Fu) (h : l.move p m = l') : Reaches p l l' := ⟨[m], h⟩

end Reaches

/-- The home taken next is the first in the queue that is not `root`. -/
theorem takeNext_eq_some {root : Option DriverKey} {queue rest : List DriverKey} {key : DriverKey}
    (h : takeNext root queue = some (key, rest)) :
    some key ≠ root ∧ key ∈ queue ∧ rest = queue.erase key := by
  induction queue generalizing rest with
  | nil => cases h
  | cons first others ih =>
    unfold takeNext at h
    split at h
    · rename_i hroot
      obtain ⟨⟨k, r⟩, hr, he⟩ := Option.map_eq_some_iff.mp h
      cases he
      obtain ⟨hne, hmem, hrest⟩ := ih hr
      have hk : first ≠ k := fun e => hne (e ▸ hroot)
      refine ⟨hne, List.mem_cons_of_mem _ hmem, ?_⟩
      show first :: r = _
      rw [List.erase_cons_tail (by simpa using hk), hrest]
    · rename_i hroot
      cases h
      exact ⟨hroot, List.mem_cons_self, by rw [List.erase_cons_head]⟩

theorem reaches_of_step {p : Program Co Fu} {l l' : EventLoop Co Fu} (h : l.step? p = some l') :
    Reaches p l l' :=
  .of_move .step (by rw [move_step, h, Option.getD_some])

theorem idle_of_step_eq_none {p : Program Co Fu} {l : EventLoop Co Fu} (h : l.step? p = none) :
    l.focus = .idle := by
  unfold step? at h
  split at h
  · assumption
  · cases h
  · split at h <;> cases h

/-- A poll under way can always go on. -/
theorem step_of_active (p : Program Co Fu) {l : EventLoop Co Fu} {pollers : List (Poller Co Fu)}
    {key : DriverKey} {doing : Doing Co Fu} (h : l.focus = .active pollers key doing) :
    ∃ l', l.step? p = some l' := by
  cases hs : l.step? p with
  | some l' => exact ⟨l', rfl⟩
  | none =>
    rw [idle_of_step_eq_none hs] at h
    cases h

theorem runPoll_reached (p : Program Co Fu) (fuel : Nat) (l : EventLoop Co Fu) :
    Reaches p l (runPoll p fuel l) := by
  induction fuel generalizing l with
  | zero => exact .refl
  | succ fuel ih =>
    unfold runPoll
    cases h : l.step? p with
    | none => exact .refl
    | some l' => exact (reaches_of_step h).trans (ih l')

theorem drain_reached (p : Program Co Fu) (root : Option DriverKey) (fuel : Nat)
    (l : EventLoop Co Fu) : Reaches p l (drain p root fuel l) := by
  induction fuel generalizing l with
  | zero => exact .refl
  | succ fuel ih =>
    unfold drain
    cases h : l.step? p with
    | some l' => exact (reaches_of_step h).trans (ih l')
    | none =>
      cases hn : takeNext root l.queue with
      | none => exact .refl
      | some r =>
        obtain ⟨key, rest⟩ := r
        obtain ⟨_, hmem, rfl⟩ := takeNext_eq_some hn
        refine .trans (.of_move (.poll key) ?_) (ih _)
        rw [move_of_idle p (idle_of_step_eq_none h)]
        exact if_pos hmem

/-- A round that comes to rest is a run. -/
theorem turn_reached (p : Program Co Fu) (fuel : Nat) (l : EventLoop Co Fu)
    (h : (l.drain p none fuel).focus = .idle) : Reaches p l (l.turn p fuel) :=
  (drain_reached p none fuel l).trans (.of_move .flush (move_of_idle p h _))

/-- What a request does to the loop depends on the request alone, not on what follows the reply. -/
theorem perform_bind_fst {β : Type} (p : Program Co Fu) (l : EventLoop Co Fu)
    (current : Option DriverKey) (a : Act Co Fu α) (f : α → Act Co Fu β)
    (h : ∀ v, a ≠ .ret v) : (l.perform p current (a.bind f)).1 = (l.perform p current a).1 := by
  cases a with
  | ret v => exact absurd rfl (h v)
  | _ => rfl

/-- Requests of the surroundings begin no poll. -/
theorem perform_focus (p : Program Co Fu) (l : EventLoop Co Fu) (current : Option DriverKey)
    (a : Act Co Fu α) : (l.perform p current a).1.focus = l.focus := by
  cases a with
  | ask q k =>
    cases q with
    | openGate name v =>
      show (l.openGate name v).focus = l.focus
      unfold openGate
      split <;> rfl
    | terminate s id =>
      show (l.terminate _ s id).1.focus = l.focus
      unfold terminate
      split
      split <;> rfl
    | _ => rfl
  | _ => rfl

theorem runAct_reached (p : Program Co Fu) (fuel : Nat) (l : EventLoop Co Fu) (a : Act Co Fu α)
    (h : l.focus = .idle) : Reaches p l (l.runAct p fuel a).1 := by
  induction fuel generalizing l a with
  | zero => exact .refl
  | succ fuel ih =>
    have hstep : (∀ v, a ≠ .ret v) →
        Reaches p l ((l.perform p none a).1.runAct p fuel (l.perform p none a).2).1 := fun hret => by
      refine .trans (.of_move (.act (a.bind fun _ => .ret ())) ?_)
        (ih _ _ ((perform_focus p l none a).trans h))
      rw [move_of_idle p h]
      exact perform_bind_fst p l none a _ hret
    cases a with
    | ret v => exact .refl
    | panic => exact .refl
    | _ => exact hstep fun v => nofun

end EventLoop

end EffectLoop
